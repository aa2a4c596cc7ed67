import Mathlib.Data.List.Basic

/-!
# Checked reads of a byte buffer

A pass over untrusted bytes reads fields at offsets that it computes from earlier
fields. It runs here in `Except (Fault ε)`: a read past the end of the buffer stops it
with `outOfBounds`, and a rejection of the contents with an error of its own.

`InBounds` says that a pass does not stop in the first way. It is computed along the
program: `inBounds_bind` splits a sequence, `inBounds_readLe` turns a read into the
inequality it needs, and what follows is about the value read, `leAt`.
-/

namespace Lustre.ByteReader

/-- How a pass over a buffer can stop. -/
inductive Fault (ε : Type) where
  /-- it read past the end -/
  | outOfBounds
  /-- it did not accept the contents -/
  | rejected (e : ε)
  deriving DecidableEq

variable {ε α β : Type} {buf : List UInt8}

/-- The contents are not accepted. -/
def reject (e : ε) : Except (Fault ε) α := .error (.rejected e)

/-- The little-endian number in the `n` bytes from `off` on. -/
def leAt (buf : List UInt8) (off : ℕ) : ℕ → ℕ
  | 0 => 0
  | n + 1 => (buf.getD off 0).toNat + 256 * leAt buf (off + 1) n

/-- Read the `n` bytes from `off` on without using them. -/
def touch (ε : Type) (buf : List UInt8) (off n : ℕ) : Except (Fault ε) Unit :=
  if off + n ≤ buf.length then .ok () else .error .outOfBounds

/-- Read a little-endian number of `n` bytes. -/
def readLe (ε : Type) (buf : List UInt8) (off n : ℕ) : Except (Fault ε) ℕ :=
  if off + n ≤ buf.length then .ok (leAt buf off n) else .error .outOfBounds

/-- A string ends inside the buffer. -/
def Ends (buf : List UInt8) (off : ℕ) : Prop := 0 ∈ buf.drop off
  deriving Decidable

/-- The length of the string at `off`: every byte up to the first zero is read. -/
def strlen (ε : Type) (buf : List UInt8) (off : ℕ) : Except (Fault ε) ℕ :=
  if Ends buf off then .ok ((buf.drop off).idxOf 0) else .error .outOfBounds

/-- The pass reads only bytes of the buffer. -/
def InBounds (x : Except (Fault ε) α) : Prop := x ≠ .error .outOfBounds

instance [DecidableEq ε] [DecidableEq α] (x : Except (Fault ε) α) : Decidable (InBounds x) :=
  inferInstanceAs (Decidable (_ ≠ _))

@[simp] theorem inBounds_ok (a : α) : InBounds (.ok a : Except (Fault ε) α) := by
  simp [InBounds]

@[simp] theorem inBounds_pure (a : α) : InBounds (pure a : Except (Fault ε) α) := inBounds_ok a

@[simp] theorem inBounds_reject (e : ε) : InBounds (reject e : Except (Fault ε) α) := by
  simp [InBounds, reject]

/-- A sequence stays in bounds if its first part does and, on the value that gives, the
second. -/
theorem inBounds_bind (x : Except (Fault ε) α) (f : α → Except (Fault ε) β) :
    InBounds (x >>= f) ↔ InBounds x ∧ ∀ a, x = .ok a → InBounds (f a) := by
  cases x with
  | ok a => simp [InBounds, bind, Except.bind]
  | error e =>
    cases e with
    | outOfBounds | rejected e => simp [InBounds, bind, Except.bind]

theorem bind_eq_ok (x : Except (Fault ε) α) (f : α → Except (Fault ε) β) (b : β) :
    x >>= f = .ok b ↔ ∃ a, x = .ok a ∧ f a = .ok b := by
  cases x <;> simp [bind, Except.bind]

@[simp] theorem reject_ne_ok (e : ε) (a : α) : (reject e : Except (Fault ε) α) ≠ .ok a := by
  simp [reject]

theorem ok_bind (a : α) (f : α → Except (Fault ε) β) : (Except.ok a >>= f) = f a := rfl

variable {off n : ℕ}

theorem touch_eq_ok (h : off + n ≤ buf.length) : touch ε buf off n = .ok () := if_pos h

theorem readLe_eq_ok (h : off + n ≤ buf.length) :
    readLe ε buf off n = .ok (leAt buf off n) := if_pos h

theorem inBounds_readLe : InBounds (readLe ε buf off n) ↔ off + n ≤ buf.length := by
  rw [readLe]
  split
  · exact iff_of_true (inBounds_ok _) ‹_›
  · exact iff_of_false (fun h => h rfl) ‹_›

/-- A checked read and what is done with it. -/
theorem inBounds_guard_bind (p : Prop) [Decidable p] (a : α) (f : α → Except (Fault ε) β) :
    InBounds ((if p then .ok a else .error .outOfBounds) >>= f) ↔ p ∧ InBounds (f a) := by
  by_cases h : p
  · rw [if_pos h, ok_bind]
    simp [h]
  · simp [InBounds, bind, Except.bind, h]

theorem inBounds_readLe_bind (off n : ℕ) (f : ℕ → Except (Fault ε) β) :
    InBounds (readLe ε buf off n >>= f) ↔ off + n ≤ buf.length ∧ InBounds (f (leAt buf off n)) :=
  inBounds_guard_bind _ _ f

theorem inBounds_touch_bind (off n : ℕ) (f : Unit → Except (Fault ε) β) :
    InBounds (touch ε buf off n >>= f) ↔ off + n ≤ buf.length ∧ InBounds (f ()) :=
  inBounds_guard_bind _ _ f

/-- The string at `off` has fewer than `n` bytes. -/
def EndsWithin (buf : List UInt8) (off n : ℕ) : Prop := 0 ∈ (buf.drop off).take n
  deriving Decidable

theorem strlen_eq_ok {off : ℕ} (h : Ends buf off) :
    strlen ε buf off = .ok ((buf.drop off).idxOf 0) := if_pos h

theorem inBounds_strlen_bind (off : ℕ) (f : ℕ → Except (Fault ε) β) :
    InBounds (strlen ε buf off >>= f) ↔ Ends buf off ∧ InBounds (f ((buf.drop off).idxOf 0)) :=
  inBounds_guard_bind _ _ f

theorem idxOf_lt_iff {off : ℕ} (h : Ends buf off) (n : ℕ) :
    (buf.drop off).idxOf 0 < n ↔ EndsWithin buf off n :=
  (List.mem_take_iff_idxOf_lt h).symm

theorem EndsWithin.ends (h : EndsWithin buf off n) : Ends buf off :=
  List.mem_of_mem_take h

/-! ## Loops -/

/-- The pass accepts. -/
def Accepts (x : Except (Fault ε) α) : Prop := ∃ a, x = .ok a

@[simp] theorem accepts_pure (a : α) : Accepts (pure a : Except (Fault ε) α) := ⟨a, rfl⟩

@[simp] theorem not_accepts_reject (e : ε) : ¬ Accepts (reject e : Except (Fault ε) α) := by
  simp [Accepts]

section

variable (x : Except (Fault ε) α)

theorem accepts_bind_pure (f : α → β) : Accepts (x >>= fun a => pure (f a)) ↔ Accepts x := by
  cases x with
  | ok a => exact iff_of_true ⟨f a, rfl⟩ ⟨a, rfl⟩
  | error e => simp [Accepts, bind, Except.bind]

theorem inBounds_bind_pure (f : α → β) : InBounds (x >>= fun a => pure (f a)) ↔ InBounds x := by
  rw [inBounds_bind]
  simp

/-- Two passes one after the other, the second not depending on what the first gave. -/
theorem inBounds_seq {γ : Type} (y : Except (Fault ε) β) (f : α → β → γ) :
    InBounds (x >>= fun a => y >>= fun b => pure (f a b)) ↔
      InBounds x ∧ (Accepts x → InBounds y) := by
  rw [inBounds_bind]
  simp only [inBounds_bind_pure, Accepts, forall_exists_index]

theorem accepts_seq {γ : Type} (y : Except (Fault ε) β) (f : α → β → γ) :
    Accepts (x >>= fun a => y >>= fun b => pure (f a b)) ↔ Accepts x ∧ Accepts y := by
  cases x with
  | ok a =>
    rw [ok_bind, accepts_bind_pure]
    exact ⟨fun h => ⟨⟨a, rfl⟩, h⟩, fun h => h.2⟩
  | error e => simp [Accepts, bind, Except.bind]

end

/-- Run `body` on `n` numbers from `i` on, and stop where it stops. -/
def eachFrom (body : ℕ → Except (Fault ε) α) : ℕ → ℕ → Except (Fault ε) (List α)
  | 0, _ => pure []
  | n + 1, i => do
    let a ← body i
    let rest ← eachFrom body n (i + 1)
    pure (a :: rest)

theorem accepts_eachFrom (body : ℕ → Except (Fault ε) α) :
    ∀ n i, Accepts (eachFrom body n i) ↔ ∀ k, i ≤ k → k < i + n → Accepts (body k) := by
  intro n
  induction n with
  | zero =>
    intro i
    refine iff_of_true ⟨[], rfl⟩ fun k _ _ => ?_
    omega
  | succ n ih =>
    intro i
    constructor
    · rintro ⟨r, hr⟩ k hik hk
      obtain ⟨a, ha, hrest⟩ := (bind_eq_ok _ _ _).mp hr
      rcases Nat.eq_or_lt_of_le hik with rfl | hlt
      · exact ⟨a, ha⟩
      · obtain ⟨rest, hrest, -⟩ := (bind_eq_ok _ _ _).mp hrest
        exact (ih (i + 1)).mp ⟨rest, hrest⟩ k hlt (by omega)
    · intro hall
      obtain ⟨a, ha⟩ := hall i (Nat.le_refl i) (by omega)
      obtain ⟨rest, hrest⟩ := (ih (i + 1)).mpr fun k hik hk => hall k (by omega) (by omega)
      refine ⟨a :: rest, ?_⟩
      rw [eachFrom, ha, ok_bind, hrest, ok_bind]
      rfl

/-- A loop stays in bounds if each turn does that is reached. -/
theorem inBounds_eachFrom (body : ℕ → Except (Fault ε) α) :
    ∀ n i, InBounds (eachFrom body n i) ↔ ∀ k, i ≤ k → k < i + n →
      (∀ j, i ≤ j → j < k → Accepts (body j)) → InBounds (body k) := by
  intro n
  induction n with
  | zero =>
    intro i
    refine iff_of_true (inBounds_pure _) fun k _ _ => ?_
    omega
  | succ n ih =>
    intro i
    rw [eachFrom, inBounds_bind]
    constructor
    · rintro ⟨hi, hnext⟩ k hik hk hpast
      rcases Nat.eq_or_lt_of_le hik with rfl | hlt
      · exact hi
      · obtain ⟨a, ha⟩ := hpast i (Nat.le_refl i) hlt
        have hrest := (inBounds_bind_pure _ _).mp (hnext a ha)
        refine (ih (i + 1)).mp hrest k hlt (by omega) fun j hj hjk => ?_
        exact hpast j (by omega) hjk
    · intro hall
      refine ⟨hall i (Nat.le_refl i) (by omega) fun j hj hji => by omega, fun a ha => ?_⟩
      rw [inBounds_bind_pure, ih]
      intro k hik hk hpast
      refine hall k (by omega) (by omega) fun j hj hjk => ?_
      rcases Nat.eq_or_lt_of_le hj with rfl | hlt
      · exact ⟨a, ha⟩
      · exact hpast j hlt hjk

/-- In a loop that checks `F` before it asks `A`, each turn may count on `A` alone of the
turns before it. -/
theorem forall_reached_iff {n : ℕ} {F A : ℕ → Prop} :
    (∀ i < n, (∀ j < i, F j ∧ A j) → F i) ↔ ∀ i < n, (∀ j < i, A j) → F i := by
  constructor
  · intro h i
    induction i using Nat.strongRecOn with
    | _ i ih =>
      intro hi hA
      refine h i hi fun j hj => ⟨?_, hA j hj⟩
      exact ih j hj (by omega) fun k hk => hA k (by omega)
  · intro h i hi hFA
    exact h i hi fun j hj => (hFA j hj).2

end Lustre.ByteReader
