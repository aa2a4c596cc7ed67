import Mathlib.Data.Nat.Basic

/-!
# Repacking fields in one buffer

A buffer is a function from offsets to bytes. A record packs its fields one after the other,
each of a fixed size, and leaves out the absent ones. Repacking moves every field that is
present before and after to its new offset, in place, the last field first, and then sets the
fields that are new.

`SlotsClear` is when the moves do not get in each other's way: a field that is kept never
lands on a kept field in front of it, which is moved later. Then every kept field arrives
(`moveSlots_kept`), and setting the new ones touches none of them (`fillSlots_kept`).
-/

namespace Lustre

variable {β : Type*}

/-! ## Copying and setting -/

/-- Copy `n` bytes from `src` to `dst`; the ranges may overlap. -/
def memmove (b : ℕ → β) (dst src n : ℕ) : ℕ → β := fun a =>
  if dst ≤ a ∧ a < dst + n then b (src + (a - dst)) else b a

/-- Set `n` bytes from `dst` on. -/
def memset (b : ℕ → β) (dst : ℕ) (v : β) (n : ℕ) : ℕ → β := fun a =>
  if dst ≤ a ∧ a < dst + n then v else b a

variable {b : ℕ → β} {a dst src n k : ℕ} {v : β}

theorem memmove_of_ge (h : dst + n ≤ a) : memmove b dst src n a = b a :=
  if_neg fun hin => absurd hin.2 (not_lt.mpr h)

theorem memmove_inside (h : k < n) : memmove b dst src n (dst + k) = b (src + k) := by
  rw [memmove, if_pos ⟨Nat.le_add_right _ _, Nat.add_lt_add_left h _⟩, Nat.add_sub_cancel_left]

/-- The bytes after they have been set or not. -/
theorem ite_memset {c : Bool} : (if c then memset b dst v n else b) a =
    if c = true ∧ dst ≤ a ∧ a < dst + n then v else b a := by
  cases c with
  | false => simp
  | true => simp only [true_and, if_true, memset]

/-! ## Fields -/

/-- A field: its size, and whether it is present before and after. -/
structure Slot where
  size : ℕ
  old : Bool
  new : Bool

/-- What the field takes before. -/
def Slot.oldWidth (f : Slot) : ℕ := if f.old then f.size else 0

/-- What the field takes after. -/
def Slot.newWidth (f : Slot) : ℕ := if f.new then f.size else 0

/-- The field is present before and after. -/
def Slot.kept (f : Slot) : Bool := f.old && f.new

theorem Slot.newWidth_of_kept {f : Slot} (h : f.kept = true) : f.newWidth = f.size :=
  if_pos (Bool.and_eq_true_iff.mp h).2

/-- `f` is the field at the offset `s` before and `d` after, where the fields start at `S` and
at `D`. -/
inductive SlotAt : List Slot → ℕ → ℕ → Slot → ℕ → ℕ → Prop where
  /-- the first field -/
  | head (f : Slot) (fs : List Slot) (S D : ℕ) : SlotAt (f :: fs) S D f S D
  /-- a later field -/
  | tail {g : Slot} {fs : List Slot} {S D : ℕ} {f : Slot} {s d : ℕ} :
      SlotAt fs (S + g.oldWidth) (D + g.newWidth) f s d → SlotAt (g :: fs) S D f s d

/-- Move the kept fields, the last one first. -/
def moveSlots : List Slot → ℕ → ℕ → (ℕ → β) → ℕ → β
  | [], _, _, b => b
  | f :: fs, S, D, b =>
    let b := moveSlots fs (S + f.oldWidth) (D + f.newWidth) b
    if f.kept then memmove b D S f.size else b

/-- Set the fields that are new, the last one first. -/
def fillSlots (v : β) : List Slot → ℕ → (ℕ → β) → ℕ → β
  | [], _, b => b
  | f :: fs, D, b =>
    let b := fillSlots v fs (D + f.newWidth) b
    if f.new && !f.old then memset b D v f.size else b

/-- No kept field lands on the bytes from `lo` up to `hi`. -/
def SlotsMiss (lo hi : ℕ) : List Slot → ℕ → Prop
  | [], _ => True
  | f :: fs, D =>
    (f.kept = true → D + f.size ≤ lo ∨ hi ≤ D) ∧ SlotsMiss lo hi fs (D + f.newWidth)

/-- No kept field lands on a kept field in front of it. -/
def SlotsClear : List Slot → ℕ → ℕ → Prop
  | [], _, _ => True
  | f :: fs, S, D =>
    (f.kept = true → SlotsMiss S (S + f.size) fs (D + f.newWidth)) ∧
      SlotsClear fs (S + f.oldWidth) (D + f.newWidth)

instance SlotsMiss.decide (lo hi : ℕ) : ∀ fs D, Decidable (SlotsMiss lo hi fs D)
  | [], _ => .isTrue trivial
  | f :: fs, D =>
    have := SlotsMiss.decide lo hi fs (D + f.newWidth)
    inferInstanceAs (Decidable ((_ → _) ∧ _))

instance SlotsClear.decide : ∀ fs S D, Decidable (SlotsClear fs S D)
  | [], _, _ => .isTrue trivial
  | f :: fs, S, D =>
    have := SlotsClear.decide fs (S + f.oldWidth) (D + f.newWidth)
    inferInstanceAs (Decidable ((_ → _) ∧ _))

variable {fs : List Slot} {S D lo hi s d : ℕ} {f : Slot}

theorem SlotAt.le (h : SlotAt fs S D f s d) : D ≤ d := by
  induction h with
  | head => exact le_rfl
  | tail _ ih => exact le_trans (Nat.le_add_right _ _) ih

/-! ## Moving -/

/-- Bytes on which no kept field lands are not written. -/
theorem moveSlots_of_miss (h : SlotsMiss lo hi fs D) (hlo : lo ≤ a) (hhi : a < hi) :
    moveSlots fs S D b a = b a := by
  induction fs generalizing S D with
  | nil => rfl
  | cons f fs ih =>
    obtain ⟨hf, hrest⟩ := h
    rw [moveSlots]
    split
    · next hkept =>
      have hout := hf hkept
      rw [memmove, if_neg (by omega)]
      exact ih hrest
    · exact ih hrest

/-- Behind the field in front, moving it makes no difference. -/
theorem moveSlots_tail {g : Slot} (h : D + g.newWidth ≤ a) :
    moveSlots (g :: fs) S D b a = moveSlots fs (S + g.oldWidth) (D + g.newWidth) b a := by
  rw [moveSlots]
  split
  · next hg =>
    rw [Slot.newWidth_of_kept hg] at h
    exact memmove_of_ge h
  · rfl

/-- A kept field arrives if no field behind it lands on it. -/
theorem moveSlots_head (hkept : f.kept = true)
    (hmiss : SlotsMiss S (S + f.size) fs (D + f.newWidth)) (hk : k < f.size) :
    moveSlots (f :: fs) S D b (D + k) = b (S + k) := by
  rw [moveSlots, if_pos hkept, memmove_inside hk]
  exact moveSlots_of_miss hmiss (Nat.le_add_right _ _) (Nat.add_lt_add_left hk _)

theorem moveSlots_kept (hclear : SlotsClear fs S D) (hat : SlotAt fs S D f s d)
    (hkept : f.kept = true) (hk : k < f.size) : moveSlots fs S D b (d + k) = b (s + k) := by
  induction hat with
  | head f fs S D => exact moveSlots_head hkept (hclear.1 hkept) hk
  | tail hat ih =>
    rw [moveSlots_tail (Nat.le_trans hat.le (Nat.le_add_right _ _))]
    exact ih hclear.2 hkept hk

/-! ## Setting -/

theorem fillSlots_nil (v : β) (D : ℕ) (b : ℕ → β) : fillSlots v [] D b a = b a := rfl

theorem fillSlots_cons (v : β) (f : Slot) (fs : List Slot) (D : ℕ) (b : ℕ → β) :
    fillSlots v (f :: fs) D b a = if (f.new && !f.old) = true ∧ D ≤ a ∧ a < D + f.size then v
      else fillSlots v fs (D + f.newWidth) b a := by
  rw [fillSlots]
  exact ite_memset

theorem fillSlots_of_lt (v : β) (fs : List Slot) (D : ℕ) (b : ℕ → β) (h : a < D) :
    fillSlots v fs D b a = b a := by
  induction fs generalizing D with
  | nil => rfl
  | cons f fs ih =>
    rw [fillSlots_cons, if_neg fun hin => absurd hin.2.1 (not_le.mpr h)]
    exact ih (D + f.newWidth) (Nat.lt_add_right _ h)

/-- Behind the field in front, setting it makes no difference. -/
theorem fillSlots_tail {g : Slot} (h : D + g.newWidth ≤ a) :
    fillSlots v (g :: fs) D b a = fillSlots v fs (D + g.newWidth) b a := by
  rw [fillSlots_cons]
  refine if_neg ?_
  rintro ⟨hnew, -, hlt⟩
  rw [Slot.newWidth, if_pos (Bool.and_eq_true_iff.mp hnew).1] at h
  exact absurd hlt (not_lt.mpr h)

theorem fillSlots_new (hat : SlotAt fs S D f s d) (hnew : (f.new && !f.old) = true)
    (hk : k < f.size) : fillSlots v fs D b (d + k) = v := by
  induction hat with
  | head f fs S D =>
    rw [fillSlots_cons]
    exact if_pos ⟨hnew, Nat.le_add_right _ _, Nat.add_lt_add_left hk _⟩
  | tail hat ih =>
    rw [fillSlots_tail (Nat.le_trans hat.le (Nat.le_add_right _ _))]
    exact ih hnew hk

theorem fillSlots_kept (hat : SlotAt fs S D f s d) (hkept : f.kept = true) (hk : k < f.size) :
    fillSlots v fs D b (d + k) = b (d + k) := by
  induction hat with
  | head f fs S D =>
    have hold : f.old = true := (Bool.and_eq_true_iff.mp hkept).1
    rw [fillSlots_cons, if_neg (by simp [hold])]
    refine fillSlots_of_lt v fs _ b ?_
    rw [Slot.newWidth_of_kept hkept]
    exact Nat.add_lt_add_left hk _
  | tail hat ih =>
    rw [fillSlots_tail (Nat.le_trans hat.le (Nat.le_add_right _ _))]
    exact ih hkept hk

/-! ## When the moves are clear -/

/-- What lands behind the bytes misses them. -/
theorem SlotsMiss.of_le (h : hi ≤ D) : SlotsMiss lo hi fs D := by
  induction fs generalizing D with
  | nil => trivial
  | cons f fs ih => exact ⟨fun _ => .inr h, ih (Nat.le_trans h (Nat.le_add_right _ _))⟩

/-- A first field that is not moved to the left. -/
theorem SlotsClear.cons (hSD : f.kept = true → S ≤ D)
    (hrest : SlotsClear fs (S + f.oldWidth) (D + f.newWidth)) : SlotsClear (f :: fs) S D := by
  refine ⟨fun hkept => .of_le ?_, hrest⟩
  rw [Slot.newWidth_of_kept hkept]
  exact Nat.add_le_add_right (hSD hkept) _

/-- Fields of which none is removed, moved to the right, are clear. -/
theorem SlotsClear.of_grow (hgrow : ∀ f ∈ fs, f.old = true → f.new = true) (hSD : S ≤ D) :
    SlotsClear fs S D := by
  induction fs generalizing S D with
  | nil => trivial
  | cons f fs ih =>
    have hw : f.oldWidth ≤ f.newWidth := by
      rw [Slot.oldWidth, Slot.newWidth]
      split
      · next hold => rw [if_pos (hgrow f List.mem_cons_self hold)]
      · exact Nat.zero_le _
    exact .cons (fun _ => hSD) (ih (List.forall_mem_cons.mp hgrow).2 (Nat.add_le_add hSD hw))

/-- Fields none of which is kept, and then one more. -/
theorem SlotsClear.of_none_kept (fs : List Slot) (hnone : ∀ f ∈ fs, f.kept = false)
    (last : Slot) : SlotsClear (fs ++ [last]) S D := by
  induction fs generalizing S D with
  | nil => exact ⟨fun _ => trivial, trivial⟩
  | cons f fs ih =>
    obtain ⟨hf, hfs⟩ := List.forall_mem_cons.mp hnone
    exact ⟨fun hkept => absurd hkept (by simp [hf]), ih hfs⟩

end Lustre
