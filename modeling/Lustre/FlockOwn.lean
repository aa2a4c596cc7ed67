import Lustre.Flock
import Mathlib.Data.List.Basic

/-!
# The locks of one owner

The merge loop of `ldlm_process_flock_lock` works on the locks of one owner,
which are sorted, disjoint and never touch when they have the same mode
(`OwnList`). Such a list stands for a function from bytes to modes (`modeAt`).
A lock stands to the request in one of seven ways, and for each there is a lemma
that says what one round of the loop does.
-/

namespace Lustre

open List

/-! ## Owners, bytes and modes -/

/-- The owner of a flock, as `ldlm_same_flock_owner` compares it. -/
def FlockLock.key (l : FlockLock) : ℕ × Option ℕ := (l.flockOwner, l.lExport)

theorem ldlmSameFlockOwner_iff {lock new : FlockLock} :
    ldlmSameFlockOwner lock new = true ↔ lock.key = new.key := by
  simp only [ldlmSameFlockOwner, FlockLock.key, Bool.and_eq_true, decide_eq_true_eq, Prod.mk.injEq]
  exact ⟨fun h => ⟨h.1.symm, h.2.symm⟩, fun h => ⟨h.1.symm, h.2.symm⟩⟩

/-- The lock covers the byte. -/
def FlockLock.Covers (l : FlockLock) (b : ℕ) : Prop := l.flockStart ≤ b ∧ b ≤ l.flockEnd
  deriving Decidable

/-- A range of 64-bit offsets. -/
def FlockLock.Ranged (l : FlockLock) : Prop :=
  l.flockStart ≤ l.flockEnd ∧ l.flockEnd ≤ obdObjectEof
  deriving Decidable

/-- A granted lock: a range, and the mode of a read or a write lock. -/
structure FlockLock.Valid (l : FlockLock) : Prop where
  /-- the range -/
  ranged : l.Ranged
  /-- the mode -/
  mode : l.lGrantedMode = .pr ∨ l.lGrantedMode = .pw

theorem FlockLock.Valid.mode_ne_nl {l : FlockLock} (h : l.Valid) : l.lGrantedMode ≠ .nl := by
  rcases h.mode with hm | hm <;> rw [hm] <;> decide

/-- `a` stands before `b`: they share no byte, and do not touch if they have one
mode. -/
def Fits (a b : FlockLock) : Prop :=
  a.flockEnd < b.flockStart ∧ (a.lGrantedMode = b.lGrantedMode → a.flockEnd + 1 < b.flockStart)

/-- The granted locks of the owner `k`, in list order. -/
structure OwnList (k : ℕ × Option ℕ) (l : List FlockLock) : Prop where
  /-- they belong to the owner -/
  key : ∀ f ∈ l, f.key = k
  /-- they are granted locks -/
  valid : ∀ f ∈ l, f.Valid
  /-- they are sorted, disjoint, and merged where they could be -/
  sorted : l.Pairwise Fits

/-- The mode held at a byte: that of the first lock that covers it. -/
def modeAt : List FlockLock → ℕ → Option LdlmMode
  | [], _ => none
  | f :: l, b => if f.Covers b then some f.lGrantedMode else modeAt l b

@[simp] theorem modeAt_cons (f : FlockLock) (l : List FlockLock) (b : ℕ) :
    modeAt (f :: l) b = if f.Covers b then some f.lGrantedMode else modeAt l b := rfl

theorem modeAt_append (l m : List FlockLock) (b : ℕ) :
    modeAt (l ++ m) b = (modeAt l b).or (modeAt m b) := by
  induction l with
  | nil => rfl
  | cons f l ih =>
    rw [cons_append, modeAt_cons, modeAt_cons, ih]
    split <;> rfl

variable {l : List FlockLock}

theorem modeAt_eq_none {b : ℕ} (h : ∀ f ∈ l, ¬ f.Covers b) : modeAt l b = none := by
  induction l with
  | nil => rfl
  | cons f l ih =>
    rw [modeAt_cons, if_neg (h f mem_cons_self)]
    exact ih (forall_mem_cons.mp h).2

theorem mem_of_modeAt {b : ℕ} {m : LdlmMode} (h : modeAt l b = some m) :
    ∃ f ∈ l, f.Covers b ∧ f.lGrantedMode = m := by
  induction l with
  | nil => cases h
  | cons f l ih =>
    rw [modeAt_cons] at h
    split at h
    · next hc => exact ⟨f, mem_cons_self, hc, Option.some.inj h⟩
    · obtain ⟨g, hg, hc, hm⟩ := ih h
      exact ⟨g, mem_cons_of_mem _ hg, hc, hm⟩

theorem ownList_nil (k : ℕ × Option ℕ) : OwnList k [] :=
  ⟨forall_mem_nil _, forall_mem_nil _, Pairwise.nil⟩

variable {k : ℕ × Option ℕ}

theorem ownList_cons {f : FlockLock} :
    OwnList k (f :: l) ↔ f.key = k ∧ f.Valid ∧ (∀ g ∈ l, Fits f g) ∧ OwnList k l := by
  constructor
  · rintro ⟨hk, hv, hs⟩
    obtain ⟨hf, hs'⟩ := pairwise_cons.mp hs
    obtain ⟨hk, hkl⟩ := forall_mem_cons.mp hk
    obtain ⟨hv, hvl⟩ := forall_mem_cons.mp hv
    exact ⟨hk, hv, hf, hkl, hvl, hs'⟩
  · rintro ⟨hk, hv, hf, hl⟩
    exact ⟨forall_mem_cons.mpr ⟨hk, hl.key⟩, forall_mem_cons.mpr ⟨hv, hl.valid⟩,
      pairwise_cons.mpr ⟨hf, hl.sorted⟩⟩

theorem ownList_append {l m : List FlockLock} :
    OwnList k (l ++ m) ↔ OwnList k l ∧ OwnList k m ∧ ∀ f ∈ l, ∀ g ∈ m, Fits f g := by
  constructor
  · rintro ⟨hk, hv, hs⟩
    obtain ⟨hl, hm, hlm⟩ := pairwise_append.mp hs
    obtain ⟨hkl, hkm⟩ := forall_mem_append.mp hk
    obtain ⟨hvl, hvm⟩ := forall_mem_append.mp hv
    exact ⟨⟨hkl, hvl, hl⟩, ⟨hkm, hvm, hm⟩, hlm⟩
  · rintro ⟨hl, hm, hlm⟩
    exact ⟨forall_mem_append.mpr ⟨hl.key, hm.key⟩, forall_mem_append.mpr ⟨hl.valid, hm.valid⟩,
      pairwise_append.mpr ⟨hl.sorted, hm.sorted, hlm⟩⟩

/-! ## The comparisons of the loop -/

/-- The guarded comparison with the end of a lock does not overflow. -/
theorem endsFarBefore_iff {new lock : FlockLock} (hn : new.Ranged) (hl : lock.Ranged) :
    (new.flockStart > u64 (lock.flockEnd + 1) ∧ lock.flockEnd ≠ obdObjectEof) ↔
      lock.flockEnd + 1 < new.flockStart := by
  have heof : obdObjectEof = 2 ^ 64 - 1 := rfl
  obtain ⟨hn1, hn2⟩ := hn
  obtain ⟨hl1, hl2⟩ := hl
  constructor
  · rintro ⟨hgt, hne⟩
    rwa [u64_of_lt (by omega)] at hgt
  · intro hlt
    refine ⟨?_, by omega⟩
    rwa [u64_of_lt (by omega)]

/-- The guarded comparison with the start of a lock does not underflow. -/
theorem startsFarBehind_iff {new lock : FlockLock} (hl : lock.Ranged) :
    (new.flockEnd < sub64 lock.flockStart 1 ∧ lock.flockStart ≠ 0) ↔
      new.flockEnd + 1 < lock.flockStart := by
  have heof : obdObjectEof = 2 ^ 64 - 1 := rfl
  obtain ⟨hl1, hl2⟩ := hl
  constructor
  · rintro ⟨hlt, hne⟩
    rw [sub64_of_le (by omega) (by omega)] at hlt
    omega
  · intro hlt
    refine ⟨?_, by omega⟩
    rw [sub64_of_le (by omega) (by omega)]
    omega

/-! ## One round of the loop

Each lock of the owner falls into one of seven cases; the lemmas of this section
are the only place where the loop is unfolded. -/

section Round

variable {m : LdlmMode} {new2 : Option ℕ} {st : FlockMerge} {lock : FlockLock}
  {rest : List FlockLock}

/-- `a` ends before `new` starts, and does not touch it if it has the mode `m`. -/
def Before (m : LdlmMode) (lock new : FlockLock) : Prop :=
  lock.flockEnd < new.flockStart ∧ (lock.lGrantedMode = m → lock.flockEnd + 1 < new.flockStart)
  deriving Decidable

/-- `lock` starts behind `new`, and does not touch it if it has the mode `m`. -/
def Behind (m : LdlmMode) (lock new : FlockLock) : Prop :=
  new.flockEnd < lock.flockStart ∧ (lock.lGrantedMode = m → new.flockEnd + 1 < lock.flockStart)
  deriving Decidable

variable (hkey : lock.key = st.new.key) (hn : st.new.Ranged) (hl : lock.Ranged)

include hkey hn hl

theorem flockMergeLoop_before (h : Before m lock st.new) :
    flockMergeLoop m new2 st (lock :: rest) = flockMergeLoop m new2 (st.pass lock) rest := by
  simp only [flockMergeLoop, ldlmSameFlockOwner_iff.mpr hkey, not_true_eq_false, if_false]
  by_cases hmode : lock.lGrantedMode = m
  · rw [if_pos hmode, if_pos ((endsFarBefore_iff hn hl).mpr (h.2 hmode))]
  · rw [if_neg hmode, if_pos h.1]

/-- At a lock behind `new` the loop ends. -/
theorem flockMergeLoop_behind (h : Behind m lock st.new) :
    flockMergeLoop m new2 st (lock :: rest) = .done st (lock :: rest) := by
  have hlt := h.1
  have hn1 := hn.1
  have hl1 := hl.1
  simp only [flockMergeLoop, ldlmSameFlockOwner_iff.mpr hkey, not_true_eq_false, if_false]
  by_cases hmode : lock.lGrantedMode = m
  · rw [if_pos hmode, if_neg (by rw [endsFarBefore_iff hn hl]; omega),
      if_pos ((startsFarBehind_iff hl).mpr (h.2 hmode))]
  · rw [if_neg hmode, if_neg (by omega), if_pos hlt]

/-- A lock of the mode that overlaps or touches `new` makes one lock with it. -/
theorem flockMergeLoop_join (hmode : lock.lGrantedMode = m)
    (h1 : st.new.flockStart ≤ lock.flockEnd + 1) (h2 : lock.flockStart ≤ st.new.flockEnd + 1) :
    flockMergeLoop m new2 st (lock :: rest) = if st.added then
        flockMergeLoop m new2 ((st.extend (min st.new.flockStart lock.flockStart)
          (max st.new.flockEnd lock.flockEnd)).destroy lock) rest
      else
        flockMergeLoop m new2 (st.link lock (min st.new.flockStart lock.flockStart)
          (max st.new.flockEnd lock.flockEnd)) rest := by
  have hstart : (if st.new.flockStart < lock.flockStart then st.new.flockStart
      else lock.flockStart) = min st.new.flockStart lock.flockStart := by
    split <;> omega
  have hend : (if st.new.flockEnd > lock.flockEnd then st.new.flockEnd
      else lock.flockEnd) = max st.new.flockEnd lock.flockEnd := by
    split <;> omega
  simp only [flockMergeLoop, ldlmSameFlockOwner_iff.mpr hkey, not_true_eq_false, if_false]
  rw [if_pos hmode, if_neg (by rw [endsFarBefore_iff hn hl]; omega),
    if_neg (by rw [startsFarBehind_iff hl]; omega), hstart, hend]

section

variable (hmode : lock.lGrantedMode ≠ m) (hs : st.new.flockStart ≤ lock.flockStart)
include hmode hs

omit hn in
/-- A lock of another mode that sticks out behind `new` keeps what sticks out. -/
theorem flockMergeLoop_trim (hov : lock.flockStart ≤ st.new.flockEnd)
    (hout : st.new.flockEnd < lock.flockEnd) : flockMergeLoop m new2 st (lock :: rest) =
      .done st.overlap (lock.setRange (st.new.flockEnd + 1) lock.flockEnd :: rest) := by
  have heof : obdObjectEof = 2 ^ 64 - 1 := rfl
  obtain ⟨hl1, hl2⟩ := hl
  simp only [flockMergeLoop, ldlmSameFlockOwner_iff.mpr hkey, not_true_eq_false, if_false]
  rw [if_neg hmode, if_neg (by omega), if_neg (by omega), if_pos hs, if_pos hout,
    u64_of_lt (by omega)]

omit hn in
/-- A lock of another mode under `new` is destroyed. -/
theorem flockMergeLoop_cover (hcov : lock.flockEnd ≤ st.new.flockEnd) :
    flockMergeLoop m new2 st (lock :: rest) =
      flockMergeLoop m new2 (st.overlap.destroy lock) rest := by
  obtain ⟨hl1, -⟩ := hl
  simp only [flockMergeLoop, ldlmSameFlockOwner_iff.mpr hkey, not_true_eq_false, if_false]
  rw [if_neg hmode, if_neg (by omega), if_neg (by omega), if_pos hs, if_neg (by omega)]

omit hl hs in
/-- A lock of another mode that sticks out before `new` keeps what sticks out. -/
theorem flockMergeLoop_cut (hs : lock.flockStart < st.new.flockStart)
    (hov : st.new.flockStart ≤ lock.flockEnd) (hcov : lock.flockEnd ≤ st.new.flockEnd) :
    flockMergeLoop m new2 st (lock :: rest) =
      flockMergeLoop m new2
        (st.overlap.pass (lock.setRange lock.flockStart (st.new.flockStart - 1))) rest := by
  have heof : obdObjectEof = 2 ^ 64 - 1 := rfl
  obtain ⟨hn1, hn2⟩ := hn
  simp only [flockMergeLoop, ldlmSameFlockOwner_iff.mpr hkey, not_true_eq_false, if_false]
  rw [if_neg hmode, if_neg (by omega), if_neg (by omega), if_neg (by omega), if_pos hcov,
    sub64_of_le (by omega) (by omega)]

end

end Round

/-- A lock fits between locks before it and locks behind it. -/
theorem ownList_insert {left l : List FlockLock} {new : FlockLock}
    (hown : OwnList k (left ++ l)) (hkey : new.key = k) (hvalid : new.Valid)
    (hbefore : ∀ f ∈ left, Before new.lGrantedMode f new)
    (hbehind : ∀ g ∈ l, Behind new.lGrantedMode g new) : OwnList k (left ++ new :: l) := by
  obtain ⟨hleft, hl, hll⟩ := ownList_append.mp hown
  refine ownList_append.mpr ⟨hleft, ownList_cons.mpr ⟨hkey, hvalid, fun g hg => ?_, hl⟩,
    fun f hf => forall_mem_cons.mpr ⟨hbefore f hf, hll f hf⟩⟩
  exact ⟨(hbehind g hg).1, fun heq => (hbehind g hg).2 heq.symm⟩

end Lustre
