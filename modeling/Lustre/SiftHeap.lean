import Mathlib.Data.Nat.Notation
import Mathlib.Logic.Function.Basic

/-!
# Heaps in an array, with a hole

An array `a : ℕ → α` of `n` values is a heap for a comparison `le` when no value comes
before its parent. The sifts carry a value `e` through a *hole*: `siftUp` moves parents
down into the hole, `siftDown` moves children up, and both put `e` where they stop.

`HoleOrder` is what the order says off the hole. From it `siftUp` gives a heap, or it does
not move at all and `siftDown` does (`HoleOrder.relocate`): so one lemma serves the
removal, the insertion and the change of a value.
-/

namespace Lustre.SiftHeap

universe u

/-- The position of the parent. -/
def parent (i : ℕ) : ℕ := (i - 1) / 2

theorem parent_lt {i : ℕ} (h : 0 < i) : parent i < i := by
  rw [parent]
  omega

theorem parent_eq_iff {i c : ℕ} (h : 0 < i) : parent i = c ↔ i = 2 * c + 1 ∨ i = 2 * c + 2 := by
  rw [parent]
  omega

variable {α : Type u} (le : α → α → Bool)

/-- No value comes before its parent. -/
def Ordered (a : ℕ → α) (n : ℕ) : Prop :=
  ∀ i, 0 < i → i < n → le (a (parent i)) (a i) = true

/-- The order off the hole `cur`: between the other positions, and over the hole from its parent
to its children. -/
structure HoleOrder (a : ℕ → α) (n cur : ℕ) : Prop where
  off : ∀ i, 0 < i → i < n → i ≠ cur → parent i ≠ cur → le (a (parent i)) (a i) = true
  grand : 0 < cur → ∀ i, 0 < i → i < n → parent i = cur → le (a (parent cur)) (a i) = true

/-- The value `e` may stand above the hole's children. -/
def Below (a : ℕ → α) (n cur : ℕ) (e : α) : Prop :=
  ∀ i, 0 < i → i < n → parent i = cur → le e (a i) = true

/-- The value `e` may stand under the hole's parent. -/
def Above (a : ℕ → α) (cur : ℕ) (e : α) : Prop := 0 < cur → le (a (parent cur)) e = true

/-! ## The sifts -/

open Function (update update_self update_of_ne)

/-- Move parents into the hole until `e` fits, and put it there; with the place of `e`. -/
def siftUp (e : α) : ℕ → ℕ → (ℕ → α) → (ℕ → α) × ℕ
  | 0, cur, a => (update a cur e, cur)
  | fuel + 1, cur, a =>
    if cur = 0 ∨ le (a (parent cur)) e = true then (update a cur e, cur)
    else siftUp e fuel (parent cur) (update a cur (a (parent cur)))

/-- The child of `cur` that comes first. -/
def firstChild (a : ℕ → α) (n cur : ℕ) : ℕ :=
  if 2 * cur + 2 < n ∧ le (a (2 * cur + 2)) (a (2 * cur + 1)) = true then 2 * cur + 2
  else 2 * cur + 1

/-- Move children into the hole until `e` fits, and put it there. -/
def siftDown (e : α) (n : ℕ) : ℕ → ℕ → (ℕ → α) → (ℕ → α) × ℕ
  | 0, cur, a => (update a cur e, cur)
  | fuel + 1, cur, a =>
    if n ≤ 2 * cur + 1 ∨ le e (a (firstChild le a n cur)) = true then (update a cur e, cur)
    else siftDown e n fuel (firstChild le a n cur) (update a cur (a (firstChild le a n cur)))

/-- Sift up, and if nothing moved sift down. -/
def relocate (e : α) (n cur : ℕ) (a : ℕ → α) : (ℕ → α) × ℕ :=
  let r := siftUp le e (cur + 1) cur a
  if r.2 = cur then siftDown le e n n cur r.1 else r

/-! ## Order -/

variable {le} {a : ℕ → α} {n cur : ℕ} {e : α}

theorem HoleOrder.place (h : HoleOrder le a n cur) (hbelow : Below le a n cur e)
    (habove : Above le a cur e) : Ordered le (update a cur e) n := by
  intro i hi hin
  by_cases hic : i = cur
  · subst hic
    rw [update_self, update_of_ne (Nat.ne_of_lt (parent_lt hi))]
    exact habove hi
  · rw [update_of_ne hic]
    by_cases hpc : parent i = cur
    · rw [hpc, update_self]
      exact hbelow i hi hin hpc
    · rw [update_of_ne hpc]
      exact h.off i hi hin hic hpc

variable {fuel : ℕ}

section Preorder

/-- Any two values compare, and comparisons chain. -/
structure TotalPreorder (le : α → α → Bool) : Prop where
  total : ∀ x y, le x y = true ∨ le y x = true
  trans : ∀ x y z, le x y = true → le y z = true → le x z = true

variable (hpre : TotalPreorder le)
include hpre

theorem le_refl (x : α) : le x x = true := (hpre.total x x).elim id id

theorem Ordered.root (h : Ordered le a n) {i : ℕ} (hi : i < n) : le (a 0) (a i) = true := by
  induction i using Nat.strongRecOn with
  | ind i ih =>
    by_cases hzero : i = 0
    · exact hzero ▸ le_refl hpre _
    · have hpos : 0 < i := Nat.pos_of_ne_zero hzero
      have hp := parent_lt hpos
      exact hpre.trans _ _ _ (ih _ hp (by omega)) (h i hpos hi)

theorem Ordered.hole (h : Ordered le a n) (hcur : cur < n) : HoleOrder le a n cur := by
  refine ⟨fun i hi hin _ _ => h i hi hin, fun hpos i hi hin hp => ?_⟩
  exact hpre.trans _ _ _ (h cur hpos hcur) (hp ▸ h i hi hin)

section

variable (h : HoleOrder le a n cur)
include h

theorem HoleOrder.moveUp (hpos : 0 < cur) (hcur : cur < n) :
    HoleOrder le (update a cur (a (parent cur))) n (parent cur) := by
  have hp := parent_lt hpos
  constructor
  · intro i hi hin hip hpp
    by_cases hic : i = cur
    · exact absurd (congrArg parent hic) hpp
    · rw [update_of_ne hic]
      by_cases hpc : parent i = cur
      · rw [hpc, update_self]
        exact h.grand hpos i hi hin hpc
      · rw [update_of_ne hpc]
        exact h.off i hi hin hic hpc
  · intro hpos' i hi hin hip
    have hpp := parent_lt hpos'
    have hgrand := h.off (parent cur) hpos' (by omega) (by omega) (by omega)
    rw [update_of_ne (by omega)]
    by_cases hic : i = cur
    · rw [hic, update_self]
      exact hgrand
    · rw [update_of_ne hic]
      exact hpre.trans _ _ _ hgrand (hip ▸ h.off i hi hin hic (by omega))

/-- … and what is carried may then stand above the hole. -/
theorem HoleOrder.below_moveUp (hpos : 0 < cur) (hlt : ¬ le (a (parent cur)) e = true) :
    Below le (update a cur (a (parent cur))) n (parent cur) e := by
  intro i hi hin hip
  have hp := parent_lt hpos
  have hle : le e (a (parent cur)) = true := (hpre.total _ _).resolve_left hlt
  by_cases hic : i = cur
  · rw [hic, update_self]
    exact hle
  · rw [update_of_ne hic]
    exact hpre.trans _ _ _ hle (hip ▸ h.off i hi hin hic (by omega))

/-- A value that may stand above the hole is sifted up to its place. -/
theorem siftUp_ordered (hbelow : Below le a n cur e) (hcur : cur < n) (hfuel : cur < fuel) :
    Ordered le (siftUp le e fuel cur a).1 n := by
  induction fuel generalizing cur a with
  | zero => omega
  | succ fuel ih =>
    rw [siftUp]
    split
    · next hstop =>
      refine h.place hbelow fun hpos => ?_
      exact hstop.resolve_left (Nat.ne_of_gt hpos)
    · next hgo =>
      obtain ⟨hne, hlt⟩ := not_or.mp hgo
      have hpos : 0 < cur := Nat.pos_of_ne_zero hne
      have hp := parent_lt hpos
      exact ih (h.moveUp hpre hpos hcur) (h.below_moveUp hpre hpos hlt) (by omega)
        (by omega)

omit h in
/-- The chosen child comes before the other one. -/
theorem firstChild_le {i : ℕ} (hi : 0 < i) (hin : i < n) (hp : parent i = cur) :
    le (a (firstChild le a n cur)) (a i) = true := by
  rw [firstChild]
  rcases (parent_eq_iff hi).mp hp with rfl | rfl
  · split
    · next hc => exact hc.2
    · exact le_refl hpre _
  · split
    · exact le_refl hpre _
    · next hc =>
      have hnot : ¬ le (a (2 * cur + 2)) (a (2 * cur + 1)) = true := fun hle => hc ⟨hin, hle⟩
      exact (hpre.total _ _).resolve_left hnot

omit hpre h in
theorem firstChild_mem (le : α → α → Bool) (a : ℕ → α) (h : 2 * cur + 1 < n) :
    firstChild le a n cur < n ∧ parent (firstChild le a n cur) = cur ∧
      cur < firstChild le a n cur := by
  rw [firstChild, parent]
  split <;> omega

theorem HoleOrder.moveDown (hchild : 2 * cur + 1 < n) :
    HoleOrder le (update a cur (a (firstChild le a n cur))) n (firstChild le a n cur) := by
  obtain ⟨hcn, hpc, hlt⟩ := firstChild_mem le a hchild
  constructor
  · intro i hi hin hic hpi
    by_cases hcur : i = cur
    · subst hcur
      rw [update_self, update_of_ne (Nat.ne_of_lt (parent_lt hi))]
      exact h.grand hi _ (by omega) hcn hpc
    · rw [update_of_ne hcur]
      by_cases hp : parent i = cur
      · rw [hp, update_self]
        exact firstChild_le hpre hi hin hp
      · rw [update_of_ne hp]
        exact h.off i hi hin hcur hp
  · intro hpos i hi hin hp
    have hpi := parent_lt hi
    rw [hpc, update_self, update_of_ne (by omega)]
    exact hp ▸ h.off i hi hin (by omega) (by omega)

/-- A value that may stand under the hole is sifted down to its place. -/
theorem siftDown_ordered (habove : Above le a cur e) (hfuel : n ≤ cur + fuel) (hcur : cur < n) :
    Ordered le (siftDown le e n fuel cur a).1 n := by
  induction fuel generalizing cur a with
  | zero => omega
  | succ fuel ih =>
    rw [siftDown]
    split
    · next hstop =>
      refine h.place (fun i hi hin hp => ?_) habove
      rcases hstop with hleaf | hle
      · have := (parent_eq_iff hi).mp hp
        omega
      · exact hpre.trans _ _ _ hle (firstChild_le hpre hi hin hp)
    · next hgo =>
      obtain ⟨hleaf, hlt⟩ := not_or.mp hgo
      have hchild : 2 * cur + 1 < n := Nat.lt_of_not_le hleaf
      obtain ⟨hcn, hpc, hlt'⟩ := firstChild_mem le a hchild
      refine ih (h.moveDown hpre hchild) (fun _ => ?_) (by omega) hcn
      rw [hpc, update_self]
      exact (hpre.total _ _).resolve_left hlt

omit hpre in
/-- The order off the hole does not read the hole. -/
theorem HoleOrder.congr {b : ℕ → α} (hab : ∀ i, i ≠ cur → b i = a i) : HoleOrder le b n cur := by
  constructor
  · intro i hi hin hic hpc
    rw [hab _ hic, hab _ hpc]
    exact h.off i hi hin hic hpc
  · intro hpos i hi hin hp
    have := parent_lt hi
    have := parent_lt hpos
    rw [hab _ (by omega), hab _ (by omega)]
    exact h.grand hpos i hi hin hp

omit hpre h in
theorem siftUp_snd_le (le : α → α → Bool) (e : α) (fuel cur : ℕ) (a : ℕ → α) :
    (siftUp le e fuel cur a).2 ≤ cur := by
  induction fuel generalizing cur a with
  | zero => exact Nat.le_refl _
  | succ fuel ih =>
    rw [siftUp]
    split
    · exact Nat.le_refl _
    · next hgo =>
      have hp := parent_lt (Nat.pos_of_ne_zero (not_or.mp hgo).1)
      exact Nat.le_trans (ih _ _) (by omega)

omit hpre h in
/-- Nothing moved: the value was where it may stay. -/
theorem siftUp_of_snd_eq (h : (siftUp le e (fuel + 1) cur a).2 = cur) :
    (siftUp le e (fuel + 1) cur a).1 = update a cur e ∧ Above le a cur e := by
  rw [siftUp] at h ⊢
  split
  · next hstop => exact ⟨rfl, fun hpos => hstop.resolve_left (Nat.ne_of_gt hpos)⟩
  · next hgo =>
    rw [if_neg hgo] at h
    have hp := parent_lt (Nat.pos_of_ne_zero (not_or.mp hgo).1)
    have hle := siftUp_snd_le le e fuel (parent cur) (update a cur (a (parent cur)))
    omega

/-- Whatever is put into the hole, `relocate` gives a heap. -/
theorem HoleOrder.relocate (hcur : cur < n) : Ordered le (relocate le e n cur a).1 n := by
  rw [SiftHeap.relocate]
  split
  · next hstay =>
    obtain ⟨hput, habove⟩ := siftUp_of_snd_eq hstay
    rw [hput]
    refine siftDown_ordered hpre
      (h.congr fun i hic => update_of_ne hic _ _) (fun hpos => ?_) (by omega) hcur
    rw [update_of_ne (Nat.ne_of_lt (parent_lt hpos))]
    exact habove hpos
  · next hmove =>
    -- the first step moves, and then the carried value may stand above the hole
    rw [siftUp] at hmove ⊢
    split
    · next hstop => exact absurd (by rw [if_pos hstop]) hmove
    · next hgo =>
      obtain ⟨hne, hlt⟩ := not_or.mp hgo
      have hpos : 0 < cur := Nat.pos_of_ne_zero hne
      have hp := parent_lt hpos
      exact siftUp_ordered hpre (h.moveUp hpre hpos hcur)
        (h.below_moveUp hpre hpos hlt) (by omega) hp

end

end Preorder

/-! ## Values -/

/-- The values off the hole. -/
def Vals (a : ℕ → α) (n cur : ℕ) (x : α) : Prop := ∃ i, i < n ∧ i ≠ cur ∧ a i = x

/-- A value moves from `p` into the hole. -/
theorem vals_move {p : ℕ} (hp : p < n) (hcur : cur < n) (hne : p ≠ cur) (x : α) :
    Vals (update a cur (a p)) n p x ↔ Vals a n cur x := by
  constructor
  · rintro ⟨i, hin, hip, rfl⟩
    by_cases hic : i = cur
    · exact ⟨p, hp, hne, by rw [hic, update_self]⟩
    · exact ⟨i, hin, hic, by rw [update_of_ne hic]⟩
  · rintro ⟨i, hin, hic, rfl⟩
    by_cases hip : i = p
    · exact ⟨cur, hcur, Ne.symm hne, by rw [hip, update_self]⟩
    · exact ⟨i, hin, hip, by rw [update_of_ne hic]⟩

section

variable (hcur : cur < n) (x : α)
include hcur x

theorem vals_place : (∃ i, i < n ∧ update a cur e i = x) ↔ x = e ∨ Vals a n cur x := by
  constructor
  · rintro ⟨i, hin, rfl⟩
    by_cases hic : i = cur
    · exact Or.inl (by rw [hic, update_self])
    · exact Or.inr ⟨i, hin, hic, by rw [update_of_ne hic]⟩
  · rintro (rfl | ⟨i, hin, hic, rfl⟩)
    · exact ⟨cur, hcur, update_self ..⟩
    · exact ⟨i, hin, update_of_ne hic ..⟩

theorem siftUp_vals : (∃ i, i < n ∧ (siftUp le e fuel cur a).1 i = x) ↔ x = e ∨ Vals a n cur x := by
  induction fuel generalizing cur a with
  | zero => exact vals_place hcur x
  | succ fuel ih =>
    rw [siftUp]
    split
    · exact vals_place hcur x
    · next hgo =>
      have hp := parent_lt (Nat.pos_of_ne_zero (not_or.mp hgo).1)
      rw [ih (by omega), vals_move (by omega) hcur (by omega)]

theorem siftDown_vals :
    (∃ i, i < n ∧ (siftDown le e n fuel cur a).1 i = x) ↔ x = e ∨ Vals a n cur x := by
  induction fuel generalizing cur a with
  | zero => exact vals_place hcur x
  | succ fuel ih =>
    rw [siftDown]
    split
    · exact vals_place hcur x
    · next hgo =>
      obtain ⟨hcn, -, hlt⟩ := firstChild_mem le a (Nat.lt_of_not_le (not_or.mp hgo).1)
      rw [ih hcn, vals_move hcn hcur (by omega)]

theorem relocate_vals :
    (∃ i, i < n ∧ (relocate le e n cur a).1 i = x) ↔ x = e ∨ Vals a n cur x := by
  rw [relocate]
  split
  · next hstay =>
    rw [(siftUp_of_snd_eq hstay).1, siftDown_vals hcur]
    refine or_congr_right ⟨?_, ?_⟩
    · rintro ⟨i, hin, hic, rfl⟩
      exact ⟨i, hin, hic, (update_of_ne hic ..).symm⟩
    · rintro ⟨i, hin, hic, rfl⟩
      exact ⟨i, hin, hic, update_of_ne hic ..⟩
  · exact siftUp_vals hcur x

end

end Lustre.SiftHeap
