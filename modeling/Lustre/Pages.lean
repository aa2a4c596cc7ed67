import Mathlib.Algebra.Order.Group.Nat
import Mathlib.Algebra.Order.BigOperators.Group.List
import Mathlib.Data.Nat.ModEq

/-!
# Items of variable length on pages

Items lie one behind the other in a file that is read in pages of a fixed size. The items
are tiled when none of them crosses the end of a page. Then a page of the file is a
stretch of the items: those before it fill the file up to its start, and those on it fill
it to its end unless they are the last ones (`Tiled.exists_page`).
-/

namespace Lustre.Pages

open List

universe u

variable {β : Type u} (len : β → ℕ) (page : ℕ)

/-- The length of a list of items. -/
def total (l : List β) : ℕ := (l.map len).sum

/-- The items that start in the page at `off`, of items that lie at `pos`. -/
def pageAt (off : ℕ) : ℕ → List β → List β
  | _, [] => []
  | pos, x :: rest =>
    if off ≤ pos ∧ pos < off + page then x :: pageAt off (pos + len x) rest
    else pageAt off (pos + len x) rest

/-- No item of a list that lies at `pos` crosses the end of a page. -/
def Tiled : ℕ → List β → Prop
  | _, [] => True
  | pos, x :: rest => pos % page + len x ≤ page ∧ Tiled (pos + len x) rest

variable {len page}

@[simp] theorem total_nil : total len ([] : List β) = 0 := rfl

@[simp] theorem total_cons (x : β) (l : List β) : total len (x :: l) = len x + total len l :=
  sum_cons

@[simp] theorem total_append (l1 l2 : List β) :
    total len (l1 ++ l2) = total len l1 + total len l2 := by
  rw [total, map_append, sum_append]
  rfl

variable {l : List β}

/-- Items of length `least` or more are long together. -/
theorem mul_length_le_total {least : ℕ} (h : ∀ x ∈ l, least ≤ len x) :
    l.length * least ≤ total len l := by
  have hsum := card_nsmul_le_sum (l.map len) least fun n hn => by
    obtain ⟨x, hx, rfl⟩ := mem_map.mp hn
    exact h x hx
  rw [length_map] at hsum
  exact hsum

/-- Of two beginnings of a list, the one that is not longer does not have more items. -/
theorem length_le_of_total_le {l1 l2 r1 r2 : List β} (hpos : ∀ x ∈ l1, 0 < len x)
    (h : l1 ++ r1 = l2 ++ r2) (hle : total len l1 ≤ total len l2) : l1.length ≤ l2.length := by
  rcases append_eq_append_iff.mp h with ⟨a, rfl, -⟩ | ⟨a, rfl, -⟩
  · rw [length_append]
    exact Nat.le_add_right _ _
  · have ha : a.length * 1 ≤ total len a :=
      mul_length_le_total (forall_mem_append.mp hpos).2
    rw [total_append] at hle
    rw [length_append]
    omega

/-- An item before the start of a page ends before it. -/
theorem add_le_of_lt {pos off n : ℕ} (hoff : page ∣ off) (hlt : pos < off)
    (hn : pos % page + n ≤ page) : pos + n ≤ off := by
  obtain ⟨k, rfl⟩ := hoff
  have hdiv : pos / page < k := Nat.div_lt_of_lt_mul hlt
  calc pos + n = page * (pos / page) + (pos % page + n) := by
        rw [← add_assoc, Nat.div_add_mod]
    _ ≤ page * (pos / page) + page := Nat.add_le_add_left hn _
    _ = page * (pos / page + 1) := (Nat.mul_succ _ _).symm
    _ ≤ page * k := Nat.mul_le_mul_left _ hdiv

variable {off pos : ℕ}

/-- Going back to the start of a page does not pass the start of a page. -/
theorem le_sub_mod (hoff : page ∣ off) (hle : off ≤ pos) : off ≤ pos - pos % page :=
  calc off = off / page * page := (Nat.div_mul_cancel hoff).symm
    _ ≤ pos / page * page := Nat.mul_le_mul_right _ (Nat.div_le_div_right hle)
    _ = pos - pos % page := Nat.div_mul_self_eq_mod_sub_self

theorem tiled_append {l1 l2 : List β} : ∀ {pos : ℕ}, Tiled len page pos (l1 ++ l2) ↔
      Tiled len page pos l1 ∧ Tiled len page (pos + total len l1) l2 := by
  induction l1 with
  | nil =>
    exact ⟨fun h => ⟨trivial, h⟩, fun h => h.2⟩
  | cons x l1 ih =>
    intro pos
    rw [cons_append, Tiled, Tiled, ih, total_cons, and_assoc, add_assoc]

theorem Tiled.len_le {pos : ℕ} (h : Tiled len page pos l) : ∀ x ∈ l, len x ≤ page := by
  induction l generalizing pos with
  | nil => exact fun x hx => absurd hx not_mem_nil
  | cons y l ih =>
    exact forall_mem_cons.mpr ⟨(Nat.le_add_left _ _).trans h.1, ih h.2⟩

/-- Nothing starts in a page behind the items' start. -/
theorem pageAt_of_le (l : List β) (h : off + page ≤ pos) : pageAt len page off pos l = [] := by
  induction l generalizing pos with
  | nil => rfl
  | cons x l ih =>
    rw [pageAt, if_neg (by omega)]
    exact ih (h.trans (Nat.le_add_right _ _))

/-- The items of a page, read from inside it. -/
theorem Tiled.exists_rest (h : Tiled len page pos l)
    (hoff : page ∣ off) (hle : off ≤ pos) (hpos : pos ≤ off + page) :
    ∃ on after, l = on ++ after ∧ pageAt len page off pos l = on ∧
      pos + total len on ≤ off + page ∧ (after = [] ∨ pos + total len on = off + page) := by
  induction l generalizing pos with
  | nil => exact ⟨[], [], rfl, rfl, hpos, .inl rfl⟩
  | cons x l ih =>
    rcases Nat.lt_or_eq_of_le hpos with hlt | heq
    · have hend := add_le_of_lt (Nat.dvd_add hoff (Nat.dvd_refl page)) hlt h.1
      obtain ⟨on, after, hl, hat, htotal, hafter⟩ :=
        ih h.2 (hle.trans (Nat.le_add_right _ _)) hend
      refine ⟨x :: on, after, by rw [hl, cons_append], ?_, ?_, ?_⟩
      · rw [pageAt, if_pos ⟨hle, hlt⟩, hat]
      · rw [total_cons, ← add_assoc]
        exact htotal
      · rw [total_cons, ← add_assoc]
        exact hafter
    · exact ⟨[], x :: l, rfl, pageAt_of_le _ heq.ge, hpos, .inr heq⟩

theorem Tiled.exists_page (hpage : 0 < page)
    (h : Tiled len page pos l) (hoff : page ∣ off) (hle : pos ≤ off) (hlt : off < pos + total len l) :
    ∃ before on after, l = before ++ on ++ after ∧ pos + total len before = off ∧
      pageAt len page off pos l = on ∧ on ≠ [] ∧ total len on ≤ page ∧
      (after = [] ∨ total len on = page) := by
  induction l generalizing pos with
  | nil => exact absurd (hlt.trans_le (add_zero pos).le) hle.not_gt
  | cons x l ih =>
    rcases Nat.lt_or_eq_of_le hle with hbefore | rfl
    · have hend := add_le_of_lt hoff hbefore h.1
      have hlt' : off < pos + len x + total len l := by
        rw [total_cons] at hlt
        omega
      obtain ⟨before, on, after, hl, hstart, hat, hrest⟩ := ih h.2 hend hlt'
      refine ⟨x :: before, on, after, by rw [hl]; rfl, ?_, ?_, hrest⟩
      · rw [total_cons, ← add_assoc]
        exact hstart
      · rw [pageAt, if_neg (by omega), hat]
    · obtain ⟨on, after, hl, hat, htotal, hafter⟩ :=
        h.exists_rest hoff le_rfl (Nat.le_add_right _ _)
      refine ⟨[], on, after, hl, rfl, hat, ?_, by omega, hafter.imp_right (by omega)⟩
      rw [← hat, pageAt, if_pos ⟨le_rfl, Nat.lt_add_of_pos_right hpage⟩]
      exact cons_ne_nil _ _

end Lustre.Pages
