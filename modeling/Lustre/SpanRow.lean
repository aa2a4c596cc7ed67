import Mathlib.Algebra.Order.Ring.Nat
import Mathlib.Data.List.Nodup

/-!
# Spans in a row

Items that each cover the places from `lo` to `hi`, listed from left to right with no place
covered twice. `SpanRow.put` is the rule for changing one item (and dropping some of the others):
what has to be shown is only that the new span stays clear of what stands left and right of it.
A weight summed over the row is split at an item by `sum_split`.
-/

namespace Lustre

open List

universe u v

variable {ι : Type u} {α : Type v} [LinearOrder α] {lo hi lo' hi' : ι → α} {l pre post : List ι}
  {a b e : ι}

/-- Items from left to right, each not empty, no place covered twice. -/
structure SpanRow (lo hi : ι → α) (l : List ι) : Prop where
  le : ∀ a ∈ l, lo a ≤ hi a
  order : l.Pairwise fun a b => hi a < lo b

namespace SpanRow

theorem nil : SpanRow lo hi [] := ⟨forall_mem_nil _, .nil⟩

theorem sublist {l' : List ι} (h : SpanRow lo hi l) (hl : l'.Sublist l) : SpanRow lo hi l' :=
  ⟨fun a ha => h.le a (hl.subset ha), h.order.sublist hl⟩

theorem nodup (h : SpanRow lo hi l) : l.Nodup := by
  refine Pairwise.imp_of_mem ?_ h.order
  intro a b ha _ hab heq
  subst heq
  exact absurd (h.le a ha) (not_le.mpr hab)

/-- Two items of a row cover different places. -/
theorem apart (h : SpanRow lo hi l) (ha : a ∈ l) (hb : b ∈ l) (hne : a ≠ b) :
    hi a < lo b ∨ hi b < lo a := by
  obtain ⟨pre, post, rfl⟩ := append_of_mem ha
  have hparts := pairwise_append.mp h.order
  rcases mem_append.mp hb with hpre | hpost
  · exact .inr (hparts.2.2 b hpre a mem_cons_self)
  · have htail := (mem_cons.mp hpost).resolve_left (Ne.symm hne)
    exact .inl (rel_of_pairwise_cons hparts.2.1 htail)

section

variable (h : SpanRow lo hi (pre ++ e :: post))
include h

/-- What stands before an item lies left of it. -/
theorem left (ha : a ∈ pre) : hi a < lo e :=
  (pairwise_append.mp h.order).2.2 a ha e mem_cons_self

/-- What stands after an item lies right of it. -/
theorem right (hb : b ∈ post) : hi e < lo b :=
  rel_of_pairwise_cons (pairwise_append.mp h.order).2.1 hb

theorem notMem_left : e ∉ pre := by
  intro he
  exact absurd (h.le e (by simp)) (not_le.mpr (h.left he))

theorem notMem_right : e ∉ post := by
  intro he
  exact absurd (h.le e (by simp)) (not_le.mpr (h.right he))

end

/-- Spans that agree on the items of the row. -/
theorem congr (h : SpanRow lo hi l) (hlo : ∀ a ∈ l, lo' a = lo a) (hhi : ∀ a ∈ l, hi' a = hi a) :
    SpanRow lo' hi' l := by
  refine ⟨fun a ha => ?_, Pairwise.imp_of_mem ?_ h.order⟩
  · rw [hlo a ha, hhi a ha]
    exact h.le a ha
  · intro a b ha hb hab
    rw [hhi a ha, hlo b hb]
    exact hab

/-- A span is changed, and what lies left and right of it still does. -/
theorem change (h : SpanRow lo hi l) (hle : lo' e ≤ hi' e)
    (hsame : ∀ a ∈ l, a ≠ e → lo' a = lo a ∧ hi' a = hi a)
    (hside : ∀ a ∈ l, (hi a < lo e → hi a < lo' e) ∧ (hi e < lo a → hi' e < lo a)) :
    SpanRow lo' hi' l := by
  refine ⟨fun a ha => ?_, Pairwise.imp_of_mem ?_ h.order⟩
  · by_cases hae : a = e
    · rwa [hae]
    · rw [(hsame a ha hae).1, (hsame a ha hae).2]
      exact h.le a ha
  · intro a b ha hb hab
    by_cases hae : a = e
    · subst hae
      have hba : b ≠ a := fun heq => absurd (h.le a ha) (not_le.mpr (heq ▸ hab))
      rw [(hsame b hb hba).1]
      exact (hside b hb).2 hab
    · rw [(hsame a ha hae).2]
      by_cases hbe : b = e
      · subst hbe
        exact (hside a ha).1 hab
      · rwa [(hsame b hb hbe).1]

/-- An item put into a row between what lies left of it and what lies right of it. -/
theorem put (h : SpanRow lo hi (pre ++ post)) (hle : lo e ≤ hi e) (hleft : ∀ a ∈ pre, hi a < lo e)
    (hright : ∀ b ∈ post, hi e < lo b) : SpanRow lo hi (pre ++ e :: post) := by
  have hparts := pairwise_append.mp h.order
  obtain ⟨hpre, hpost⟩ := forall_mem_append.mp h.le
  refine ⟨forall_mem_append.mpr ⟨hpre, forall_mem_cons.mpr ⟨hle, hpost⟩⟩,
    pairwise_append.mpr ⟨hparts.1, pairwise_cons.mpr ⟨hright, hparts.2.1⟩, ?_⟩⟩
  exact fun a ha => forall_mem_cons.mpr ⟨hleft a ha, hparts.2.2 a ha⟩

end SpanRow

/-! ## Weights -/

section

variable {w w' : ι → ℕ}

/-- The weight of a row splits at an item. -/
theorem sum_split (w : ι → ℕ) (pre post : List ι) (e : ι) :
    ((pre ++ e :: post).map w).sum = w e + ((pre ++ post).map w).sum := by
  simp only [map_append, map_cons, sum_append, sum_cons]
  omega

theorem sum_congr_mem (h : ∀ a ∈ l, w' a = w a) : (l.map w').sum = (l.map w).sum := by
  rw [map_congr_left h]

end

end Lustre
