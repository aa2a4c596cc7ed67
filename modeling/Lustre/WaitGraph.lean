import Mathlib.Logic.Relation

/-!
# Wait-for graphs

Who waits for whom is a relation; a path is `Relation.TransGen`. A deadlock check
adds an edge only when its end does not lead back to its start, and this keeps
the graph free of cycles (`Acyclic.insert`). Where everybody waits for at most
one other, a path from `a` can be walked edge by edge (`transGen_of_unique`).
-/

namespace Lustre

open Relation

universe u

variable {α : Type u} {E E' R : α → α → Prop} {a b c x : α}

/-- No cycle. -/
def Acyclic (E : α → α → Prop) : Prop := ∀ a, ¬ TransGen E a a

theorem Acyclic.mono (h : Acyclic E) (himp : ∀ p q, E' p q → E p q) : Acyclic E' :=
  fun a hc => h a (TransGen.mono himp a a hc)

/-- A path with one edge more either does without it or passes through it. -/
theorem transGen_insert (h : TransGen (fun p q => E p q ∨ (p = a ∧ q = b)) x c) :
    TransGen E x c ∨ (ReflTransGen E x a ∧ ReflTransGen E b c) := by
  induction h with
  | single hxy =>
    rcases hxy with hxy | ⟨rfl, rfl⟩
    · exact .inl (.single hxy)
    · exact .inr ⟨.refl, .refl⟩
  | tail _ hyz ih =>
    rcases hyz with hyz | ⟨rfl, rfl⟩
    · rcases ih with hxy | ⟨hxa, hby⟩
      · exact .inl (hxy.tail hyz)
      · exact .inr ⟨hxa, hby.tail hyz⟩
    · rcases ih with hxy | ⟨hxa, -⟩
      · exact .inr ⟨hxy.to_reflTransGen, .refl⟩
      · exact .inr ⟨hxa, .refl⟩

/-- An edge whose end does not lead back to its start closes no cycle. -/
theorem Acyclic.insert (h : Acyclic E) (hne : b ≠ a) (hno : ¬ TransGen E b a) :
    Acyclic fun p q => E p q ∨ (p = a ∧ q = b) := by
  intro x hx
  rcases transGen_insert hx with hx | ⟨hxa, hbx⟩
  · exact h x hx
  · rcases (reflTransGen_iff_eq_or_transGen.mp (hbx.trans hxa)) with heq | hba
    · exact hne heq.symm
    · exact hno hba

/-- A path to `a` up to the first time that it is there. -/
theorem transGen_avoid (h : TransGen E x a) (hne : x ≠ a) :
    TransGen (fun p q => p ≠ a ∧ E p q) x a := by
  induction h using TransGen.head_induction_on with
  | single hxa => exact .single ⟨hne, hxa⟩
  | @head x y hxy _ ih =>
    by_cases hya : y = a
    · exact .single ⟨hne, hya ▸ hxy⟩
    · exact .head ⟨hne, hxy⟩ (ih hya)

/-- On a path to `a` every edge leads to `a` or to a place that has an edge. -/
theorem transGen_onward (h : TransGen E x a)
    (himp : ∀ p q, E p q → (q = a ∨ ∃ z, E q z) → R p q) : TransGen R x a := by
  induction h using TransGen.head_induction_on with
  | single hxa => exact .single (himp _ _ hxa (.inl rfl))
  | head hxy hya ih =>
    obtain ⟨z, hyz, -⟩ := TransGen.head'_iff.mp hya
    exact .head (himp _ _ hxy (.inr ⟨z, hyz⟩)) ih

/-- With one edge from `x` only, a path goes along it. -/
theorem transGen_of_unique (h : TransGen E x c) (huniq : ∀ q, E x q → q = b) :
    c = b ∨ TransGen E b c := by
  obtain ⟨q, hxq, hqc⟩ := TransGen.head'_iff.mp h
  obtain rfl := huniq q hxq
  exact reflTransGen_iff_eq_or_transGen.mp hqc

end Lustre
