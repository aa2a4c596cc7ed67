import Lustre.Zipper

/-!
# Red-black trees with a hole

The labels have a colour. `Balanced t n` says that `t` has no red node with a red
child and `n` black nodes on every path; `CtxBalanced ctx n` says that the frames
fit around a black tree of black height `n`, and `HoleRed ctx` that a red one fits
too (`redBlack_fill`).
-/

namespace BinaryTree

universe u

/-- The colour of a node. -/
inductive RbColor where
  | red
  | black
  deriving DecidableEq

variable {α : Type u} (color : α → RbColor)

/-- The root is black, or there is none. -/
def IsBlack : BinaryTree α → Prop
  | nil => True
  | node a _ _ => color a = .black

instance : (t : BinaryTree α) → Decidable (IsBlack color t)
  | nil => isTrue trivial
  | node a _ _ => inferInstanceAs (Decidable (color a = .black))

/-- No red node has a red child, and every path has `n` black nodes. -/
def Balanced : BinaryTree α → ℕ → Prop
  | nil, n => n = 0
  | node a l r, n =>
    (color a = .red ∧ IsBlack color l ∧ IsBlack color r ∧ Balanced l n ∧ Balanced r n) ∨
      (color a = .black ∧ ∃ m, n = m + 1 ∧ Balanced l m ∧ Balanced r m)

/-- A red-black tree. -/
def RedBlack (t : BinaryTree α) : Prop := IsBlack color t ∧ ∃ n, Balanced color t n

/-- The hole may be filled with a red tree. -/
def HoleRed : List (Frame α) → Prop
  | [] => False
  | f :: _ => color f.value = .black

/-- The frames fit around a black tree of black height `n`. -/
def CtxBalanced : List (Frame α) → ℕ → Prop
  | [], _ => True
  | f :: ctx, n => Balanced color f.sibling n ∧
    ((color f.value = .black ∧ CtxBalanced ctx (n + 1)) ∨
      (color f.value = .red ∧ IsBlack color f.sibling ∧ HoleRed color ctx ∧ CtxBalanced ctx n))

variable {ctx : List (Frame α)}

theorem ctxBalanced_cons {a : α} {d : Side} {u : BinaryTree α} {n : ℕ} :
    CtxBalanced color (⟨a, d, u⟩ :: ctx) n ↔ Balanced color u n ∧
      ((color a = .black ∧ CtxBalanced color ctx (n + 1)) ∨
        (color a = .red ∧ IsBlack color u ∧ HoleRed color ctx ∧ CtxBalanced color ctx n)) :=
  Iff.rfl

section Join

variable {color} {a : α} {d : Side} {t u : BinaryTree α} {n : ℕ}

theorem isBlack_join : IsBlack color (join a d t u) ↔ color a = .black := by
  cases d <;> exact Iff.rfl

theorem balanced_red (ha : color a = .red) : Balanced color (join a d t u) n ↔
    IsBlack color t ∧ IsBlack color u ∧ Balanced color t n ∧ Balanced color u n := by
  cases d with
  | left => simp only [join, Balanced, ha, true_and, reduceCtorEq, false_and, or_false]
  | right =>
    simp only [join, Balanced, ha, true_and, reduceCtorEq, false_and, or_false]
    constructor
    · rintro ⟨h1, h2, h3, h4⟩
      exact ⟨h2, h1, h4, h3⟩
    · rintro ⟨h1, h2, h3, h4⟩
      exact ⟨h2, h1, h4, h3⟩

theorem balanced_black (ha : color a = .black) : Balanced color (join a d t u) n ↔
    ∃ m, n = m + 1 ∧ Balanced color t m ∧ Balanced color u m := by
  cases d with
  | left => simp only [join, Balanced, ha, true_and, reduceCtorEq, false_and, false_or]
  | right =>
    simp only [join, Balanced, ha, true_and, reduceCtorEq, false_and, false_or]
    constructor
    · rintro ⟨m, hm, h1, h2⟩
      exact ⟨m, hm, h2, h1⟩
    · rintro ⟨m, hm, h1, h2⟩
      exact ⟨m, hm, h2, h1⟩

theorem balanced_black_succ (ha : color a = .black) : Balanced color (join a d t u) (n + 1) ↔
    Balanced color t n ∧ Balanced color u n := by
  rw [balanced_black ha]
  constructor
  · rintro ⟨m, hm, h⟩
    exact Nat.succ.inj hm ▸ h
  · exact fun h => ⟨n, rfl, h⟩

theorem RbColor.cases (c : RbColor) : c = .red ∨ c = .black := by cases c <;> simp

/-- A tree with a black node on every path is not empty. -/
theorem Balanced.ne_nil (h : Balanced color t (n + 1)) : t ≠ nil := by
  rintro rfl
  cases h

/-- A red tree painted black is higher by one. -/
theorem Balanced.paint (a' : α) (h : Balanced color (join a d t u) n) (ha : color a = .red)
    (ha' : color a' = .black) : Balanced color (join a' d t u) (n + 1) := by
  obtain ⟨-, -, ht, hu⟩ := (balanced_red ha).mp h
  exact (balanced_black_succ ha').mpr ⟨ht, hu⟩

end Join

section Fill

variable {color}

theorem redBlack_fill {t : BinaryTree α} :
    RedBlack color (fill ctx t) ↔ ∃ n, CtxBalanced color ctx n ∧ Balanced color t n ∧
      (IsBlack color t ∨ HoleRed color ctx) := by
  induction ctx generalizing t with
  | nil =>
    simp only [fill, RedBlack, CtxBalanced, HoleRed, true_and, or_false]
    constructor
    · rintro ⟨h, n, hn⟩
      exact ⟨n, hn, h⟩
    · rintro ⟨n, hn, h⟩
      exact ⟨h, n, hn⟩
  | cons f ctx ih =>
    rw [fill, ih]
    constructor
    · rintro ⟨n, hctx, hplug, hhole⟩
      rcases RbColor.cases (color f.value) with hc | hc
      · obtain ⟨hbt, hbs, ht, hs⟩ := (balanced_red hc).mp hplug
        refine ⟨n, ⟨hs, .inr ⟨hc, hbs, hhole.resolve_left fun h => ?_, hctx⟩⟩, ht, .inl hbt⟩
        rw [Frame.plug, isBlack_join, hc] at h
        cases h
      · obtain ⟨m, rfl, ht, hs⟩ := (balanced_black hc).mp hplug
        exact ⟨m, ⟨hs, .inl ⟨hc, hctx⟩⟩, ht, .inr hc⟩
    · rintro ⟨n, ⟨hs, hctx⟩, ht, hhole⟩
      rcases hctx with ⟨hc, hctx⟩ | ⟨hc, hbs, hhole', hctx⟩
      · exact ⟨n + 1, hctx, (balanced_black_succ hc).mpr ⟨ht, hs⟩, .inl (isBlack_join.mpr hc)⟩
      · have hbt : IsBlack color t := hhole.resolve_right fun h => by
          rw [HoleRed, hc] at h
          cases h
        exact ⟨n, hctx, (balanced_red hc).mpr ⟨hbt, hbs, ht, hs⟩, .inr hhole'⟩

/-- Frames that agree in the colours of their labels fit around the same trees. -/
theorem Alike.ctxBalanced {c c' : List (Frame α)} (h : Alike color c c') :
    (HoleRed color c ↔ HoleRed color c') ∧ ∀ n, CtxBalanced color c n ↔ CtxBalanced color c' n := by
  induction h with
  | nil => exact ⟨Iff.rfl, fun _ => Iff.rfl⟩
  | cons hv _ ih =>
    refine ⟨?_, fun n => ?_⟩
    · rw [HoleRed, HoleRed, hv]
    · simp only [CtxBalanced, hv, ih.1, ih.2]

end Fill

end BinaryTree
