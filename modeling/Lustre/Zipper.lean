import Mathlib.Data.Tree.Basic
import Mathlib.Data.List.Basic

open List

/-!
# Binary trees with a hole

A pointer algorithm on a tree works at one place and moves up and down. The place
is a subtree and the list of frames above it, innermost first (`Frame`, `fill`).
Mirror images are one case: `join a d t u` has `t` on the side `d` and `u` on the
other.

Two annotations are developed with the trees: the inorder list, and a label `m`
that stores the maximum of a measure `high` over the subtree (`MaxOk`).
-/

namespace BinaryTree

universe u v w

variable {α : Type u}

/-- A side of a node. -/
inductive Side where
  | left
  | right
  deriving DecidableEq

/-- The other side. -/
def Side.opp : Side → Side
  | .left => .right
  | .right => .left

@[simp] theorem Side.opp_opp (d : Side) : d.opp.opp = d := by cases d <;> rfl

theorem Side.opp_ne (d : Side) : d.opp ≠ d := by cases d <;> decide

theorem Side.eq_or_eq_opp (d e : Side) : e = d ∨ e = d.opp := by
  cases d <;> cases e <;> first | exact .inl rfl | exact .inr rfl

/-- A node with `t` on the side `d` and `u` on the other. -/
def join (a : α) (d : Side) (t u : BinaryTree α) : BinaryTree α :=
  match d with
  | .left => node a t u
  | .right => node a u t

theorem join_opp (a : α) (d : Side) (t u : BinaryTree α) : join a d.opp t u = join a d u t := by
  cases d <;> rfl

/-- A join can be written from either side. -/
theorem exists_join_side (a : α) (d e : Side) (t u : BinaryTree α) :
    ∃ t' u', join a d t u = join a e t' u' := by
  rcases d.eq_or_eq_opp e with rfl | rfl
  · exact ⟨t, u, rfl⟩
  · exact ⟨u, t, (join_opp a d u t).symm⟩

variable {t : BinaryTree α}

/-- Every tree that is not empty is a join on either side. -/
theorem exists_join (h : t ≠ nil) (d : Side) : ∃ a u v, t = join a d u v := by
  cases t with
  | nil => exact absurd rfl h
  | node a l r =>
    cases d with
    | left => exact ⟨a, l, r, rfl⟩
    | right => exact ⟨a, r, l, rfl⟩

variable {t u : BinaryTree α} {d : Side}

theorem join_ne_nil {a : α} : join a d t u ≠ nil := by
  cases d <;> exact nofun

/-- A node above the hole: its label, the side of the hole, the tree on the other
side. -/
structure Frame (α : Type u) where
  value : α
  /-- where the hole is -/
  side : Side
  /-- the other subtree -/
  sibling : BinaryTree α

/-- Put a tree into a frame. -/
def Frame.plug (f : Frame α) (t : BinaryTree α) : BinaryTree α :=
  join f.value f.side t f.sibling

/-- Put a tree into the frames, innermost first. -/
@[simp] def fill : List (Frame α) → BinaryTree α → BinaryTree α
  | [], t => t
  | f :: ctx, t => fill ctx (f.plug t)

theorem fill_append (c1 c2 : List (Frame α)) (t : BinaryTree α) :
    fill (c1 ++ c2) t = fill c2 (fill c1 t) := by
  induction c1 generalizing t with
  | nil => rfl
  | cons f c1 ih => exact ih (f.plug t)

theorem fill_ne_nil (ctx : List (Frame α)) (h : t ≠ nil) : fill ctx t ≠ nil := by
  induction ctx generalizing t with
  | nil => exact h
  | cons f ctx ih => exact ih join_ne_nil

/-! ## The inorder list -/

/-- The labels from left to right. -/
@[simp] def inorder : BinaryTree α → List α
  | nil => []
  | node a l r => l.inorder ++ a :: r.inorder

/-- The labels before the hole. -/
@[simp] def before : List (Frame α) → List α
  | [] => []
  | f :: ctx => before ctx ++ match f.side with
    | .left => []
    | .right => f.sibling.inorder ++ [f.value]

/-- The labels behind the hole. -/
@[simp] def behind : List (Frame α) → List α
  | [] => []
  | f :: ctx => (match f.side with
    | .left => f.value :: f.sibling.inorder
    | .right => []) ++ behind ctx

theorem forall_mem_node {a : α} {l r : BinaryTree α} {P : α → Prop} :
    (∀ b ∈ (node a l r).inorder, P b) ↔
      (∀ b ∈ l.inorder, P b) ∧ P a ∧ ∀ b ∈ r.inorder, P b := by
  rw [inorder, forall_mem_append, forall_mem_cons]

theorem length_inorder_join (a : α) (d : Side) (t u : BinaryTree α) :
    (join a d t u).inorder.length = t.inorder.length + u.inorder.length + 1 := by
  cases d <;> simp [join] <;> omega

theorem before_append (c1 c2 : List (Frame α)) : before (c1 ++ c2) = before c2 ++ before c1 := by
  induction c1 with
  | nil => simp
  | cons f c1 ih => simp [ih]

theorem behind_append (c1 c2 : List (Frame α)) : behind (c1 ++ c2) = behind c1 ++ behind c2 := by
  induction c1 with
  | nil => simp
  | cons f c1 ih => simp [ih]

variable {ctx : List (Frame α)}

/-- Nothing is before a hole that is to the left of everything. -/
theorem before_of_left (h : ∀ f ∈ ctx, f.side = .left) : before ctx = [] := by
  induction ctx with
  | nil => rfl
  | cons f ctx ih =>
    rw [before, ih (forall_mem_cons.mp h).2, h f (mem_cons_self)]
    rfl

theorem inorder_fill (ctx : List (Frame α)) (t : BinaryTree α) :
    (fill ctx t).inorder = before ctx ++ t.inorder ++ behind ctx := by
  induction ctx generalizing t with
  | nil => simp
  | cons f ctx ih =>
    rw [fill, ih]
    obtain ⟨a, d, u⟩ := f
    cases d <;> simp [Frame.plug, join]

section Map

variable {β : Type v} {e : α → β} {a b x y x' y' : α} {d : Side} {t u v : BinaryTree α}

/-- The list of a filled context, read through `e`, depends on the hole only through
the list of the hole. -/
theorem map_inorder_fill (ctx : List (Frame α)) (h : t.inorder.map e = u.inorder.map e) :
    (fill ctx t).inorder.map e = (fill ctx u).inorder.map e := by
  simp only [inorder_fill, map_append, h]

end Map

/-- A label of the list is the root of a subtree. -/
theorem exists_fill {a : α} {l1 l2 : List α} (h : t.inorder = l1 ++ a :: l2) :
    ∃ ctx l r, t = fill ctx (node a l r) ∧ l1 = before ctx ++ l.inorder ∧
      l2 = r.inorder ++ behind ctx := by
  induction t generalizing l1 l2 with
  | nil => exact absurd h (by simp)
  | node b l r ihl ihr =>
    rw [inorder, append_eq_append_iff] at h
    rcases h with ⟨m, rfl, hm⟩ | ⟨m, hl, hm⟩
    · -- the root, or to the right of it
      rcases cons_eq_append_iff.mp hm with ⟨rfl, hm⟩ | ⟨m, rfl, hr⟩
      · obtain ⟨rfl, rfl⟩ := cons.inj hm
        exact ⟨[], l, r, rfl, by simp, by simp⟩
      · obtain ⟨ctx, l', r', rfl, rfl, rfl⟩ := ihr hr
        exact ⟨ctx ++ [⟨b, .right, l⟩], l', r', by rw [fill_append]; rfl, by simp [before_append],
          by simp [behind_append]⟩
    · rcases cons_eq_append_iff.mp hm with ⟨rfl, hm⟩ | ⟨m, rfl, rfl⟩
      · obtain ⟨rfl, rfl⟩ := cons.inj hm
        exact ⟨[], l, r, rfl, by simp [hl], by simp⟩
      · obtain ⟨ctx, l', r', rfl, rfl, rfl⟩ := ihl hl
        exact ⟨ctx ++ [⟨b, .left, r⟩], l', r', by rw [fill_append]; rfl, by simp [before_append],
          by simp [behind_append]⟩

/-- The labels from the root down, left before right. -/
@[simp] def preorder : BinaryTree α → List α
  | nil => []
  | node a l r => a :: (l.preorder ++ r.preorder)

theorem preorder_perm (t : BinaryTree α) : t.preorder.Perm t.inorder := by
  induction t with
  | nil => exact .nil
  | node a l r ihl ihr => exact ((ihl.append ihr).cons a).trans perm_middle.symm

/-- There are no more frames than labels. -/
theorem length_le_inorder (ctx : List (Frame α)) (t : BinaryTree α) :
    ctx.length + t.inorder.length ≤ (fill ctx t).inorder.length := by
  induction ctx generalizing t with
  | nil => exact Nat.le_of_eq (Nat.zero_add _)
  | cons f ctx ih =>
    refine Nat.le_trans ?_ (ih (f.plug t))
    obtain ⟨a, d, u⟩ := f
    cases d <;> simp [Frame.plug, join] <;> omega

/-! ## Walking from one side to the other -/

/-- The labels from the side `d` to the other. -/
def fromSide (d : Side) (t : BinaryTree α) : List α :=
  match d with
  | .left => t.inorder
  | .right => t.inorder.reverse

/-- What a walk from the side `d` finds after the hole. -/
def remaining (d : Side) : List (Frame α) → List α
  | [] => []
  | f :: ctx => if f.side = d then f.value :: (fromSide d f.sibling ++ remaining d ctx)
    else remaining d ctx

@[simp] theorem fromSide_nil (d : Side) : fromSide d (nil : BinaryTree α) = [] := by cases d <;> rfl

theorem fromSide_join (a : α) (d : Side) (t u : BinaryTree α) :
    fromSide d (join a d t u) = fromSide d t ++ a :: fromSide d u := by
  cases d <;> simp [fromSide, join]

theorem remaining_cons_opp (a : α) (d : Side) (u : BinaryTree α) (ctx : List (Frame α)) :
    remaining d (⟨a, d.opp, u⟩ :: ctx) = remaining d ctx := if_neg d.opp_ne

theorem remaining_cons_self (a : α) (d : Side) (u : BinaryTree α) (ctx : List (Frame α)) :
    remaining d (⟨a, d, u⟩ :: ctx) = a :: (fromSide d u ++ remaining d ctx) := if_pos rfl

theorem remaining_append (d : Side) (c1 c2 : List (Frame α)) :
    remaining d (c1 ++ c2) = remaining d c1 ++ remaining d c2 := by
  induction c1 with
  | nil => rfl
  | cons f c1 ih =>
    rw [cons_append, remaining, remaining, ih]
    split
    · rw [cons_append, append_assoc]
    · rfl

/-- If the hole is on the side `d` of every frame, the walk begins in it. -/
theorem fromSide_fill {path : List (Frame α)} (h : ∀ f ∈ path, f.side = d)
    (t : BinaryTree α) : fromSide d (fill path t) = fromSide d t ++ remaining d path := by
  induction path generalizing t with
  | nil => exact (append_nil _).symm
  | cons f path ih =>
    obtain ⟨a, e, u⟩ := f
    obtain rfl : e = d := h _ (mem_cons_self)
    rw [fill, ih (forall_mem_cons.mp h).2, remaining_cons_self, Frame.plug,
      fromSide_join, append_assoc, cons_append]

/-! ## Relabelling the frames -/

/-- Frames that differ only in their labels, and there only in what `g` forgets. -/
inductive Alike {β : Type v} (g : α → β) : List (Frame α) → List (Frame α) → Prop where
  /-- no frame -/
  | nil : Alike g [] []
  /-- one frame more -/
  | cons {a b : α} {d : Side} {t : BinaryTree α} {c c' : List (Frame α)} : g a = g b →
      Alike g c c' → Alike g (⟨a, d, t⟩ :: c) (⟨b, d, t⟩ :: c')

variable {β : Type v}

namespace Alike

theorem refl (g : α → β) (c : List (Frame α)) : Alike g c c := by
  induction c with
  | nil => exact .nil
  | cons f c ih => exact .cons rfl ih

variable {g : α → β} {c c' : List (Frame α)}

theorem mono {γ : Type w} {e : α → γ}
    (hg : ∀ a b, g a = g b → e a = e b) (h : Alike g c c') : Alike e c c' := by
  induction h with
  | nil => exact .nil
  | cons hv _ ih => exact .cons (hg _ _ hv) ih

theorem trans {c1 c2 c3 : List (Frame α)} (h1 : Alike g c1 c2)
    (h2 : Alike g c2 c3) : Alike g c1 c3 := by
  induction h1 generalizing c3 with
  | nil => exact h2
  | cons hv _ ih =>
    cases h2 with
    | cons hv' h2 => exact .cons (hv.trans hv') (ih h2)

theorem append {c1 c1' c2 c2' : List (Frame α)} (h1 : Alike g c1 c1')
    (h2 : Alike g c2 c2') : Alike g (c1 ++ c2) (c1' ++ c2') := by
  induction h1 with
  | nil => exact h2
  | cons hv _ ih => exact .cons hv ih

theorem length_eq (h : Alike g c c') : c.length = c'.length := by
  induction h with
  | nil => rfl
  | cons _ _ ih => exact congrArg (· + 1) ih

section

variable {γ : Type w} {e : α → γ} (hg : ∀ a b, g a = g b → e a = e b) (h : Alike g c c')
include hg h

/-- What is read of the labels through `g` is the same around the hole. -/
theorem inorder : (before c).map e = (before c').map e ∧ (behind c).map e = (behind c').map e := by
  induction h with
  | nil => exact ⟨rfl, rfl⟩
  | @cons a b d t _ _ hv _ ih =>
    obtain ⟨ihb, ihh⟩ := ih
    cases d <;> simp [hg a b hv, ihb, ihh]

theorem map_inorder_fill (t : BinaryTree α) :
    (fill c t).inorder.map e = (fill c' t).inorder.map e := by
  obtain ⟨hfst, hsnd⟩ := h.inorder hg
  simp only [inorder_fill, map_append, hfst, hsnd]

end

end Alike

/-! ## Maxima over subtrees -/

section Max

variable (high m : α → ℕ)

/-- The stored maximum of a tree, 0 for the empty one. -/
def topMax : BinaryTree α → ℕ
  | nil => 0
  | node a _ _ => m a

/-- Every label stores the maximum over its subtree. -/
def MaxOk : BinaryTree α → Prop
  | nil => True
  | node a l r => m a = max (high a) (max (topMax m l) (topMax m r)) ∧ MaxOk l ∧ MaxOk r

/-- The frames store the right maxima for a hole with the maximum `k`. -/
def CtxMax : List (Frame α) → ℕ → Prop
  | [], _ => True
  | f :: ctx, k => m f.value = max (high f.value) (max k (topMax m f.sibling)) ∧
      MaxOk high m f.sibling ∧ CtxMax ctx (m f.value)

variable {high m}

@[simp] theorem topMax_nil : topMax m (nil : BinaryTree α) = 0 := rfl

@[simp] theorem topMax_join (a : α) (d : Side) (t u : BinaryTree α) :
    topMax m (join a d t u) = m a := by cases d <;> rfl

theorem maxOk_join {a : α} : MaxOk high m (join a d t u) ↔
    m a = max (high a) (max (topMax m t) (topMax m u)) ∧ MaxOk high m t ∧ MaxOk high m u := by
  cases d with
  | left => exact Iff.rfl
  | right =>
    rw [Nat.max_comm (topMax m t), and_comm (a := MaxOk high m t)]
    exact Iff.rfl

theorem maxOk_fill :
    MaxOk high m (fill ctx t) ↔ CtxMax high m ctx (topMax m t) ∧ MaxOk high m t := by
  induction ctx generalizing t with
  | nil => exact (true_and _).symm ▸ Iff.rfl
  | cons f ctx ih =>
    rw [fill, ih, Frame.plug, topMax_join, maxOk_join, CtxMax]
    constructor
    · rintro ⟨hctx, hf, ht, hs⟩
      exact ⟨⟨hf, hs, hctx⟩, ht⟩
    · rintro ⟨⟨hf, hs, hctx⟩, ht⟩
      exact ⟨hctx, hf, ht, hs⟩

theorem CtxMax.le_fill (h : CtxMax high m ctx (topMax m t)) :
    topMax m t ≤ topMax m (fill ctx t) := by
  induction ctx generalizing t with
  | nil => exact Nat.le_refl _
  | cons f ctx ih =>
    obtain ⟨hf, -, hctx⟩ := h
    have htop : topMax m (f.plug t) = m f.value := topMax_join ..
    have := ih (htop ▸ hctx)
    rw [fill]
    omega

/-- One step down, with every maximum on the way raised to `k`. -/
theorem CtxMax.raise {a : α} (a' : α) {k : ℕ}
    (ha : MaxOk high m (join a d t u)) (hctx : CtxMax high m ctx (max (m a) k))
    (hhigh : high a' = high a) (hm : m a' = max (m a) k) :
    CtxMax high m (⟨a', d, u⟩ :: ctx) (max (topMax m t) k) := by
  obtain ⟨hmax, -, hu⟩ := maxOk_join.mp ha
  refine ⟨?_, hu, hm ▸ hctx⟩
  show m a' = max (high a') (max (max (topMax m t) k) (topMax m u))
  omega

/-- A rotation keeps the maxima, and the one at its root. -/
theorem MaxOk.rotate {x y x' y' : α} {t u v : BinaryTree α}
    (h : MaxOk high m (join x d t (join y d u v))) (hx : high x' = high x) (hy : high y' = high y)
    (hmx : m x' = max (high x) (max (topMax m t) (topMax m u)))
    (hmy : m y' = m x) : MaxOk high m (join y' d (join x' d t u) v) := by
  rw [maxOk_join, maxOk_join, topMax_join] at h
  obtain ⟨hxm, ht, hym, hu, hv⟩ := h
  rw [maxOk_join, maxOk_join, topMax_join]
  refine ⟨?_, ⟨?_, ht, hu⟩, hv⟩ <;> omega

/-- What is stored bounds the measure, and is the measure of a label. -/
theorem MaxOk.topMax (h : MaxOk high m t) : (∀ a ∈ t.inorder, high a ≤ BinaryTree.topMax m t) ∧
      (t ≠ nil → ∃ a ∈ t.inorder, high a = BinaryTree.topMax m t) := by
  induction t with
  | nil => exact ⟨nofun, fun h => absurd rfl h⟩
  | node a l r ihl ihr =>
    obtain ⟨hm, hl, hr⟩ := h
    obtain ⟨hlb, hla⟩ := ihl hl
    obtain ⟨hrb, hra⟩ := ihr hr
    have htop : BinaryTree.topMax m (node a l r) = m a := rfl
    rw [htop, hm]
    constructor
    · refine forall_mem_node.mpr ⟨fun b hb => ?_, by omega, fun b hb => ?_⟩
      · have := hlb b hb
        omega
      · have := hrb b hb
        omega
    · intro _
      simp only [inorder, mem_append, mem_cons]
      rcases Nat.le_total (max (BinaryTree.topMax m l) (BinaryTree.topMax m r)) (high a) with hle | hle
      · exact ⟨a, .inr (.inl rfl), by omega⟩
      · rcases Nat.le_total (BinaryTree.topMax m r) (BinaryTree.topMax m l) with hlr | hlr
        · cases l with
          | nil => exact ⟨a, .inr (.inl rfl), by simp at hle hlr ⊢; omega⟩
          | node b l1 l2 =>
            obtain ⟨x, hx, hxh⟩ := hla nofun
            exact ⟨x, .inl hx, by omega⟩
        · cases r with
          | nil => exact ⟨a, .inr (.inl rfl), by simp at hle hlr ⊢; omega⟩
          | node b r1 r2 =>
            obtain ⟨x, hx, hxh⟩ := hra nofun
            exact ⟨x, .inr (.inr hx), by omega⟩

/-- Every label stores the greatest measure in its subtree. -/
def IsMax (high m : α → ℕ) : BinaryTree α → Prop
  | nil => True
  | node a l r => ((∀ b ∈ (node a l r).inorder, high b ≤ m a) ∧
      ∃ b ∈ (node a l r).inorder, high b = m a) ∧ IsMax high m l ∧ IsMax high m r

theorem MaxOk.isMax (h : MaxOk high m t) : IsMax high m t := by
  induction t with
  | nil => trivial
  | node a l r ihl ihr =>
    obtain ⟨hle, hex⟩ := h.topMax
    obtain ⟨-, hl, hr⟩ := h
    exact ⟨⟨hle, hex nofun⟩, ihl hl, ihr hr⟩

/-- The stored maximum is the least bound. -/
theorem MaxOk.topMax_le (h : MaxOk high m t) {k : ℕ}
    (hk : ∀ a ∈ t.inorder, high a ≤ k) : BinaryTree.topMax m t ≤ k := by
  cases t with
  | nil => exact Nat.zero_le _
  | node a l r =>
    obtain ⟨b, hb, hbh⟩ := h.topMax.2 nofun
    exact hbh ▸ hk b hb

end Max

end BinaryTree
