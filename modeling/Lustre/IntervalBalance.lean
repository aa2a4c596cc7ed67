import Lustre.IntervalHeap

/-!
# Rebalancing

`interval_insert_color` and `interval_erase_color` only rotate and recolour. So
they keep the list of intervals and the maxima (`Located`), and what is left is
their effect on the colours: one lemma for each loop, by induction on the fuel.
-/

namespace Lustre

open Option (bind_eq_bind bind_some)

open BinaryTree IntervalNode Side

/-! ## What rebalancing keeps -/

/-- What a cell stands for: its address, its mark and its interval. -/
def Cell.entry (c : Cell) : ℕ × Bool × IntervalExtent := (c.id, c.intree, c.extent)

/-- `interval_high`. -/
def Cell.high (c : Cell) : ℕ := c.extent.stop

/-- What a tree stands for, from left to right. -/
def entries (t : CellTree) : List (ℕ × Bool × IntervalExtent) := t.inorder.map Cell.entry

/-- A place in a tree with the entries `es`, whose maxima are right. -/
structure Located (base : ℕ → IntervalNode) (es : List (ℕ × Bool × IntervalExtent))
    (s : IntervalTree) (ctx : CellCtx) (t : CellTree) : Prop extends Placed base s ctx t where
  list : entries (fill ctx t) = es
  maxOk : MaxOk Cell.high Cell.maxHigh (fill ctx t)

section Located

variable {base : ℕ → IntervalNode} {es : List (ℕ × Bool × IntervalExtent)} {s : IntervalTree}
  {ctx : CellCtx} {t u v : CellTree} {c x y : Cell} {d : Side}

theorem Located.up (h : Located base es s (⟨c, d, u⟩ :: ctx) t) : Located base es s ctx (join c d t u) :=
  ⟨h.toPlaced.up, h.list, h.maxOk⟩

section

variable (h : Located base es s ctx (join c d t u))
include h

theorem Located.down : Located base es s (⟨c, d, u⟩ :: ctx) t :=
  ⟨h.toPlaced.down, h.list, h.maxOk⟩

theorem Located.over : Located base es s (⟨c, d.opp, t⟩ :: ctx) u :=
  down (by rwa [join_opp])

omit h in
theorem Located.turn (h : Located base es s (⟨c, d, u⟩ :: ctx) t) :
    Located base es s (⟨c, d.opp, t⟩ :: ctx) u := h.up.over

omit h in
theorem Located.whole (h : Located base es s ctx t) : Located base es s [] (fill ctx t) :=
  ⟨h.toPlaced.whole, h.list, h.maxOk⟩

theorem Located.setColor (k : RbColor) :
    Located base es (s.setColor c.id k) ctx (join (c.setColor k) d t u) := by
  refine ⟨h.toPlaced.setColor k, ?_, ?_⟩
  · rw [← h.list]
    exact map_inorder_fill ctx (by cases d <;> simp [join, Cell.setColor, Cell.entry])
  · have hmax := h.maxOk
    rw [maxOk_fill, topMax_join, maxOk_join] at hmax ⊢
    exact hmax

end

theorem Located.rotate (h : Located base es s ctx (join x d t (join y d u v))) :
    ∃ s' i j, rotate d s x.id = some s' ∧ Located base es s' ctx
      (join (y.setMaxHigh i) d (join (x.setMaxHigh j) d t u) v) := by
  obtain ⟨s', hs', hp⟩ := h.toPlaced.rotate
  refine ⟨s', _, _, hs', hp, ?_, ?_⟩
  · rw [← h.list]
    exact map_inorder_fill ctx (by cases d <;> simp [join, Cell.setMaxHigh, Cell.entry])
  · have hmax := h.maxOk
    rw [maxOk_fill, topMax_join] at hmax ⊢
    exact ⟨hmax.1, hmax.2.rotate rfl rfl rfl rfl⟩

theorem Located.rotateOpp (h : Located base es s ctx (join x d (join y d u v) t)) :
    ∃ s' i j, Lustre.rotate d.opp s x.id = some s' ∧ Located base es s' ctx
      (join (y.setMaxHigh i) d u (join (x.setMaxHigh j) d v t)) := by
  rw [← join_opp, ← join_opp y] at h
  obtain ⟨s', i, j, hs', h'⟩ := h.rotate
  rw [join_opp, join_opp] at h'
  exact ⟨s', i, j, hs', h'⟩

end Located

/-! ## Reading the colours -/

variable {n : ℕ}

open Cell (color toNode_child_opp toNode_parent toNode_color)

section Read

variable {base : ℕ → IntervalNode} {s : IntervalTree} {ctx : CellCtx} {t u : CellTree} {c : Cell}
  {d : Side} {f : Frame Cell}

@[simp] theorem Cell.setMaxHigh_id (c : Cell) (k : ℕ) : (c.setMaxHigh k).id = c.id := rfl

theorem Placed.nodeIsBlackOr0 (h : Placed base s ctx t) :
    nodeIsBlackOr0 s (ptr t) = true ↔ IsBlack color t := by
  cases t with
  | nil => exact iff_of_true rfl trivial
  | node c l r =>
    have hc : (s.node c.id).inColor = c.color := congrArg inColor h.rep.1
    show decide ((s.node c.id).inColor = .black) = true ↔ c.color = .black
    rw [decide_eq_true_iff, hc]

theorem Placed.nodeIsRed (h : Placed base s ctx t) :
    nodeIsRed s (ptr t) = true ↔ ¬ IsBlack color t := by
  cases t with
  | nil => exact iff_of_false nofun (not_not.mpr trivial)
  | node c l r =>
    have hc : (s.node c.id).inColor = c.color := congrArg inColor h.rep.1
    show decide ((s.node c.id).inColor = .red) = true ↔ ¬ c.color = .black
    rw [decide_eq_true_iff, hc]
    cases c.color <;> decide

@[simp] theorem setColor_child (s : IntervalTree) (n m : ℕ) (k : RbColor) (e : Side) :
    ((s.setColor n k).node m).child e = (s.node m).child e := by
  rw [setColor_node]
  split <;> cases e <;> rfl

/-- The parent's pointer on the side of the hole. -/
theorem Placed.parent (h : Placed base s (⟨c, d, u⟩ :: ctx) t) :
    s.node c.id = c.toNode d (ptr t) (ptr u) (ctxPar ctx) := h.up.node

theorem Placed.ptr_ne (h : Placed base s (⟨c, d, u⟩ :: ctx) t) (hn : ptr t = some n) :
    ptr u ≠ some n := fun hs => by
  obtain ⟨-, -, -, -, hdis, -⟩ := h.up.distinct
  exact (hdis n (mem_ids_of_ptr hn)).1 (mem_ids_of_ptr hs)

theorem Placed.ptr_ne_root (h : Placed base s (f :: ctx) t) : ptr t ≠ s.root := by
  obtain ⟨n, hn, hptr⟩ := exists_ptr_fill f ctx t
  rw [h.root, hptr]
  intro hn'
  exact (List.nodup_append.mp h.nodup).2.2 n (mem_ids_of_ptr hn') n hn rfl

theorem Placed.child_eq_iff (h : Placed base s (f :: ctx) t) (hn : ptr t = some n)
    (e : Side) : (s.node f.value.id).child e = some n ↔ f.side = e := by
  rw [h.parent]
  rcases f.side.eq_or_eq_opp e with rfl | rfl
  · rw [Cell.toNode_child]
    exact iff_of_true hn rfl
  · rw [toNode_child_opp]
    exact iff_of_false (h.ptr_ne hn) (opp_ne _).symm

theorem Placed.nodeIsChild (h : Placed base s (f :: ctx) (join c d t u)) (e : Side) :
    nodeIsChild e s c.id = some (decide (f.side = e)) := by
  have hpar := congrArg inParent h.node
  rw [toNode_parent] at hpar
  rw [Lustre.nodeIsChild, hpar]
  exact congrArg some (decide_eq_decide.mpr (h.child_eq_iff (ptr_join ..) e))

end Read

/-! ## Painting the root -/

/-- The tree with a black root. -/
def blacken : CellTree → CellTree
  | .nil => .nil
  | .node c l r => .node (c.setColor .black) l r

theorem isBlack_blacken (t : CellTree) : IsBlack color (blacken t) := by
  cases t <;> trivial

variable {t : CellTree}

theorem balanced_blacken (h : Balanced color t n) : ∃ k, Balanced color (blacken t) k := by
  cases t with
  | nil => exact ⟨n, h⟩
  | node c l r =>
    rcases h with ⟨-, -, -, hl, hr⟩ | ⟨-, m, -, hl, hr⟩
    · exact ⟨n + 1, .inr ⟨rfl, n, rfl, hl, hr⟩⟩
    · exact ⟨m + 1, .inr ⟨rfl, m, rfl, hl, hr⟩⟩

variable {s : IntervalTree} {ctx : CellCtx}

theorem Located.blacken {base : ℕ → IntervalNode} {es : List (ℕ × Bool × IntervalExtent)}
    (h : Located base es s ctx t) :
    Located base es (s.onNode (ptr t) fun s n => s.setColor n .black) ctx (blacken t) := by
  cases t with
  | nil => exact h
  | node c l r => exact setColor (d := .left) h .black

/-! ## `interval_insert_color` -/

variable {d : Side} {fuel : ℕ} {p : Cell}

section InsertColor

variable {base : ℕ → IntervalNode} {es : List (ℕ × Bool × IntervalExtent)} {c : Cell}

theorem intervalInsertColorLoop_black (fuel : ℕ)
    {d e : Side} {t u v : CellTree} (h : Placed base s (⟨p, e, v⟩ :: ctx) (join c d t u))
    (hp : p.color = .black) : intervalInsertColorLoop (fuel + 1) s c.id = some s := by
  have hc : (s.node c.id).inParent = some p.id := by rw [h.node, toNode_parent]; rfl
  have hcolor : (s.node p.id).inColor = .black := by rw [h.parent, toNode_color, hp]
  simp only [intervalInsertColorLoop, hc, hcolor, reduceCtorEq, if_false]

/-- A black node over two balanced trees may stand below the frames. -/
theorem Located.balanced {t u : CellTree}
    (h : Located base es s ctx (join p d t u)) (hp : p.color = .black)
    (ht : Balanced color t n) (hu : Balanced color u n) (hctx : CtxBalanced color ctx (n + 1)) :
    ∃ r k, Located base es s [] r ∧ r ≠ .nil ∧ Balanced color r k := by
  obtain ⟨-, k, hk⟩ := redBlack_fill.mpr
    ⟨n + 1, hctx, (balanced_black_succ hp).mpr ⟨ht, hu⟩, .inl (isBlack_join.mpr hp)⟩
  exact ⟨_, k, h.whole, fill_ne_nil ctx join_ne_nil, hk⟩

/-- The loop of `interval_insert_color` at a red node: what it leaves is balanced,
but for the colour of the root. -/
theorem intervalInsertColorLoop_spec (fuel : ℕ) : ∀ {s : IntervalTree} {ctx : CellCtx} {c : Cell}
    {d : Side} {t u : CellTree} {n : ℕ}, Located base es s ctx (join c d t u) → c.color = .red →
    Balanced color (join c d t u) n → CtxBalanced color ctx n → ctx.length < fuel →
    ∃ s', intervalInsertColorLoop fuel s c.id = some s' ∧
      ∃ r k, Located base es s' [] r ∧ r ≠ .nil ∧ Balanced color r k := by
  induction fuel with
  | zero => exact fun _ _ _ _ hlt => absurd hlt (Nat.not_lt_zero _)
  | succ fuel ih =>
    intro s ctx c d' t u n h hred hbal hctx hlt
    rcases ctx with _ | ⟨⟨p, e, v⟩, ctx⟩
    · refine ⟨s, ?_, _, n, h, join_ne_nil, hbal⟩
      rw [intervalInsertColorLoop, h.node, toNode_parent]
      rfl
    obtain ⟨hv, ⟨hp, hctx⟩ | ⟨hp, hvb, hhole, hctx⟩⟩ := ctxBalanced_cons _ |>.mp hctx
    · -- a black parent
      exact ⟨s, intervalInsertColorLoop_black fuel h.toPlaced hp, h.up.balanced hp hbal hv hctx⟩
    -- the grandparent is there, and it is black
    rcases ctx with _ | ⟨⟨g, d, w⟩, ctx⟩
    · cases hhole
    have hg : g.color = .black := hhole
    obtain ⟨hw, ⟨-, hrest⟩ | ⟨hg', -⟩⟩ := ctxBalanced_cons _ |>.mp hctx
    swap
    · cases hg.symm.trans hg'
    have hc : (s.node c.id).inParent = some p.id := by rw [h.node, toNode_parent]; rfl
    have hcolor : (s.node p.id).inColor = .red := by rw [h.parent, toNode_color, hp]
    have hpar : (s.node p.id).inParent = some g.id := by rw [h.parent, toNode_parent]; rfl
    have huncle : (s.node g.id).child d.opp = ptr w := by rw [h.up.parent, toNode_child_opp]
    have hside : (if decide (d = Side.left) = true then Side.left else .right) = d := by
      cases d <;> rfl
    have hwred : nodeIsRed s (ptr w) = true ↔ ¬ IsBlack color w := h.up.turn.nodeIsRed
    have hchild : (s.node p.id).child d.opp = some c.id ↔ e = d.opp :=
      h.child_eq_iff (ptr_join ..) d.opp
    simp only [intervalInsertColorLoop, hc, hcolor, hpar, h.up.nodeIsChild .left, hside, huncle,
      hwred, hchild, if_true, bind_eq_bind, bind_some]
    by_cases hwb : IsBlack color w
    · obtain _ | fuel := fuel
      · simp at hlt
      rw [if_neg (not_not.mpr hwb)]
      rcases d.eq_or_eq_opp e with rfl | rfl
      · -- parent and node are on the same side: one rotation
        rw [if_neg (opp_ne _).symm]
        obtain ⟨s1, i, j, hs1, h1⟩ := ((h.up.setColor .black).up.setColor .red).rotateOpp
        have hstop := intervalInsertColorLoop_black fuel h1.down.toPlaced rfl
        refine ⟨s1, ?_, h1.balanced rfl hbal ((balanced_red rfl).mpr ⟨hvb, hwb, hv, hw⟩) hrest⟩
        exact (congrArg (Option.bind · _) hs1).trans hstop
      · -- on different sides: the node takes the place of its grandparent
        rw [if_pos rfl]
        obtain ⟨t, u, heq⟩ := exists_join_side c d' d t u
        rw [heq] at h hbal
        obtain ⟨htb, hub, ht, hu⟩ := (balanced_red hred).mp hbal
        have hup := h.up
        rw [join_opp] at hup
        obtain ⟨s1, i, j, hs1, h1⟩ := hup.rotate
        obtain ⟨s2, k, l, hs2, h2⟩ := ((h1.setColor .black).up.setColor .red).rotateOpp
        have hstop := intervalInsertColorLoop_black fuel h2.down.toPlaced rfl
        have hpbal := (balanced_red (a := p.setMaxHigh j) (d := d) hp).mpr ⟨hvb, htb, hv, ht⟩
        have hgbal := (balanced_red (a := (g.setColor .red).setMaxHigh l) (d := d) rfl).mpr
          ⟨hub, hwb, hu, hw⟩
        refine ⟨s2, ?_, h2.balanced rfl hpbal hgbal hrest⟩
        exact (congrArg (Option.bind · _) hs1).trans ((congrArg (Option.bind · _) hs2).trans hstop)
    · -- a red uncle: the red node moves up two levels
      rw [if_pos hwb]
      have hne : w ≠ .nil := fun heq => hwb (heq ▸ trivial)
      obtain ⟨a, x, y, rfl⟩ := exists_join hne d
      have ha := (RbColor.cases a.color).resolve_right (isBlack_join.not.mp hwb)
      have hturn := (h.up.turn.setColor .black).turn
      rw [opp_opp] at hturn
      rw [ptr_join]
      have hlt' : ctx.length < fuel := by simp at hlt; omega
      have hpbal := (balanced_black_succ (a := p.setColor .black) (d := e) rfl).mpr ⟨hbal, hv⟩
      have hgbal := (balanced_red (a := g.setColor .red) (d := d) rfl).mpr ⟨isBlack_join.mpr rfl,
        isBlack_join.mpr rfl, hpbal, hw.paint (a.setColor .black) ha rfl⟩
      have hup := ih ((hturn.setColor .black).up.setColor .red) rfl hgbal hrest hlt'
      exact hup

/-- `interval_insert_color` at a red node makes a red-black tree. -/
theorem intervalInsertColor_spec
    {t u : CellTree} (h : Located base es s ctx (join c d t u))
    (hred : c.color = .red) (hbal : Balanced color (join c d t u) n)
    (hctx : CtxBalanced color ctx n) (hlt : ctx.length < fuel) :
    ∃ s' r, intervalInsertColor fuel s c.id = some s' ∧ Located base es s' [] r ∧
      RedBlack color r := by
  obtain ⟨s1, hs1, r, k, h1, hne, hr⟩ := intervalInsertColorLoop_spec fuel h hred hbal hctx hlt
  obtain ⟨a, x, y, rfl⟩ := exists_join hne .left
  have hroot : s1.root = some a.id := h1.root.trans (ptr_join ..)
  refine ⟨_, _, ?_, h1.blacken, isBlack_blacken _, balanced_blacken hr⟩
  simp only [intervalInsertColor, hs1, hroot, bind_eq_bind, bind_some, ptr_join]
  rfl

end InsertColor

/-! ## `interval_erase_color` -/

section EraseColor

variable {base : ℕ → IntervalNode} {es : List (ℕ × Bool × IntervalExtent)}

/-- The loop stops at a red node and at the root. -/
theorem intervalEraseColorLoop_stop (fuel : ℕ)
    (h : Placed base s ctx t) (hstop : ¬ IsBlack color t ∨ ctx = []) :
    intervalEraseColorLoop (fuel + 1) s (ptr t) (ctxPar ctx) = some (s, ptr t) := by
  have hcond : ¬ (nodeIsBlackOr0 s (ptr t) = true ∧ ptr t ≠ s.root) := by
    rintro ⟨hb, hne⟩
    rcases hstop with hred | rfl
    · exact hred (h.nodeIsBlackOr0.mp hb)
    · exact hne h.root.symm
  rw [intervalEraseColorLoop, if_neg hcond]

/-- The subtree `t` has one black node less than the frames expect, or is red and
will be painted. -/
structure Lacking (ctx : CellCtx) (t : CellTree) (n : ℕ) : Prop where
  hole : CtxBalanced color ctx (n + 1)
  black : IsBlack color t → Balanced color t n
  red : ¬ IsBlack color t → Balanced color (blacken t) (n + 1)

/-- The last rotation. The sibling then stands where the parent was, in the parent's
colour. -/
theorem intervalEraseColorLast_spec {b z : Cell} {d e : Side} {t x y1 y2 : CellTree}
    (h : Located base es s (⟨p, d, join b d x (join z e y1 y2)⟩ :: ctx) t)
    (hctx : (p.color = .black ∧ CtxBalanced color ctx (n + 2)) ∨
      (p.color = .red ∧ HoleRed color ctx ∧ CtxBalanced color ctx (n + 1)))
    (ht : Balanced color t n) (hx : Balanced color x n)
    (hz : z.color = .red) (hy : Balanced color (join z e y1 y2) n) :
    ∃ s' r, intervalEraseColorLast d s p.id = some s' ∧ Located base es s' [] r ∧
      RedBlack color r := by
  have hp : (s.node p.id).child d.opp = some b.id := by
    rw [h.parent, toNode_child_opp, ptr_join]
  have hcolor : (s.node p.id).inColor = p.color := by rw [h.parent, toNode_color]
  have hb : (s.node b.id).child d.opp = some z.id := by
    rw [h.turn.node, toNode_child_opp, ptr_join]
  have hcol := (h.turn.setColor p.color).up.setColor .black
  rw [join_opp] at hcol
  have hpaint := (hcol.over.over.setColor .black).up.up
  rw [join_opp, join_opp] at hpaint
  obtain ⟨s1, i, j, hs1, h1⟩ := hpaint.rotate
  refine ⟨s1, _, ?_, h1.whole, ?_⟩
  · simp only [intervalEraseColorLast, hp, hcolor, hb, setColor_child, bind_eq_bind,
      bind_some]
    exact hs1
  have hpbal := (balanced_black_succ (a := (p.setColor .black).setMaxHigh j) (d := d) rfl).mpr
    ⟨ht, hx⟩
  have hzbal := hy.paint (z.setColor .black) hz rfl
  obtain ⟨hp, hctx⟩ | ⟨hp, hhole, hctx⟩ := hctx
  · refine redBlack_fill.mpr ⟨n + 2, hctx, (balanced_black_succ ?_).mpr ⟨hpbal, hzbal⟩,
      .inl (isBlack_join.mpr ?_)⟩ <;> exact hp
  · refine redBlack_fill.mpr ⟨n + 1, hctx, (balanced_red ?_).mpr ⟨isBlack_join.mpr rfl,
      isBlack_join.mpr rfl, hpbal, hzbal⟩, .inr hhole⟩
    exact hp

theorem intervalEraseColorRound_spec
    {t w : CellTree} (h : Located base es s (⟨p, d, w⟩ :: ctx) t)
    (hctx : CtxBalanced color (⟨p, d, w⟩ :: ctx) (n + 1)) (hw : IsBlack color w)
    (ht : Balanced color t n) : (∃ s' u, intervalEraseColorRound d s p.id = some (s', false) ∧
        Located base es s' ctx (join p d t u) ∧ Balanced color u n) ∨
      ∃ s' r, intervalEraseColorRound d s p.id = some (s', true) ∧ Located base es s' [] r ∧
        RedBlack color r := by
  obtain ⟨hwbal, hrest⟩ := (ctxBalanced_cons _).mp hctx
  replace hrest : (p.color = .black ∧ CtxBalanced color ctx (n + 2)) ∨
      (p.color = .red ∧ HoleRed color ctx ∧ CtxBalanced color ctx (n + 1)) :=
    hrest.imp_right fun ⟨hp, _, hhole⟩ => ⟨hp, hhole⟩
  obtain ⟨b, x, y, rfl⟩ := exists_join hwbal.ne_nil d
  obtain ⟨hx, hy⟩ := (balanced_black_succ (isBlack_join.mp hw)).mp hwbal
  have hp : (s.node p.id).child d.opp = some b.id := by
    rw [h.parent, toNode_child_opp, ptr_join]
  have hnear : (s.node b.id).child d = ptr x := by rw [h.turn.node, Cell.toNode_child]
  have hfar : (s.node b.id).child d.opp = ptr y := by rw [h.turn.node, toNode_child_opp]
  have hyb : nodeIsBlackOr0 s (ptr y) = true ↔ IsBlack color y := h.turn.over.nodeIsBlackOr0
  have hboth : (nodeIsBlackOr0 s (s.node b.id).inLeft = true ∧
      nodeIsBlackOr0 s (s.node b.id).inRight = true) ↔ IsBlack color x ∧ IsBlack color y := by
    rw [← hyb, ← h.turn.down.nodeIsBlackOr0, h.turn.node]
    cases d with
    | left => exact Iff.rfl
    | right => exact and_comm
  simp only [intervalEraseColorRound, hp, hnear, hfar, hboth, hyb, bind_eq_bind,
    bind_some]
  by_cases hxy : IsBlack color x ∧ IsBlack color y
  · -- the sibling becomes red and the parent lacks a black node
    have hcol := (h.turn.setColor .red).up
    rw [join_opp] at hcol
    rw [if_pos hxy]
    exact .inl ⟨_, _, rfl, hcol, (balanced_red rfl).mpr ⟨hxy.1, hxy.2, hx, hy⟩⟩
  · rw [if_neg hxy]
    by_cases hyb : IsBlack color y
    · -- the near child is red and becomes the sibling
      rw [if_pos hyb]
      have hxr : ¬ IsBlack color x := fun hxb => hxy ⟨hxb, hyb⟩
      have hne : x ≠ .nil := fun heq => hxr (heq ▸ trivial)
      obtain ⟨o, x1, x2, rfl⟩ := exists_join hne d
      have ho := (RbColor.cases o.color).resolve_right (isBlack_join.not.mp hxr)
      obtain ⟨-, hx2b, hx1, hx2⟩ := (balanced_red ho).mp hx
      obtain ⟨s1, i, j, hs1, h1⟩ := ((h.turn.down.setColor .black).up.setColor .red).rotateOpp
      have hturn := h1.turn
      rw [opp_opp] at hturn
      obtain ⟨s', r, hs', h', hr⟩ := intervalEraseColorLast_spec hturn hrest ht hx1 rfl
        ((balanced_red rfl).mpr ⟨hx2b, hyb, hx2, hy⟩)
      refine .inr ⟨s', r, ?_, h', hr⟩
      rw [ptr_join]
      refine (congrArg (Option.bind · _) hs1).trans ?_
      rw [bind_some, hs']
      rfl
    · rw [if_neg hyb]
      have hne : y ≠ .nil := fun heq => hyb (heq ▸ trivial)
      obtain ⟨z, y1, y2, rfl⟩ := exists_join hne d
      have hz := (RbColor.cases z.color).resolve_right (isBlack_join.not.mp hyb)
      obtain ⟨s', r, hs', h', hr⟩ := intervalEraseColorLast_spec h hrest ht hx hz hy
      refine .inr ⟨s', r, ?_, h', hr⟩
      rw [hs']
      rfl

/-- What a round does before: a red sibling changes places with the parent, so that
the sibling is black. -/
theorem Located.blackSibling {b : Cell}
    {t x y : CellTree} (h : Located base es s (⟨p, d, join b d x y⟩ :: ctx) t)
    (hctx : CtxBalanced color (⟨p, d, join b d x y⟩ :: ctx) (n + 1)) :
    ∃ s' p' w ctx', (if (s.node b.id).inColor = .red then
        Lustre.rotate d ((s.setColor b.id .black).setColor p.id .red) p.id else some s) = some s' ∧
      Located base es s' (⟨p', d, w⟩ :: ctx') t ∧ p'.id = p.id ∧ IsBlack color w ∧
      CtxBalanced color (⟨p', d, w⟩ :: ctx') (n + 1) ∧
      (p'.color = .black → ctx'.length = ctx.length) := by
  have hb : (s.node b.id).inColor = b.color := by rw [h.turn.node, toNode_color]
  rw [hb]
  rcases RbColor.cases b.color with hb | hb
  · obtain ⟨hw, ⟨hp, hctx⟩ | ⟨-, hbb, -⟩⟩ := (ctxBalanced_cons _).mp hctx
    · obtain ⟨hxb, hyb, hx, hy⟩ := (balanced_red hb).mp hw
      have hcol := (h.turn.setColor .black).up.setColor .red
      rw [join_opp] at hcol
      obtain ⟨s1, i, j, hs1, h1⟩ := hcol.rotate
      refine ⟨s1, _, x, _, (if_pos hb).trans hs1, h1.down.down, rfl, hxb, ?_, nofun⟩
      exact ⟨hx, .inr ⟨rfl, hxb, rfl, hy, .inl ⟨rfl, hctx⟩⟩⟩
    · cases hb.symm.trans (isBlack_join.mp hbb)
  · exact ⟨s, p, _, ctx, if_neg (hb ▸ by decide), h, rfl, isBlack_join.mpr hb, hctx, fun _ => rfl⟩

/-- One turn of the loop at a black place that is not the root. -/
theorem intervalEraseColorLoop_turn (fuel : ℕ) {b : Cell}
    {t x y : CellTree} (h : Placed base s (⟨p, d, join b d x y⟩ :: ctx) t) (hb : IsBlack color t) :
    intervalEraseColorLoop (fuel + 1) s (ptr t) (some p.id) = (if (s.node b.id).inColor = .red then
        rotate d ((s.setColor b.id .black).setColor p.id .red) p.id else some s).bind fun s =>
      (intervalEraseColorRound d s p.id).bind fun (s, last) =>
      if last then some (s, s.root)
      else intervalEraseColorLoop fuel s (some p.id) (s.node p.id).inParent := by
  have hp : (s.node p.id).child d.opp = some b.id := by
    rw [h.parent, toNode_child_opp, ptr_join]
  have hroot : ptr t ≠ s.root := h.ptr_ne_root
  have hside : (if (s.node p.id).inLeft = ptr t then Side.left else .right) = d := by
    cases d with
    | left => exact if_pos (congrArg inLeft h.parent)
    | right =>
      have hl : (s.node p.id).inLeft = some b.id := hp
      exact if_neg fun heq => h.ptr_ne (heq.symm.trans hl) (ptr_join ..)
  rw [intervalEraseColorLoop, if_pos ⟨h.nodeIsBlackOr0.mpr hb, hroot⟩]
  simp only [hside, hp, bind_eq_bind, bind_some]
  split <;> rfl

/-- The loop of `interval_erase_color`: with its node painted black, the tree is a
red-black tree. -/
theorem intervalEraseColorLoop_spec (fuel : ℕ) : ∀ {s : IntervalTree} {ctx : CellCtx} {t : CellTree}
    {n : ℕ}, Located base es s ctx t → Lacking ctx t n → 0 < fuel →
    (IsBlack color t → ctx.length + 1 < fuel) →
    ∃ s' ctx' t', intervalEraseColorLoop fuel s (ptr t) (ctxPar ctx) = some (s', ptr t') ∧
      Located base es s' ctx' t' ∧ RedBlack color (fill ctx' (blacken t')) := by
  induction fuel with
  | zero => exact fun _ _ hlt => absurd hlt (Nat.lt_irrefl _)
  | succ fuel ih =>
    intro s ctx t n h hlack _ hlt
    by_cases hb : IsBlack color t
    swap
    · exact ⟨s, ctx, t, intervalEraseColorLoop_stop fuel h.toPlaced (.inl hb), h,
        redBlack_fill.mpr ⟨n + 1, hlack.hole, hlack.red hb, .inl (isBlack_blacken t)⟩⟩
    have ht := hlack.black hb
    rcases ctx with _ | ⟨⟨p, d, w⟩, ctx⟩
    · exact ⟨s, [], t, intervalEraseColorLoop_stop fuel h.toPlaced (.inr rfl), h,
        isBlack_blacken t, balanced_blacken ht⟩
    have hctx := hlack.hole
    obtain ⟨hw, -⟩ := (ctxBalanced_cons _).mp hctx
    obtain ⟨b, x, y, rfl⟩ := exists_join hw.ne_nil d
    obtain ⟨s1, p1, w1, ctx1, hs1, h1, hid, hb1, hctx1, hlen⟩ := h.blackSibling hctx
    have hturn := intervalEraseColorLoop_turn fuel h.toPlaced hb
    rw [hs1, bind_some, ← hid] at hturn
    show ∃ s' ctx' t', intervalEraseColorLoop (fuel + 1) s (ptr t) (some p.id) = _ ∧ _
    rw [← hid, hturn]
    have hlong := hlt hb
    rw [List.length_cons] at hlong
    rcases intervalEraseColorRound_spec h1 hctx1 hb1 ht with
      ⟨s2, u, hs2, h2, hu⟩ | ⟨s2, r, hs2, h2, -, k, hk⟩
    · -- the loop goes on at the parent
      have hpar : (s2.node p1.id).inParent = ctxPar ctx1 := by rw [h2.node, toNode_parent]
      simp only [hs2, bind_some, Bool.false_eq_true, if_false, hpar]
      rw [← ptr_join p1 d t u]
      have hfuel : 0 < fuel := by omega
      obtain ⟨-, ⟨hp, hctx1⟩ | ⟨hp, -, -, hctx1⟩⟩ := (ctxBalanced_cons _).mp hctx1
      · have hbal := (balanced_black_succ (d := d) hp).mpr ⟨ht, hu⟩
        refine ih h2 ⟨hctx1, fun _ => hbal, fun hn => absurd (isBlack_join.mpr hp) hn⟩ hfuel
          fun _ => ?_
        rw [hlen hp]
        omega
      · have hnb : ¬ IsBlack color (join p1 d t u) := fun hn => by
          cases hp.symm.trans (isBlack_join.mp hn)
        refine ih h2 ⟨hctx1, fun hn => absurd hn hnb, fun _ => ?_⟩ hfuel fun hn => absurd hn hnb
        have hbal := (balanced_black_succ (a := p1.setColor .black) (d := d) rfl).mpr ⟨ht, hu⟩
        cases d <;> exact hbal
    · refine ⟨s2, [], r, ?_, h2, isBlack_blacken r, balanced_blacken hk⟩
      rw [hs2, ← show s2.root = ptr r from h2.root]
      rfl

/-- `interval_erase_color` makes a red-black tree of one that lacks a black node at
the place. -/
theorem intervalEraseColor_spec
    (h : Located base es s ctx t) (hlack : Lacking ctx t n) (hlt : ctx.length + 1 < fuel) :
    ∃ s' r, intervalEraseColor fuel s (ptr t) (ctxPar ctx) = some s' ∧ Located base es s' [] r ∧
      RedBlack color r := by
  obtain ⟨s1, ctx1, t1, hs1, h1, hr⟩ := intervalEraseColorLoop_spec fuel h hlack (by omega)
    fun _ => hlt
  refine ⟨_, _, ?_, h1.blacken.whole, hr⟩
  rw [intervalEraseColor, hs1]
  rfl

end EraseColor

end Lustre
