import Lustre.IntervalTree

/-!
# Interval trees in memory

`Placed base s ctx t` says that the memory of `s` holds the tree `fill ctx t`, with
consistent child and parent pointers, and agrees with `base` everywhere else. The
statement can be moved up and down the tree (`Placed.up`, `Placed.down`,
`Placed.turn`), and for each pointer operation there is one lemma that says what
tree it leaves.
-/

namespace Lustre

open List BinaryTree

/-! ## Trees of cells -/

/-- What a node holds besides its pointers. -/
structure Cell where
  id : ℕ
  /-- `in_color` -/
  color : RbColor
  /-- `in_intree` -/
  intree : Bool
  /-- `in_max_high` -/
  maxHigh : ℕ
  /-- `in_extent` -/
  extent : IntervalExtent
  deriving DecidableEq

/-- Another colour. -/
def Cell.setColor (c : Cell) (k : RbColor) : Cell := { c with color := k }

/-- Another maximum. -/
def Cell.setMaxHigh (c : Cell) (k : ℕ) : Cell := { c with maxHigh := k }

/-- In the tree or not. -/
def Cell.setIntree (c : Cell) (b : Bool) : Cell := { c with intree := b }

/-- A tree as the memory holds it. -/
abbrev CellTree := BinaryTree Cell

/-- The frames above a place in the tree. -/
abbrev CellCtx := List (Frame Cell)

namespace Cell

/-- The node for a cell, with `p` on the side `d` and `q` on the other. -/
def toNode (c : Cell) (d : Side) (p q parent : Option ℕ) : IntervalNode :=
  match d with
  | .left => ⟨p, q, parent, c.color, c.intree, c.maxHigh, c.extent⟩
  | .right => ⟨q, p, parent, c.color, c.intree, c.maxHigh, c.extent⟩

section ToNode

variable (c : Cell) (d : Side) (p q parent : Option ℕ)

@[simp] theorem toNode_child : (c.toNode d p q parent).child d = p := by cases d <;> rfl

@[simp] theorem toNode_child_opp : (c.toNode d p q parent).child d.opp = q := by
  cases d <;> rfl

@[simp] theorem toNode_parent : (c.toNode d p q parent).inParent = parent := by
  cases d <;> rfl

@[simp] theorem toNode_color : (c.toNode d p q parent).inColor = c.color := by
  cases d <;> rfl

@[simp] theorem toNode_intree : (c.toNode d p q parent).inIntree = c.intree := by
  cases d <;> rfl

@[simp] theorem toNode_maxHigh : (c.toNode d p q parent).inMaxHigh = c.maxHigh := by
  cases d <;> rfl

@[simp] theorem toNode_extent : (c.toNode d p q parent).inExtent = c.extent := by
  cases d <;> rfl

theorem toNode_opp : c.toNode d.opp p q parent = c.toNode d q p parent := by cases d <;> rfl

@[simp] theorem toNode_setChild (r : Option ℕ) :
    (c.toNode d p q parent).setChild d r = c.toNode d r q parent := by cases d <;> rfl

@[simp] theorem toNode_setChild_opp (r : Option ℕ) :
    (c.toNode d p q parent).setChild d.opp r = c.toNode d p r parent := by cases d <;> rfl

@[simp] theorem toNode_setParent (r : Option ℕ) :
    (c.toNode d p q parent).setParent r = c.toNode d p q r := by cases d <;> rfl

@[simp] theorem toNode_setMaxHigh (k : ℕ) :
    (c.toNode d p q parent).setMaxHigh k = (c.setMaxHigh k).toNode d p q parent := by
  cases d <;> rfl

@[simp] theorem toNode_setColor (k : RbColor) :
    (c.toNode d p q parent).setColor k = (c.setColor k).toNode d p q parent := by cases d <;> rfl

@[simp] theorem toNode_setIntree (b : Bool) :
    (c.toNode d p q parent).setIntree b = (c.setIntree b).toNode d p q parent := by
  cases d <;> rfl

end ToNode

end Cell

/-- The pointer to a tree. -/
def ptr : CellTree → Option ℕ
  | .nil => none
  | .node c _ _ => some c.id

variable {t : CellTree}

theorem ptr_eq_none : ptr t = none ↔ t = .nil := by
  cases t with
  | nil => exact iff_of_true rfl rfl
  | node => exact iff_of_false nofun nofun

@[simp] theorem ptr_join (c : Cell) (d : Side) (t u : CellTree) : ptr (join c d t u) = some c.id := by
  cases d <;> rfl

/-- The parent of the hole. -/
def ctxPar : CellCtx → Option ℕ
  | [] => none
  | f :: _ => some f.value.id

/-- The addresses of a tree. -/
def ids (t : CellTree) : List ℕ := t.inorder.map Cell.id

/-- The addresses of frames. -/
def ctxIds : CellCtx → List ℕ
  | [] => []
  | f :: ctx => f.value.id :: (ids f.sibling ++ ctxIds ctx)

theorem mem_ids_join {c : Cell} {d : Side} {t u : CellTree} {n : ℕ} :
    n ∈ ids (join c d t u) ↔ n = c.id ∨ n ∈ ids t ∨ n ∈ ids u := by
  cases d with
  | left =>
    simp only [ids, join, inorder, map_append, map_cons, mem_append, mem_cons]
    exact or_left_comm
  | right =>
    simp only [ids, join, inorder, map_append, map_cons, mem_append, mem_cons]
    rw [or_left_comm, or_comm (a := n ∈ map Cell.id u.inorder)]

theorem ids_join_perm (c : Cell) (d : Side) (t u : CellTree) :
    (ids (join c d t u)).Perm (c.id :: (ids t ++ ids u)) := by
  cases d with
  | left =>
    simp only [ids, join, inorder, map_append, map_cons]
    exact perm_middle
  | right =>
    simp only [ids, join, inorder, map_append, map_cons]
    exact perm_middle.trans (perm_append_comm.cons _)

/-- Moving a frame from the context to the tree keeps the addresses. -/
theorem ids_plug_perm (f : Frame Cell) (ctx : CellCtx) (t : CellTree) :
    (ids (f.plug t) ++ ctxIds ctx).Perm (ids t ++ ctxIds (f :: ctx)) := by
  refine ((ids_join_perm _ _ _ _).append_right _).trans ?_
  rw [ctxIds, cons_append, append_assoc]
  exact perm_middle.symm

theorem mem_ctx_iff (f : Frame Cell) (ctx : CellCtx) (t : CellTree) (n : ℕ) :
    (n ∈ ids (f.plug t) ∨ n ∈ ctxIds ctx) ↔ (n ∈ ids t ∨ n ∈ ctxIds (f :: ctx)) := by
  rw [← mem_append, ← mem_append]
  exact (ids_plug_perm f ctx t).mem_iff

variable {ctx : CellCtx}

theorem mem_ids_fill {n : ℕ} : n ∈ ids (fill ctx t) ↔ n ∈ ids t ∨ n ∈ ctxIds ctx := by
  induction ctx generalizing t with
  | nil => simp [ctxIds]
  | cons f ctx ih => rw [fill, ih, mem_ctx_iff]

theorem ctxIds_append (c1 c2 : CellCtx) : ctxIds (c1 ++ c2) = ctxIds c1 ++ ctxIds c2 := by
  induction c1 with
  | nil => rfl
  | cons f c1 ih => simp [ctxIds, ih]

theorem mem_ids_of_ptr {n : ℕ} (h : ptr t = some n) : n ∈ ids t := by
  cases t with
  | nil => cases h
  | node c l r =>
    cases h
    exact mem_ids_join (d := .left).mpr (.inl rfl)

theorem mem_ctxIds_of_par {n : ℕ} (h : ctxPar ctx = some n) : n ∈ ctxIds ctx := by
  cases ctx with
  | nil => cases h
  | cons f ctx =>
    cases h
    exact mem_cons_self

theorem ptr_fill_congr (ctx : CellCtx) {t t' : CellTree} (h : ptr t = ptr t') :
    ptr (fill ctx t) = ptr (fill ctx t') := by
  induction ctx generalizing t t' with
  | nil => exact h
  | cons f ctx ih => exact ih ((ptr_join ..).trans (ptr_join ..).symm)

/-- The root pointer depends on the tree in the hole only when there is no frame. -/
theorem ptr_fill_of_par {t t' : CellTree} (h : ctxPar ctx ≠ none) :
    ptr (fill ctx t) = ptr (fill ctx t') := by
  cases ctx with
  | nil => exact absurd rfl h
  | cons f ctx => exact ptr_fill_congr ctx ((ptr_join ..).trans (ptr_join ..).symm)

/-- The root of a filled context is one of its frames. -/
theorem exists_ptr_fill (f : Frame Cell) (ctx : CellCtx) (t : CellTree) :
    ∃ n ∈ ctxIds (f :: ctx), ptr (fill (f :: ctx) t) = some n := by
  induction ctx generalizing f t with
  | nil => exact ⟨f.value.id, mem_cons_self, ptr_join ..⟩
  | cons g ctx ih =>
    obtain ⟨n, hn, hptr⟩ := ih g (f.plug t)
    exact ⟨n, mem_cons_of_mem _ (mem_append_right _ hn), hptr⟩

/-! ## Memory -/

/-- The memory holds the tree, whose root has the given parent. -/
def Rep (h : ℕ → IntervalNode) : Option ℕ → CellTree → Prop
  | _, .nil => True
  | p, .node c l r => h c.id = c.toNode .left (ptr l) (ptr r) p ∧
      Rep h (some c.id) l ∧ Rep h (some c.id) r

/-- The memory holds the frames around a hole to which `q` points. -/
def CtxRep (h : ℕ → IntervalNode) : Option ℕ → CellCtx → Prop
  | _, [] => True
  | q, f :: ctx => h f.value.id = f.value.toNode f.side q (ptr f.sibling) (ctxPar ctx) ∧
      Rep h (some f.value.id) f.sibling ∧ CtxRep h (some f.value.id) ctx

open Cell

section Rep

variable {h h' : ℕ → IntervalNode} {p : Option ℕ}

theorem rep_join {c : Cell} {d : Side} {t u : CellTree} : Rep h p (join c d t u) ↔
    h c.id = c.toNode d (ptr t) (ptr u) p ∧ Rep h (some c.id) t ∧ Rep h (some c.id) u := by
  cases d with
  | left => exact Iff.rfl
  | right =>
    rw [and_comm (a := Rep h (some c.id) t)]
    exact Iff.rfl

theorem Rep.congr (hr : Rep h p t) (heq : ∀ n ∈ ids t, h' n = h n) : Rep h' p t := by
  induction t generalizing p with
  | nil => trivial
  | node c l r ihl ihr =>
    obtain ⟨hc, hl, hr⟩ := hr
    have hmem : ∀ n, n ∈ ids (.node c l r) ↔ n = c.id ∨ n ∈ ids l ∨ n ∈ ids r := fun n =>
      mem_ids_join (d := .left)
    exact ⟨(heq _ ((hmem _).mpr (.inl rfl))).trans hc,
      ihl hl fun n hn => heq n ((hmem n).mpr (.inr (.inl hn))),
      ihr hr fun n hn => heq n ((hmem n).mpr (.inr (.inr hn)))⟩

/-- The root of the tree gets another parent. -/
theorem Rep.reparent {p' : Option ℕ} (hnd : (ids t).Nodup) (hr : Rep h p t)
    (heq : ∀ n ∈ ids t, h' n = if some n = ptr t then (h n).setParent p' else h n) :
    Rep h' p' t := by
  cases t with
  | nil => trivial
  | node c l r =>
    obtain ⟨hc, hl, hr⟩ := hr
    have hmem : ∀ n, n ∈ ids (.node c l r) ↔ n = c.id ∨ n ∈ ids l ∨ n ∈ ids r := fun n =>
      mem_ids_join (d := .left)
    have hnd' := (ids_join_perm c .left l r).nodup_iff.mp hnd
    obtain ⟨hni, -⟩ := nodup_cons.mp hnd'
    rw [mem_append] at hni
    have hsub : ∀ n, n ∈ ids l ∨ n ∈ ids r → h' n = h n := fun n hn => by
      rw [heq n ((hmem n).mpr (.inr hn)), if_neg]
      intro heq
      exact hni (Option.some.inj heq ▸ hn)
    refine ⟨?_, hl.congr fun n hn => hsub n (.inl hn), hr.congr fun n hn => hsub n (.inr hn)⟩
    rw [heq _ ((hmem _).mpr (.inl rfl)), if_pos (show some c.id = ptr (.node c l r) from rfl), hc]
    rfl

theorem CtxRep.congr {q : Option ℕ} (hr : CtxRep h q ctx)
    (heq : ∀ n ∈ ctxIds ctx, h' n = h n) : CtxRep h' q ctx := by
  induction ctx generalizing q with
  | nil => trivial
  | cons f ctx ih =>
    obtain ⟨hc, hs, hctx⟩ := hr
    exact ⟨(heq _ mem_cons_self).trans hc,
      hs.congr fun n hn => heq n (mem_cons_of_mem _ (mem_append_left _ hn)),
      ih hctx fun n hn => heq n (mem_cons_of_mem _ (mem_append_right _ hn))⟩

theorem CtxRep.setHole {f : Frame Cell} {q q' : Option ℕ}
    (hnd : (ctxIds (f :: ctx)).Nodup) (hr : CtxRep h q (f :: ctx))
    (heq : ∀ n ∈ ctxIds (f :: ctx), h' n =
      if n = f.value.id then (h n).setChild f.side q' else h n) : CtxRep h' q' (f :: ctx) := by
  obtain ⟨hc, hs, hctx⟩ := hr
  obtain ⟨hni, -⟩ := nodup_cons.mp hnd
  have hrest : ∀ n ∈ ids f.sibling ++ ctxIds ctx, h' n = h n := fun n hn => by
    rw [heq n (mem_cons_of_mem _ hn), if_neg]
    rintro rfl
    exact hni hn
  refine ⟨?_, hs.congr (forall_mem_append.mp hrest).1,
    hctx.congr (forall_mem_append.mp hrest).2⟩
  rw [heq _ mem_cons_self, if_pos rfl, hc, toNode_setChild]

/-- The pointer to `old` is made to point to `new`. -/
def IntervalNode.relink (x : IntervalNode) (d : Side) (old : ℕ) (new : Option ℕ) : IntervalNode :=
  x.setChild (if x.child d = some old then d else d.opp) new

theorem Cell.toNode_relink (c : Cell) (d e : Side) {old : ℕ} (new : Option ℕ) {q parent : Option ℕ}
    (hne : q ≠ some old) : (c.toNode e (some old) q parent).relink d old new =
      c.toNode e new q parent := by
  rcases d.eq_or_eq_opp e with rfl | rfl
  · rw [IntervalNode.relink, toNode_child, if_pos rfl, toNode_setChild]
  · rw [IntervalNode.relink, toNode_opp, toNode_child, if_neg hne, toNode_setChild_opp, toNode_opp]

/-- The pointer to `old` is found and written. -/
theorem CtxRep.relink {old : ℕ} {new : Option ℕ} (d : Side)
    (hnd : (ctxIds ctx).Nodup) (hold : old ∉ ctxIds ctx) (hr : CtxRep h (some old) ctx)
    (heq : ∀ n ∈ ctxIds ctx, h' n =
      if some n = ctxPar ctx then (h n).relink d old new else h n) : CtxRep h' new ctx := by
  cases ctx with
  | nil => trivial
  | cons f ctx =>
    refine setHole hnd hr fun n hn => ?_
    have hsib : ptr f.sibling ≠ some old := fun hq =>
      hold (mem_cons_of_mem _ (mem_append_left _ (mem_ids_of_ptr hq)))
    rw [heq n hn, ctxPar]
    by_cases hf : n = f.value.id
    · rw [if_pos (congrArg some hf), if_pos hf, hf, hr.1, toNode_relink _ _ _ _ hsib,
        toNode_setChild]
    · rw [if_neg hf, if_neg fun heq => hf (Option.some.inj heq)]

end Rep

/-! ## A place in the tree -/

/-- The memory holds the frames `ctx` around the tree `t`, and agrees with `base`
elsewhere. -/
structure Placed (base : ℕ → IntervalNode) (s : IntervalTree) (ctx : CellCtx) (t : CellTree) :
    Prop where
  frames : CtxRep s.node (ptr t) ctx
  rep : Rep s.node (ctxPar ctx) t
  root : s.root = ptr (fill ctx t)
  nodup : (ids t ++ ctxIds ctx).Nodup
  outside : ∀ n, n ∉ ids t → n ∉ ctxIds ctx → s.node n = base n

section Placed

variable {base : ℕ → IntervalNode} {s : IntervalTree} {ctx : CellCtx} {t u : CellTree} {c : Cell}
  {d : Side}

theorem placed_cons {f : Frame Cell} : Placed base s (f :: ctx) t ↔ Placed base s ctx (f.plug t) := by
  have hptr : ptr (f.plug t) = some f.value.id := ptr_join ..
  constructor
  · rintro ⟨⟨hc, hs, hctx⟩, hrep, hroot, hnd, hout⟩
    refine ⟨hptr ▸ hctx, rep_join.mpr ⟨hc, hrep, hs⟩, hroot,
      (ids_plug_perm f ctx t).nodup_iff.mpr hnd, fun n h1 h2 => ?_⟩
    have hno := (mem_ctx_iff f ctx t n).not.mp (not_or.mpr ⟨h1, h2⟩)
    exact hout n (not_or.mp hno).1 (not_or.mp hno).2
  · rintro ⟨hctx, hrep, hroot, hnd, hout⟩
    obtain ⟨hc, ht, hs⟩ := rep_join.mp hrep
    refine ⟨⟨hc, hs, hptr ▸ hctx⟩, ht, hroot, (ids_plug_perm f ctx t).nodup_iff.mp hnd,
      fun n h1 h2 => ?_⟩
    have hno := (mem_ctx_iff f ctx t n).not.mpr (not_or.mpr ⟨h1, h2⟩)
    exact hout n (not_or.mp hno).1 (not_or.mp hno).2

theorem Placed.up (h : Placed base s (⟨c, d, u⟩ :: ctx) t) : Placed base s ctx (join c d t u) :=
  placed_cons.mp h

theorem Placed.down (h : Placed base s ctx (join c d t u)) : Placed base s (⟨c, d, u⟩ :: ctx) t :=
  placed_cons.mpr h

theorem Placed.turn (h : Placed base s (⟨c, d, u⟩ :: ctx) t) :
    Placed base s (⟨c, d.opp, t⟩ :: ctx) u := by
  refine down ?_
  rw [join_opp]
  exact h.up

theorem placed_append {c1 : CellCtx} :
    Placed base s (c1 ++ ctx) t ↔ Placed base s ctx (fill c1 t) := by
  induction c1 generalizing t with
  | nil => exact Iff.rfl
  | cons f c1 ih => exact placed_cons.trans ih

namespace Placed

theorem whole (h : Placed base s ctx t) : Placed base s [] (fill ctx t) :=
  placed_append.mp ((append_nil ctx).symm ▸ h)

theorem focus (h : Placed base s [] (fill ctx t)) : Placed base s ctx t :=
  append_nil ctx ▸ placed_append.mpr h

theorem node (h : Placed base s ctx (join c d t u)) :
    s.node c.id = c.toNode d (ptr t) (ptr u) (ctxPar ctx) := (rep_join.mp h.rep).1

theorem maxHighOf (h : Placed base s ctx t) : maxHighOf s (ptr t) = topMax maxHigh t := by
  cases t with
  | nil => rfl
  | node c l r => exact congrArg IntervalNode.inMaxHigh h.rep.1

section

variable (h : Placed base s ctx (join c d t u))
include h

/-- The addresses at the place are different from each other. -/
theorem distinct : (c.id ∉ ids t ∧ c.id ∉ ids u ∧ c.id ∉ ctxIds ctx) ∧
      (ids t).Nodup ∧ (ids u).Nodup ∧ (ctxIds ctx).Nodup ∧
      (∀ n ∈ ids t, n ∉ ids u ∧ n ∉ ctxIds ctx) ∧ ∀ n ∈ ids u, n ∉ ctxIds ctx := by
  have hnd := ((ids_join_perm c d t u).append_right (ctxIds ctx)).nodup_iff.mp h.nodup
  rw [cons_append, nodup_cons, mem_append, mem_append, not_or, not_or,
    nodup_append, nodup_append] at hnd
  obtain ⟨⟨⟨ht, hu⟩, hc⟩, ⟨hnt, hnu, htu⟩, hnc, hdis⟩ := hnd
  refine ⟨⟨ht, hu, hc⟩, hnt, hnu, hnc, fun n hn => ⟨fun hn' => htu n hn n hn' rfl, fun hn' =>
    hdis n (mem_append_left _ hn) n hn' rfl⟩, fun n hn hn' =>
    hdis n (mem_append_right _ hn) n hn' rfl⟩

/-- Write to the node at the place, but not to its pointers. -/
theorem modify (c' : Cell) (hid : c'.id = c.id) (g : IntervalNode → IntervalNode)
    (hg : g (c.toNode d (ptr t) (ptr u) (ctxPar ctx)) = c'.toNode d (ptr t) (ptr u) (ctxPar ctx)) :
    Placed base (s.modify c.id g) ctx (join c' d t u) := by
  obtain ⟨⟨hct, hcu, hcc⟩, -⟩ := h.distinct
  obtain ⟨hc, ht, hu⟩ := rep_join.mp h.rep
  have hother : ∀ n, n ≠ c.id → (s.modify c.id g).node n = s.node n := fun n hn => if_neg hn
  have hptr : ptr (join c' d t u) = ptr (join c d t u) := by rw [ptr_join, ptr_join, hid]
  refine ⟨?_, rep_join.mpr ⟨?_, ?_, ?_⟩, ?_, ?_, fun n h1 h2 => ?_⟩
  · rw [hptr]
    exact h.frames.congr fun n hn => hother n fun heq => hcc (heq ▸ hn)
  · rw [hid, ← hg, ← hc]
    exact if_pos rfl
  · exact hid ▸ ht.congr fun n hn => hother n fun heq => hct (heq ▸ hn)
  · exact hid ▸ hu.congr fun n hn => hother n fun heq => hcu (heq ▸ hn)
  · rw [ptr_fill_congr ctx hptr]
    exact h.root
  · refine ((ids_join_perm c' d t u).append_right _).nodup_iff.mpr ?_
    rw [hid]
    exact ((ids_join_perm c d t u).append_right _).nodup_iff.mp h.nodup
  · rw [mem_ids_join, hid, ← mem_ids_join (d := d)] at h1
    rw [hother n fun heq => h1 (heq ▸ mem_ids_join.mpr (.inl rfl))]
    exact h.outside n h1 h2

theorem setIntree (b : Bool) : Placed base (s.setIntree c.id b) ctx (join (c.setIntree b) d t u) :=
  h.modify (c.setIntree b) rfl _ (toNode_setIntree ..)

theorem setColor (k : RbColor) : Placed base (s.setColor c.id k) ctx (join (c.setColor k) d t u) :=
  h.modify (c.setColor k) rfl (fun x => x.setColor k) (toNode_setColor ..)

theorem setMaxHigh (k : ℕ) : Placed base (s.setMaxHigh c.id k) ctx (join (c.setMaxHigh k) d t u) :=
  h.modify (c.setMaxHigh k) rfl (fun x => x.setMaxHigh k) (toNode_setMaxHigh ..)

theorem computeMaxHigh : computeMaxHigh s c.id =
      max c.extent.stop (max (topMax maxHigh t) (topMax maxHigh u)) := by
  have ht := h.down.maxHighOf
  have hu := h.down.turn.maxHighOf
  rw [Lustre.computeMaxHigh, intervalHigh, h.node, toNode_extent]
  cases d with
  | left =>
    change max _ (max (Lustre.maxHighOf s (ptr t)) (Lustre.maxHighOf s (ptr u))) = _
    rw [ht, hu]
  | right =>
    change max _ (max (Lustre.maxHighOf s (ptr u)) (Lustre.maxHighOf s (ptr t))) = _
    rw [ht, hu, Nat.max_comm (topMax maxHigh u)]

end

end Placed

end Placed

/-! ## Rotations -/

section Modify

variable (s : IntervalTree) (n m : ℕ)

theorem modify_node (f : IntervalNode → IntervalNode) :
    (s.modify n f).node m = if m = n then f (s.node m) else s.node m := rfl

@[simp] theorem setChild_node (d : Side) (p : Option ℕ) : (s.setChild n d p).node m =
    if m = n then (s.node m).setChild d p else s.node m := rfl

@[simp] theorem setParent_node (p : Option ℕ) : (s.setParent n p).node m =
    if m = n then (s.node m).setParent p else s.node m := rfl

@[simp] theorem setColor_node (c : RbColor) : (s.setColor n c).node m =
    if m = n then (s.node m).setColor c else s.node m := rfl

@[simp] theorem setChild_root (d : Side) (p : Option ℕ) : (s.setChild n d p).root = s.root := rfl

@[simp] theorem setParent_root (p : Option ℕ) : (s.setParent n p).root = s.root := rfl

end Modify

open IntervalTree (onNode)

section Rotate

variable {base : ℕ → IntervalNode} {s : IntervalTree} {ctx : CellCtx} {t u v : CellTree} {x y : Cell}
  {d : Side}

section

variable {p q r par : Option ℕ} (hx : s.node x.id = x.toNode d p (some y.id) par)
  (hy : s.node y.id = y.toNode d q r (some x.id)) (hxy : x.id ≠ y.id) (hqx : q ≠ some x.id)
include hx hy hxy hqx

/-- What a rotation writes: the two nodes, the parent pointer of the subtree that
changes hands, and the pointer to the rotated tree. -/
theorem rotateLinks_node (hqy : q ≠ some y.id) (hpx : par ≠ some x.id) (hpy : par ≠ some y.id)
    (hpq : ∀ n, par = some n → q ≠ some n) (n : ℕ) : (rotateLinks d s x.id y.id).node n =
      if n = x.id then x.toNode d p q (some y.id)
      else if n = y.id then y.toNode d (some x.id) r par
      else if some n = q then (s.node n).setParent (some x.id)
      else if some n = par then (s.node n).relink d x.id (some y.id)
      else s.node n := by
  -- neither pointer need be there
  cases q with
  | none =>
    cases par with
    | none =>
      simp [rotateLinks, onNode, replaceChild, hx, hy, hxy]
      split_ifs <;> simp_all
    | some z =>
      have hzx : z ≠ x.id := fun h => hpx (congrArg some h)
      have hzy : z ≠ y.id := fun h => hpy (congrArg some h)
      simp [rotateLinks, onNode, replaceChild, hx, hy, hxy, hzx, hzy, IntervalNode.relink]
      split_ifs <;> simp_all
  | some b =>
    have hbx : x.id ≠ b := fun h => hqx (congrArg some h.symm)
    cases par with
    | none =>
      simp [rotateLinks, onNode, replaceChild, hx, hy, hxy, hbx]
      split_ifs <;> simp_all
    | some z =>
      have hzx : z ≠ x.id := fun h => hpx (congrArg some h)
      have hzy : z ≠ y.id := fun h => hpy (congrArg some h)
      have hzb : z ≠ b := fun h => hpq z rfl (congrArg some h.symm)
      simp [rotateLinks, onNode, replaceChild, hx, hy, hxy, hbx, hzx, hzy, hzb, IntervalNode.relink]
      split_ifs <;> simp_all

theorem rotateLinks_root :
    (rotateLinks d s x.id y.id).root = if par = none then some y.id else s.root := by
  cases q with
  | none => cases par <;> simp [rotateLinks, onNode, replaceChild, hx, hy, hxy]
  | some b =>
    have hbx : x.id ≠ b := fun h => hqx (congrArg some h.symm)
    cases par <;> simp [rotateLinks, onNode, replaceChild, hx, hy, hxy, hbx]

end

theorem Placed.rotateLinks (h : Placed base s ctx (join x d t (join y d u v))) :
    Placed base (rotateLinks d s x.id y.id) ctx (join y d (join x d t u) v) := by
  have hx := h.node
  have hy := h.down.turn.node
  obtain ⟨⟨hxt, hxj, hxc⟩, hnt, hnj, hnc, htj, hjc⟩ := h.distinct
  obtain ⟨⟨hyu, hyv, hyr⟩, hnu, hnv, -, huv, -⟩ := h.down.turn.distinct
  rw [ptr_join] at hx
  rw [mem_ids_join, not_or, not_or] at hxj
  obtain ⟨hxy, hxu, hxv⟩ := hxj
  have hyt : y.id ∉ ids t := fun hin => (htj _ hin).1 (mem_ids_join.mpr (.inl rfl))
  have hyc : y.id ∉ ctxIds ctx := hjc _ (mem_ids_join.mpr (.inl rfl))
  have huc : ∀ n ∈ ids u, n ∉ ctxIds ctx := fun n hn => hjc n (mem_ids_join.mpr (.inr (.inl hn)))
  have hvc : ∀ n ∈ ids v, n ∉ ctxIds ctx := fun n hn => hjc n (mem_ids_join.mpr (.inr (.inr hn)))
  have htu : ∀ n ∈ ids t, n ∉ ids u := fun n hn hn' =>
    (htj n hn).1 (mem_ids_join.mpr (.inr (.inl hn')))
  have hnode := rotateLinks_node hx hy hxy (fun hp => hxu (mem_ids_of_ptr hp))
    (fun hp => hyu (mem_ids_of_ptr hp)) (fun hp => hxc (mem_ctxIds_of_par hp))
    (fun hp => hyc (mem_ctxIds_of_par hp))
    (fun n hp hq => huc n (mem_ids_of_ptr hq) (mem_ctxIds_of_par hp))
  -- a node that is none of the four stays as it is
  have hsame : ∀ n, n ≠ x.id → n ≠ y.id → n ∉ ids u → n ∉ ctxIds ctx →
      (Lustre.rotateLinks d s x.id y.id).node n = s.node n := fun n h1 h2 h3 h4 => by
    rw [hnode, if_neg h1, if_neg h2, if_neg fun heq => h3 (mem_ids_of_ptr heq.symm),
      if_neg fun heq => h4 (mem_ctxIds_of_par heq.symm)]
  obtain ⟨-, ht, hj⟩ := rep_join.mp h.rep
  obtain ⟨-, hu, hv⟩ := rep_join.mp hj
  refine ⟨?_, rep_join.mpr ⟨?_, rep_join.mpr ⟨?_, ?_, ?_⟩, ?_⟩, ?_, ?_, fun n h1 h2 => ?_⟩
  · have hframes := h.frames
    rw [ptr_join] at hframes ⊢
    refine hframes.relink d hnc hxc fun n hn => ?_
    have hnx : n ≠ x.id := fun heq => hxc (heq ▸ hn)
    have hny : n ≠ y.id := fun heq => hyc (heq ▸ hn)
    rw [hnode, if_neg hnx, if_neg hny, if_neg fun heq => huc n (mem_ids_of_ptr heq.symm) hn]
  · rw [hnode, if_neg (Ne.symm hxy), if_pos rfl, ptr_join]
  · rw [hnode, if_pos rfl]
  · exact ht.congr fun n hn => hsame n (fun heq => hxt (heq ▸ hn)) (fun heq => hyt (heq ▸ hn))
      (htu n hn) (htj n hn).2
  · refine hu.reparent hnu fun n hn => ?_
    have hnx : n ≠ x.id := fun heq => hxu (heq ▸ hn)
    have hny : n ≠ y.id := fun heq => hyu (heq ▸ hn)
    rw [hnode, if_neg hnx, if_neg hny]
    split
    · rfl
    · exact if_neg fun heq => huc n hn (mem_ctxIds_of_par heq.symm)
  · exact hv.congr fun n hn => hsame n (fun heq => hxv (heq ▸ hn)) (fun heq => hyv (heq ▸ hn))
      (fun hn' => (huv n hn').1 hn) (hvc n hn)
  · rw [rotateLinks_root hx hy hxy fun hp => hxu (mem_ids_of_ptr hp)]
    split
    · next hpar =>
      cases ctx with
      | nil => exact (ptr_join ..).symm
      | cons f ctx => cases hpar
    · next hpar => rw [h.root, ptr_fill_of_par hpar]
  · refine List.Perm.nodup_iff ?_ |>.mp h.nodup
    refine List.Perm.append_right _ ?_
    refine (ids_join_perm x d t _).trans (((ids_join_perm y d u v).append_left _).cons _ |>.trans ?_)
    refine List.Perm.trans ?_ (ids_join_perm y d _ v).symm
    refine List.Perm.trans ?_ ((ids_join_perm x d t u).append_right _ |>.cons _).symm
    rw [cons_append, append_assoc]
    exact (perm_middle.cons _).trans (List.Perm.swap _ _ _)
  · rw [mem_ids_join, mem_ids_join, not_or, not_or, not_or, not_or] at h1
    obtain ⟨hny, ⟨hnx, hnt', hnu'⟩, hnv'⟩ := h1
    rw [hsame n hnx hny hnu' h2]
    refine h.outside n ?_ h2
    rw [mem_ids_join, mem_ids_join, not_or, not_or, not_or, not_or]
    exact ⟨hnx, hnt', hny, hnu', hnv'⟩

/-- `__rotate_left` and `__rotate_right`. -/
theorem Placed.rotate (h : Placed base s ctx (join x d t (join y d u v))) :
    ∃ s', rotate d s x.id = some s' ∧ Placed base s' ctx (join (y.setMaxHigh x.maxHigh) d
        (join (x.setMaxHigh (max x.extent.stop
          (max (topMax maxHigh t) (topMax maxHigh u)))) d t u) v) := by
  have hx := h.node
  rw [ptr_join] at hx
  refine ⟨_, by rw [Lustre.rotate, hx, toNode_child_opp]; rfl, ?_⟩
  have hlinks := h.rotateLinks
  have hmax : ((Lustre.rotateLinks d s x.id y.id).node x.id).inMaxHigh = x.maxHigh := by
    rw [hlinks.down.node, toNode_maxHigh]
  have hrot := (hlinks.setMaxHigh x.maxHigh).down
  rw [rotateChangeMaxhigh, hmax]
  rw [hrot.computeMaxHigh]
  exact (hrot.setMaxHigh _).up

end Rotate

end Lustre
