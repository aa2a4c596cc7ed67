import Lustre.IntervalErase

/-!
# Erasing an interval between two subtrees

The next node `y` is the leftmost one of the right subtree. It is unlinked, takes the
place of the erased node `x`, and then `update_maxhigh` runs twice: from where `y` was
and from where it is now. If `y` was the right child of `x` and had no child, the first
run starts at `x` itself, which is no longer in the tree (`firstClimb_detached`).

`intervalErase_spec` is the whole call.
-/

namespace Lustre

open List Cell BinaryTree

/-! ## The next node -/

section Next

variable {base : ℕ → IntervalNode} {s : IntervalTree} {ctx : CellCtx} {t u : CellTree} {x y : Cell}
  {d : Side} {n : ℕ}

/-- `interval_first` and `interval_last`: all frames are on one side. -/
theorem intervalEnd_spec (fuel : ℕ) (h : Placed base s ctx t) (hn : ptr t = some n)
    (hfuel : t.inorder.length ≤ fuel) :
    ∃ path y u, t = fill path (join y d .nil u) ∧ (∀ f ∈ path, f.side = d) ∧
      intervalEnd d fuel s n = some y.id := by
  induction fuel generalizing ctx t n with
  | zero =>
    cases t with
    | nil => cases hn
    | node c l r => simp at hfuel
  | succ fuel ih =>
    have hne : t ≠ .nil := by
      rintro rfl
      cases hn
    obtain ⟨c, a, b, rfl⟩ := exists_join hne d
    cases (ptr_join ..).symm.trans hn
    have hchild : (s.node c.id).child d = ptr a := by rw [h.node, toNode_child]
    rw [length_inorder_join] at hfuel
    rw [intervalEnd, hchild]
    cases ha : ptr a with
    | none =>
      cases a with
      | nil => exact ⟨[], c, b, rfl, nofun, rfl⟩
      | node => cases ha
    | some m =>
      obtain ⟨path, y, u, rfl, hpath, hend⟩ := ih h.down ha (by omega)
      refine ⟨path ++ [⟨c, d, b⟩], y, u, by rw [fill_append]; rfl, ?_, hend⟩
      simp only [mem_append, mem_singleton]
      rintro f (hf | rfl)
      · exact hpath f hf
      · rfl

end Next

/-! ## The next node takes the place -/

open Cell (toNode_parent unMax maxHigh entry color)

open Function (update update_self update_of_ne)

section Swap

variable {base : ℕ → IntervalNode} {s : IntervalTree} {ctx path : CellCtx} {l u : CellTree} {x y : Cell}
  {d : Side} {b p : ℕ}

theorem replaceChild_unlink {f : Frame Cell} (q : Option ℕ)
    (h : Placed base s (f :: ctx) (join y d .nil u)) :
    replaceChild .left (s.onNode (ptr u) fun s c => s.setParent c q) y.id (ptr u) =
      (s.onNode (ptr u) fun s c => s.setParent c q).setChild f.value.id f.side (ptr u) := by
  obtain ⟨⟨-, hyu, -⟩, -, -, -, -, huc⟩ := h.distinct
  have hstay : ∀ n ∉ ids u, (s.onNode (ptr u) fun s c => s.setParent c q).node n = s.node n :=
    fun n hn => by rw [onNode_setParent_node, if_neg fun hp => hn (mem_ids_of_ptr hp.symm)]
  have hfu : f.value.id ∉ ids u := fun hin => huc _ hin mem_cons_self
  have hside := h.child_eq_iff (ptr_join y d .nil u) .left
  have hpar : ((s.onNode (ptr u) fun s c => s.setParent c q).node y.id).inParent =
      some f.value.id := by
    rw [hstay _ hyu, h.node, toNode_parent]
    rfl
  rw [← hstay _ hfu] at hside
  simp only [replaceChild, hpar, hside]
  cases f.side <;> rfl

section

variable (h : Placed base s (path ++ ⟨x, .right, l⟩ :: ctx) (join y .left .nil u))
include h

/-- `y` is unlinked the way `interval_erase` does it. -/
theorem Placed.unlinkNext (hpath : ∀ f ∈ path, f.side = .left)
    (hp : ctxPar (path ++ ⟨x, .right, l⟩ :: ctx) = some p) :
    Placed (update base y.id (s.node y.id))
      (if p = x.id then (s.onNode (ptr u) fun s c => s.setParent c (some p)).setChild p .right (ptr u)
        else (s.onNode (ptr u) fun s c => s.setParent c (some p)).setChild p .left (ptr u))
      (path ++ ⟨x, .right, l⟩ :: ctx) u := by
  have hun := h.unlink .left
  rw [hp] at hun
  cases path with
  | nil =>
    cases hp
    rw [if_pos rfl]
    rwa [replaceChild_unlink (some x.id) h] at hun
  | cons f path =>
    cases hp
    obtain ⟨-, -, -, hnd, -⟩ := h.distinct
    have hne : f.value.id ≠ x.id := fun heq => (nodup_cons.mp hnd).1 <| by
      rw [append_eq, ctxIds_append, heq]
      exact mem_append_right _ (mem_append_right _ mem_cons_self)
    rw [if_neg hne]
    rwa [replaceChild_unlink (some f.value.id) h, hpath f mem_cons_self] at hun

/-- `y` takes the place of `x`, which is left outside with its old contents. -/
theorem Placed.swap (hl : ptr l = some b) (hpath : ∀ f ∈ path, f.side = .left)
    (hp : ctxPar (path ++ ⟨x, .right, l⟩ :: ctx) = some p) :
    ∃ base', Placed base' (intervalTakePlace (if p = x.id then (s.onNode (ptr u) fun s c =>
          s.setParent c (some p)).setChild p .right (ptr u)
        else (s.onNode (ptr u) fun s c => s.setParent c (some p)).setChild p .left (ptr u)) y.id x.id b)
        ctx (join (y.setColor x.color) .left l (fill path u)) ∧
      base' x.id = x.toNode .left (ptr l) (ptr (fill path u)) (ctxPar ctx) ∧
      ∀ m, m ≠ x.id → m ≠ y.id → base' m = base m := by
  have hun := h.unlinkNext hpath hp
  generalize (if p = x.id then _ else _) = s2 at hun ⊢
  obtain ⟨⟨-, hyu, hyc⟩, -⟩ := h.distinct
  rw [ctxIds_append, mem_append, not_or] at hyc
  obtain ⟨hypath, hyc⟩ := hyc
  have hplace : Placed (update base y.id (s.node y.id)) s2 ctx
      (join x .left l (fill path u)) := (placed_append.mp hun).up
  have hyt : y.id ∉ ids (join x .left l (fill path u)) := fun hin => by
    rcases mem_ids_join.mp hin with heq | hin | hin
    · exact hyc (heq ▸ mem_cons_self)
    · exact hyc (mem_cons_of_mem _ (mem_append_left _ hin))
    · exact (mem_ids_fill.mp hin).elim hyu hypath
  have hyctx : y.id ∉ ctxIds ctx := fun hin =>
    hyc (mem_cons_of_mem _ (mem_append_right _ hin))
  have hynode : s2.node y.id = s.node y.id := by
    rw [hplace.outside y.id hyt hyctx, update_self]
  have htake := hplace.takePlace hl hyt hyctx
  rw [hynode, h.node, toNode_intree, toNode_maxHigh, toNode_extent] at htake
  refine ⟨_, htake, ?_, fun m hx hy => ?_⟩
  · rw [update_self, hplace.node]
  · rw [update_of_ne hx, update_of_ne hy]

end

end Swap

/-! ## The first climb -/

/-- The state after the first `update_maxhigh`: `y` stands where `x` was with some
maximum `j`, everything below it is right, and the tree had the maximum `z`. The second
climb starts at `y` with the maximum that `x` still holds; `stop` and `go` say that it
ends where it should. -/
structure Climbed (base base' : ℕ → IntervalNode) (x y : Cell) (path path' ctx ctx' : CellCtx)
    (l u : CellTree) (s : IntervalTree) (j z : ℕ) : Prop where
  placed : Placed base' s (path' ++ ⟨y.setMaxHigh j, .right, l⟩ :: ctx') u
  alikePath : Alike unMax path path'
  alikeCtx : Alike unMax ctx ctx'
  maxPath : CtxMax high maxHigh path' (topMax maxHigh u)
  maxCtx : CtxMax high maxHigh ctx' z
  stop : (base' x.id).inMaxHigh ≤
      max y.high (max (topMax maxHigh l) (topMax maxHigh (fill path' u))) →
    z = max y.high (max (topMax maxHigh l) (topMax maxHigh (fill path' u)))
  go : max y.high (max (topMax maxHigh l) (topMax maxHigh (fill path' u))) <
    (base' x.id).inMaxHigh → z = (base' x.id).inMaxHigh
  others : ∀ n, n ≠ x.id → base' n = base n
  self : ∃ k, base' x.id = (base x.id).setMaxHigh k

open BinaryTree (topMax_nil inorder)

section FirstClimb

variable {base : ℕ → IntervalNode} {s : IntervalTree} {ctx path : CellCtx} {l u : CellTree}
  {x y : Cell} {p : ℕ}

/-- The first climb starts at the tree that was below `y`, or at the parent of it. -/
theorem firstClimb_attached (fuel : ℕ) (h : Placed base s (path ++ ⟨y, .right, l⟩ :: ctx) u)
    (hx : (base x.id).inMaxHigh = x.maxHigh) (hctx : CtxMax high maxHigh ctx x.maxHigh)
    (hpath : CtxMax high maxHigh path y.maxHigh) (hu : MaxOk high maxHigh u)
    (hym : y.maxHigh = max y.high (topMax maxHigh u)) (hxm : ∀ path', Alike unMax path path' →
      CtxMax high maxHigh path' (topMax maxHigh u) →
      max y.high (max (topMax maxHigh l) (topMax maxHigh (fill path' u))) ≤ x.maxHigh)
    (hfuel : path.length + 1 < fuel) :
    ∃ s' path' j, updateMaxhigh fuel s ((ptr u).or (ctxPar (path ++ ⟨y, .right, l⟩ :: ctx))) y.maxHigh =
      some s' ∧ Climbed base base x y path path' ctx ctx l u s' j x.maxHigh := by
  obtain ⟨s', path', h', halike, hmax, hend⟩ := updateMaxhigh_hole fuel h hu hpath (by omega)
    (by omega)
  have hle := hxm path' halike hmax
  rcases hend with hend | ⟨fuel', hle', hend⟩
  · exact ⟨s', path', y.maxHigh, hend, h', halike, .refl _ _, hmax, hctx,
      fun hstop => Nat.le_antisymm (hx ▸ hstop) hle, fun _ => hx.symm, fun _ _ => rfl, _, rfl⟩
  · -- the climb comes to `y`, which covers what it covered before
    have hcover := hmax.le_fill
    obtain _ | fuel' := fuel'
    · omega
    obtain ⟨hcall, hset⟩ := updateMaxhigh_node (k := y.maxHigh) fuel' (placed_append.mp h').up rfl
    rw [if_pos (by omega)] at hcall
    refine ⟨_, path', _, hend.trans hcall, placed_append.mpr hset.down, halike, .refl _ _, hmax, hctx,
      fun hstop => Nat.le_antisymm (hx ▸ hstop) hle, fun _ => hx.symm, fun _ _ => rfl, _, rfl⟩

/-- `y` was the right child of `x` and had no child: the first climb starts at `x`, and
if it leaves `x` it comes to the parent of `y`. -/
theorem firstClimb_detached (fuel : ℕ) (h : Placed base s ctx (join y .left l .nil))
    (hx : base x.id = x.toNode .left (ptr l) none (ctxPar ctx))
    (hxt : x.id ∉ ids (join y .left l .nil)) (hxc : x.id ∉ ctxIds ctx)
    (hctx : CtxMax high maxHigh ctx x.maxHigh) (hym : y.maxHigh = y.high)
    (hxm : x.maxHigh = max x.high (max (topMax maxHigh l) y.maxHigh)) (hfuel : ctx.length < fuel) :
    ∃ s' base' ctx' j z, updateMaxhigh fuel s (some x.id) y.maxHigh = some s' ∧
      Climbed base base' x y [] [] ctx ctx' l .nil s' j z := by
  obtain _ | fuel := fuel
  · omega
  have hnode : s.node x.id = x.toNode .left (ptr l) none (ctxPar ctx) :=
    (h.outside x.id hxt hxc).trans hx
  have hcomp : computeMaxHigh s x.id = max x.high (topMax maxHigh l) := by
    rw [computeMaxHigh, intervalHigh, hnode, toNode_extent]
    show max x.high (max (maxHighOf s (ptr l)) 0) = _
    rw [h.down.maxHighOf, Nat.max_zero]
  generalize hk : max x.high (topMax maxHigh l) = k at hcomp
  have hset : Placed (update base x.id ((base x.id).setMaxHigh k)) (s.setMaxHigh x.id k) ctx
      (join y .left l .nil) := h.modifyOutside hxt hxc fun n => n.setMaxHigh k
  have hnode' : (s.setMaxHigh x.id k).node x.id =
      (x.setMaxHigh k).toNode .left (ptr l) none (ctxPar ctx) := by
    rw [IntervalTree.setMaxHigh, modify_node, if_pos rfl, hnode, toNode_setMaxHigh]
  have hread : ((update base x.id ((base x.id).setMaxHigh k)) x.id).inMaxHigh = k := by
    rw [update_self]
    rfl
  have hcall : updateMaxhigh (fuel + 1) s (some x.id) y.maxHigh =
      if y.maxHigh ≤ k then some (s.setMaxHigh x.id k)
      else updateMaxhigh fuel (s.setMaxHigh x.id k) (ctxPar ctx) y.maxHigh := by
    rw [updateMaxhigh, hcomp]
    simp only [hnode', toNode_maxHigh, toNode_parent, ge_iff_le]
    rfl
  have hothers : ∀ n, n ≠ x.id →
      (update base x.id ((base x.id).setMaxHigh k)) n = base n := fun n hn =>
    update_of_ne hn _ _
  rw [hcall]
  by_cases hle : y.maxHigh ≤ k
  · refine ⟨_, _, ctx, y.maxHigh, x.maxHigh, if_pos hle, Placed.down (d := .right) hset, .nil,
      .refl _ _, trivial, hctx, ?_, ?_, hothers, k, update_self ..⟩
    · rw [hread, fill, topMax_nil]
      omega
    · omega
  · rw [if_neg hle]
    have htop : topMax maxHigh (join y .left l .nil) = y.maxHigh := topMax_join ..
    have hkeep : x.maxHigh = y.maxHigh := by omega
    obtain ⟨s', ctx', hs', h', halike, hmax⟩ := updateMaxhigh_climb fuel hset (hkeep ▸ hctx)
      (by omega) (by omega)
    refine ⟨s', _, ctx', y.maxHigh, y.maxHigh, hs', Placed.down (d := .right) h', .nil, halike,
      trivial, hmax, ?_, ?_, hothers, k, update_self ..⟩
    · rw [hread, fill, topMax_nil]
      omega
    · omega

/-- Without `y` the right subtree has no greater maximum. -/
theorem topMax_fill_le {path' : CellCtx}
    (hR : MaxOk high maxHigh (fill path (join y .left .nil u)))
    (halike : Alike unMax path path') (hmax : CtxMax high maxHigh path' (topMax maxHigh u)) :
    topMax maxHigh (fill path' u) ≤ topMax maxHigh (fill path (join y .left .nil u)) := by
  have hu := (maxOk_join.mp (maxOk_fill.mp hR).2).2.2
  refine (maxOk_fill.mpr ⟨hmax, hu⟩).topMax_le fun a ha => ?_
  have hin : a.high ∈ (fill path u).inorder.map high := by
    rw [halike.map_inorder_fill unMax_high]
    exact mem_map_of_mem ha
  obtain ⟨a', ha', heq⟩ := mem_map.mp hin
  rw [← heq]
  refine hR.topMax.1 a' ?_
  simp only [inorder_fill, join, inorder, mem_append, mem_cons] at ha' ⊢
  rcases ha' with (ha' | ha') | ha'
  · exact .inl (.inl ha')
  · exact .inl (.inr (.inr (.inr ha')))
  · exact .inr ha'

theorem firstClimb_spec (fuel : ℕ) {k : RbColor}
    (h : Placed base s ctx (join (y.setColor k) .left l (fill path u)))
    (hx : base x.id = x.toNode .left (ptr l) (ptr (fill path u)) (ctxPar ctx))
    (hxt : x.id ∉ ids (join (y.setColor k) .left l (fill path u))) (hxc : x.id ∉ ctxIds ctx)
    (hp : ctxPar (path ++ ⟨x, .right, l⟩ :: ctx) = some p)
    (hctx : CtxMax high maxHigh ctx x.maxHigh)
    (hxm : MaxOk high maxHigh (join x .left l (fill path (join y .left .nil u))))
    (hfuel : (path ++ ⟨x, .right, l⟩ :: ctx).length < fuel) :
    ∃ s' base' path' ctx' j z, updateMaxhigh fuel s ((ptr u).or (some p)) y.maxHigh = some s' ∧
      Climbed base base' x (y.setColor k) path path' ctx ctx' l u s' j z := by
  rw [length_append, length_cons] at hfuel
  obtain ⟨hxm, hl, hR⟩ := maxOk_join.mp hxm
  obtain ⟨hpath, hy⟩ := maxOk_fill.mp hR
  obtain ⟨hym, -, hu⟩ := maxOk_join.mp hy
  rw [topMax_nil, Nat.zero_max] at hym
  by_cases hdet : path = [] ∧ u = .nil
  · obtain ⟨rfl, rfl⟩ := hdet
    cases hp
    rw [topMax_nil, Nat.max_zero] at hym
    obtain ⟨s', base', ctx', j, z, hs', h'⟩ := firstClimb_detached fuel h hx hxt hxc hctx hym hxm
      (by simp at hfuel; omega)
    exact ⟨s', base', [], ctx', j, z, hs', h'⟩
  · have hfocus : Placed base s (path ++ ⟨y.setColor k, .right, l⟩ :: ctx) u :=
      placed_append.mpr (Placed.down (d := .right) h)
    have hstart : (ptr u).or (some p) =
        (ptr u).or (ctxPar (path ++ ⟨y.setColor k, .right, l⟩ :: ctx)) := by
      cases path with
      | nil =>
        cases u with
        | nil => exact absurd ⟨rfl, rfl⟩ hdet
        | node => rfl
      | cons f path => rw [← hp]; rfl
    have hmax : (base x.id).inMaxHigh = x.maxHigh := by rw [hx, toNode_maxHigh]
    have hyle : y.high ≤ topMax maxHigh (fill path (join y .left .nil u)) :=
      hR.topMax.1 y (by simp [inorder_fill, join])
    obtain ⟨s', path', j, hs', h'⟩ := firstClimb_attached fuel hfocus hmax hctx hpath hu hym
      (fun path' halike hmax => by
        have := topMax_fill_le hR halike hmax
        show max y.high _ ≤ _
        omega) (by omega)
    exact ⟨s', base, path', ctx, j, _, hstart ▸ hs', h'⟩

end FirstClimb

/-! ## The second climb -/

theorem ctxIds_eq_of_alike {c c' : CellCtx} (h : Alike unMax c c') : ctxIds c = ctxIds c' := by
  induction h with
  | nil => rfl
  | cons hv _ ih =>
    have hid := congrArg Prod.fst (unMax_entry _ _ hv)
    simp only [entry] at hid
    simp only [ctxIds, hid, ih]

theorem Climbed.second {base base' : ℕ → IntervalNode} {x y : Cell} {path path' ctx ctx' : CellCtx}
    {l u : CellTree} {s : IntervalTree} {j z : ℕ} (fuel : ℕ)
    (h : Climbed base base' x y path path' ctx ctx' l u s j z)
    (hxt : x.id ∉ ids (join y .left l (fill path u))) (hxc : x.id ∉ ctxIds ctx)
    (hl : MaxOk high maxHigh l) (hu : MaxOk high maxHigh u) (hfuel : ctx.length < fuel) :
    ∃ s' ctx'' m, updateMaxhigh fuel s (some y.id) (s.node x.id).inMaxHigh = some s' ∧
      Placed base' s' (path' ++ ⟨y.setMaxHigh m, .right, l⟩ :: ctx'') u ∧ Alike unMax ctx' ctx'' ∧
      MaxOk high maxHigh (fill (path' ++ ⟨y.setMaxHigh m, .right, l⟩ :: ctx'') u) := by
  have hplace := (placed_append.mp h.placed).up
  have hout : s.node x.id = base' x.id := by
    refine hplace.outside x.id (fun hin => hxt ?_) (ctxIds_eq_of_alike h.alikeCtx ▸ hxc)
    rw [mem_ids_join, mem_ids_fill, ← ctxIds_eq_of_alike h.alikePath] at hin
    rw [mem_ids_join, mem_ids_fill]
    exact hin.imp_right Or.symm
  have hstop := h.stop
  have hgo := h.go
  rw [Nat.max_comm (topMax maxHigh l)] at hstop hgo
  rw [hout]
  obtain ⟨s', ctx'', hs', h', halike, hmax⟩ := updateMaxhigh_at fuel hplace rfl h.maxCtx hstop hgo
    (h.alikeCtx.length_eq ▸ hfuel)
  refine ⟨s', ctx'', _, hs', placed_append.mpr h'.down, halike, ?_⟩
  rw [fill_append, fill, maxOk_fill, Frame.plug, topMax_join, maxOk_join]
  exact ⟨hmax, rfl, maxOk_fill.mpr ⟨h.maxPath, hu⟩, hl⟩

/-! ## The whole call -/

section EraseTwo

variable {base : ℕ → IntervalNode} {s : IntervalTree} {ctx path : CellCtx} {l u : CellTree}
  {x y : Cell} {b fuel : ℕ}

/-- `interval_erase` of a node with two children. -/
theorem intervalEraseTwo_spec (h : Placed base s (path ++ ⟨x, .right, l⟩ :: ctx) (join y .left .nil u))
    (hb : ptr l = some b) (hpath : ∀ f ∈ path, f.side = .left)
    (hnext : intervalNext fuel s x.id = some (some y.id))
    (hrb : RedBlack color (fill (path ++ ⟨x, .right, l⟩ :: ctx) (join y .left .nil u)))
    (hmax : MaxOk high maxHigh (fill (path ++ ⟨x, .right, l⟩ :: ctx) (join y .left .nil u)))
    (hfuel : (path ++ ⟨x, .right, l⟩ :: ctx).length + 1 < fuel) :
    ∃ s' r base', intervalEraseTwo fuel s x.id b = some s' ∧ Erased base base' x
      ((before ctx).map entry ++ (entries l ++ y.entry :: entries (fill path u)) ++
        (behind ctx).map entry) s' r := by
  obtain ⟨p, hp⟩ : ∃ p, ctxPar (path ++ ⟨x, .right, l⟩ :: ctx) = some p := by
    cases path <;> exact ⟨_, rfl⟩
  have hright : (s.node y.id).inRight = ptr u := by rw [h.node]; rfl
  have hparent : (s.node y.id).inParent = some p := by rw [h.node, toNode_parent, hp]
  have hcolor : (s.node y.id).inColor = y.color := by rw [h.node, toNode_color]
  obtain ⟨base1, h1, hx1, hothers1⟩ := h.swap hb hpath hp
  simp only [intervalEraseTwo, hnext, hright, hparent, hcolor, Option.bind_eq_bind, Option.bind_some]
  generalize intervalTakePlace (if p = x.id then _ else _) y.id x.id b = s1 at h1 ⊢
  have hy1 : (s1.node y.id).inMaxHigh = y.maxHigh := congrArg IntervalNode.inMaxHigh h1.node
  -- `x` is not in the new tree
  obtain ⟨⟨hxR, hxl, hxc⟩, -⟩ := (placed_append.mp h).up.distinct
  rw [mem_ids_fill, mem_ids_join, not_or, not_or, not_or] at hxR
  obtain ⟨⟨hxy, -, hxu⟩, hxpath⟩ := hxR
  have hxt : x.id ∉ ids (join (y.setColor x.color) .left l (fill path u)) := fun hin => by
    rcases mem_ids_join.mp hin with heq | hin | hin
    · exact hxy heq
    · exact hxl hin
    · exact (mem_ids_fill.mp hin).elim hxu hxpath
  rw [fill_append, fill, maxOk_fill, Frame.plug, topMax_join] at hmax
  obtain ⟨hctx, hxm⟩ := hmax
  change MaxOk high maxHigh (join x .left l (fill path (join y .left .nil u))) at hxm
  have hl := (maxOk_join.mp hxm).2.1
  have hu := (maxOk_join.mp (maxOk_fill.mp (maxOk_join.mp hxm).2.2).2).2.2
  obtain ⟨s2, base2, path', ctx', j, z, hs2, h2⟩ := firstClimb_spec fuel h1 hx1 hxt hxc hp hctx hxm
    (by omega)
  rw [length_append, length_cons] at hfuel
  obtain ⟨s3, ctx'', m, hs3, h3, halike, hmax3⟩ := h2.second fuel hxt hxc hl hu (by omega)
  have hs3' : updateMaxhigh fuel s2 (some y.id) (s2.node x.id).inMaxHigh = some s3 := hs3
  have halike' := h2.alikeCtx.trans halike
  -- the parent for the repair of the colours
  have hpar : some (if p = x.id then y.id else p) =
      ctxPar (path' ++ ⟨(y.setColor x.color).setMaxHigh m, .right, l⟩ :: ctx'') := by
    rcases h2.alikePath with _ | ⟨hv, -⟩
    · rw [if_pos (Option.some.inj hp).symm]
      rfl
    · have hne : p ≠ x.id := fun heq => hxpath (by
        rw [← heq, ← Option.some.inj hp]
        exact mem_cons_self)
      rw [if_neg hne, ← hp]
      exact congrArg some (congrArg Prod.fst (unMax_entry _ _ hv))
  have hcolors : Alike color (path ++ ⟨x, .right, l⟩ :: ctx)
      (path' ++ ⟨(y.setColor x.color).setMaxHigh m, .right, l⟩ :: ctx'') :=
    (h2.alikePath.mono unMax_color).append (.cons rfl (halike'.mono unMax_color))
  have hlist : entries (fill (path' ++ ⟨(y.setColor x.color).setMaxHigh m, .right, l⟩ :: ctx'') u) =
      (before ctx).map entry ++ (entries l ++ y.entry :: entries (fill path u)) ++
        (behind ctx).map entry := by
    obtain ⟨hfst, hsnd⟩ := halike'.inorder unMax_entry
    have hR := h2.alikePath.map_inorder_fill unMax_entry u
    rw [fill_append, fill, entries, inorder_fill, map_append, map_append, hfst, hsnd,
      entries, entries, hR]
    simp only [Frame.plug, join, inorder, map_append, map_cons]
    rfl
  obtain ⟨n, hbal, hjoin, -⟩ := redBlack_fill.mp hrb
  obtain ⟨s', r, hs', h', hr⟩ := eraseColor_spec ⟨h3, hlist, hmax3⟩ ((hcolors.ctxBalanced.2 n).mp hbal)
    hjoin (by rw [← hcolors.length_eq, length_append, length_cons]; exact hfuel)
  obtain ⟨k, hk⟩ := h2.self
  have hyr : y.id ∈ ids r := by
    have hin : y.entry ∈ entries r := by
      rw [show entries r = _ from h'.list]
      simp
    obtain ⟨a, ha, hay⟩ := mem_map.mp hin
    exact mem_map.mpr ⟨a, ha, congrArg Prod.fst hay⟩
  refine ⟨s', r, base2, ?_, h', hr, fun n hx hn => ?_, ?_, ?_⟩
  · simp only [hy1, hs2, hs3', Option.bind_some, hpar]
    exact hs'
  · exact (h2.others n hx).trans (hothers1 n hx fun heq => hn (heq ▸ hyr))
  · rw [hk, hx1]
    rfl
  · rw [hk, hx1]
    rfl

/-- `interval_erase` of a node that is marked as being in the tree. -/
theorem intervalErase_place {r : CellTree} (h : Placed base s ctx (join x .left l r))
    (hx : x.intree = true) (hrb : RedBlack color (fill ctx (join x .left l r)))
    (hmax : MaxOk high maxHigh (fill ctx (join x .left l r)))
    (hfuel : (fill ctx (join x .left l r)).inorder.length + 1 < fuel) :
    ∃ s' t base', intervalErase fuel s x.id = some s' ∧ Erased base base' (x.setIntree false)
      ((before ctx).map entry ++ (entries l ++ entries r) ++ (behind ctx).map entry) s' t := by
  have hlen := length_le_inorder ctx (join x .left l r)
  rw [length_inorder_join] at hlen
  have hmark : (s.node x.id).inIntree = true := by rw [h.node, toNode_intree, hx]
  have h1 : Placed base (s.setIntree x.id false) ctx (join (x.setIntree false) .left l r) :=
    h.setIntree false
  have hrb1 : RedBlack color (fill ctx (join (x.setIntree false) .left l r)) := by
    rw [redBlack_fill] at hrb ⊢
    exact hrb
  have hmax1 : MaxOk high maxHigh (fill ctx (join (x.setIntree false) .left l r)) := by
    rw [maxOk_fill] at hmax ⊢
    exact hmax
  have hleft : ((s.setIntree x.id false).node x.id).inLeft = ptr l :=
    congrArg IntervalNode.inLeft h1.node
  have hright : ((s.setIntree x.id false).node x.id).inRight = ptr r :=
    congrArg IntervalNode.inRight h1.node
  rw [intervalErase, hmark, if_neg (not_not.mpr rfl)]
  simp only [hleft, hright]
  cases hl : ptr l with
  | none =>
    obtain rfl := ptr_eq_none.mp hl
    obtain ⟨s', t, base', hs', h'⟩ := intervalEraseOne_spec fuel h1 hrb1 hmax1 (by omega)
    exact ⟨s', t, base', hs', h'⟩
  | some b =>
    cases hr : ptr r with
    | none =>
      obtain rfl := ptr_eq_none.mp hr
      obtain ⟨s', t, base', hs', h'⟩ := intervalEraseOne_spec fuel (d := .right) h1 hrb1 hmax1
        (by omega)
      rw [hl] at hs'
      refine ⟨s', t, base', hs', ?_⟩
      simpa [entries] using h'
    | some c =>
      have hchild : ((s.setIntree x.id false).node x.id).child .right = some c :=
        (congrArg (IntervalNode.child · .right) h1.node).trans ((toNode_child_opp ..).trans hr)
      obtain ⟨path, y, u, rfl, hpath, hend⟩ := intervalEnd_spec (d := .left) fuel
        (Placed.down (d := .right) h1) hr (by omega)
      have hnext : intervalNext fuel (s.setIntree x.id false) x.id = some (some y.id) := by
        rw [intervalNext, intervalStep, hchild]
        exact congrArg (Option.map some) hend
      have hlen' := length_le_inorder path (join y .left .nil u)
      have hwhole : fill ctx (join (x.setIntree false) .left l (fill path (join y .left .nil u))) =
          fill (path ++ ⟨x.setIntree false, .right, l⟩ :: ctx) (join y .left .nil u) := by
        rw [fill_append]
        rfl
      rw [hwhole] at hrb1 hmax1
      obtain ⟨s', t, base', hs', h'⟩ := intervalEraseTwo_spec
        (placed_append.mpr (Placed.down (d := .right) h1)) hl hpath hnext hrb1 hmax1
        (by rw [length_append, length_cons]; omega)
      refine ⟨s', t, base', hs', ?_⟩
      have hentries : entries (fill path (join y .left .nil u)) = y.entry :: entries (fill path u) := by
        simp [entries, inorder_fill, before_of_left hpath, join]
      rwa [hentries]

/-- `interval_erase` of a node of the tree: the tree holds the others. -/
theorem intervalErase_spec {t : CellTree} {n : ℕ} {e : IntervalExtent} (h : Stored base s t)
    (hn : (n, true, e) ∈ entries t) (hfuel : t.inorder.length + 1 < fuel) :
    ∃ s' t' base' l1 l2, intervalErase fuel s n = some s' ∧ Stored base' s' t' ∧
      entries t = l1 ++ (n, true, e) :: l2 ∧ entries t' = l1 ++ l2 ∧
      (∀ m, m ≠ n → m ∉ ids t' → base' m = base m) ∧ (base' n).inIntree = false ∧
      (base' n).inExtent = e := by
  obtain ⟨c, hc, hce⟩ := mem_map.mp hn
  obtain ⟨m1, m2, hm⟩ := append_of_mem hc
  obtain ⟨ctx, l, r, rfl, rfl, rfl⟩ := exists_fill hm
  obtain rfl : c.id = n := congrArg (fun a : ℕ × Bool × IntervalExtent => a.1) hce
  have hmark : c.intree = true := congrArg (fun a : ℕ × Bool × IntervalExtent => a.2.1) hce
  obtain rfl : c.extent = e := congrArg (fun a : ℕ × Bool × IntervalExtent => a.2.2) hce
  obtain ⟨s', t', base', hs', h'⟩ := intervalErase_place (x := c) (l := l) (r := r) h.placed.focus hmark
    h.redBlack h.maxOk hfuel
  have hes : entries t' = (before ctx).map entry ++ entries l ++ (entries r ++
      (behind ctx).map entry) := by
    rw [show entries t' = _ from h'.located.list]
    simp only [append_assoc]
  have hold : entries (fill ctx (.node c l r)) = (before ctx).map entry ++ entries l ++
      (c.id, true, c.extent) :: (entries r ++ (behind ctx).map entry) := by
    rw [← hce]
    simp [entries, inorder_fill]
  have hsub : (entries t').Sublist (entries (fill ctx (.node c l r))) := by
    rw [hes, hold]
    exact (List.Sublist.refl _).append (sublist_cons_self ..)
  exact ⟨s', t', base', _, _, hs', ⟨h'.located.toPlaced, h'.redBlack, h'.located.maxOk,
    h.sorted.sublist hsub, fun a ha => h.marked a (hsub.subset ha)⟩, hold, hes, h'.others, h'.mark,
    h'.extent⟩

end EraseTwo

end Lustre
