import Lustre.IntervalInsert

/-!
# Erasing an interval

A node with at most one child is unlinked (`Placed.unlink`). For a node with two
children the next one is unlinked and takes its place (`Placed.takePlace`). Then
`update_maxhigh` climbs until the maximum no longer changes
(`updateMaxhigh_frames`), and the colours are repaired.
-/

namespace Lustre

open BinaryTree List

/-! ## Unlinking a node -/

open Cell

open Function (update update_self update_of_ne)

section Unlink

variable {base : ℕ → IntervalNode} {s : IntervalTree} {ctx : CellCtx} {t l r : CellTree} {x : Cell}
  {d : Side} {n : ℕ}

section

variable {par : Option ℕ} (e : Side) (q : Option ℕ) (hx : (s.node n).inParent = par)
include e q hx

theorem replaceChild_node (m : ℕ) : (replaceChild e s n q).node m =
      if some m = par then (s.node m).relink e n q else s.node m := by
  subst hx
  rw [replaceChild]
  cases (s.node n).inParent with
  | none => rfl
  | some p =>
    simp only [setChild_node, Option.some_inj]
    split
    · next h => rw [h]; rfl
    · rfl

theorem replaceChild_root : (replaceChild e s n q).root = if par = none then q else s.root := by
  subst hx
  rw [replaceChild]
  cases (s.node n).inParent <;> rfl

end

theorem onNode_setParent_node (p q : Option ℕ) (m : ℕ) :
    (s.onNode p fun s c => s.setParent c q).node m =
      if some m = p then (s.node m).setParent q else s.node m := by
  cases p with
  | none => rfl
  | some c => simp [IntervalTree.onNode]

theorem onNode_setParent_root (p q : Option ℕ) :
    (s.onNode p fun s c => s.setParent c q).root = s.root := by
  cases p <;> rfl

/-- A node without a child on the side `d` is replaced by the tree on the other side. -/
theorem Placed.unlink (h : Placed base s ctx (join x d .nil t)) (e : Side) :
    Placed (update base x.id (s.node x.id))
      (replaceChild e (s.onNode (ptr t) fun s c => s.setParent c (ctxPar ctx)) x.id (ptr t)) ctx t := by
  obtain ⟨⟨-, hxt, hxc⟩, -, hnt, hnc, -, htc⟩ := h.distinct
  have hx : ((s.onNode (ptr t) fun s c => s.setParent c (ctxPar ctx)).node x.id).inParent =
      ctxPar ctx := by
    rw [onNode_setParent_node, if_neg fun hp => hxt (mem_ids_of_ptr hp.symm), h.node, toNode_parent]
  have hnode := replaceChild_node e (ptr t) hx
  simp only [onNode_setParent_node] at hnode
  obtain ⟨-, -, hrep⟩ := rep_join.mp h.rep
  have hframes := h.frames
  rw [ptr_join] at hframes
  refine ⟨hframes.relink e hnc hxc fun n hn => ?_, hrep.reparent hnt fun n hn => ?_, ?_, ?_,
    fun n h1 h2 => ?_⟩
  · have hnp : some n ≠ ptr t := fun hp => htc n (mem_ids_of_ptr hp.symm) hn
    simp only [hnode, if_neg hnp]
  · rw [hnode, if_neg fun hp => htc n hn (mem_ctxIds_of_par hp.symm)]
  · rw [replaceChild_root e (ptr t) hx, onNode_setParent_root]
    split
    · next hpar =>
      cases ctx with
      | nil => rfl
      | cons f ctx => cases hpar
    · next hpar => rw [h.root, ptr_fill_of_par hpar]
  · exact nodup_append.mpr ⟨hnt, hnc, fun a ha b hb heq => htc a ha (heq ▸ hb)⟩
  · rw [hnode, if_neg fun hp => h2 (mem_ctxIds_of_par hp.symm),
      if_neg fun hp => h1 (mem_ids_of_ptr hp.symm)]
    by_cases hnx : n = x.id
    · rw [hnx, update_self]
    · rw [update_of_ne hnx]
      refine h.outside n (fun hin => ?_) h2
      rcases mem_ids_join.mp hin with heq | hnil | hin
      · exact hnx heq
      · exact absurd hnil not_mem_nil
      · exact h1 hin

section

variable {y a : ℕ} {q par : Option ℕ} (hx : s.node x.id = x.toNode .left (some a) q par)
  (hxy : x.id ≠ y)
include hx hxy

theorem intervalTakePlace_node (hxa : x.id ≠ a) (hya : a ≠ y) (hyq : q ≠ some y)
    (hpx : par ≠ some x.id) (hpy : par ≠ some y) (hpa : par ≠ some a)
    (hpq : ∀ b, q = some b → par ≠ some b) (m : ℕ) :
    (intervalTakePlace s y x.id a).node m =
      if m = y then toNode ⟨y, x.color, (s.node y).inIntree, (s.node y).inMaxHigh,
        (s.node y).inExtent⟩ .left (some a) q par
      else if m = a ∨ some m = q then (s.node m).setParent (some y)
      else if some m = par then (s.node m).relink .left x.id (some y)
      else s.node m := by
  have hc : (s.node x.id).inColor = x.color := by rw [hx]; rfl
  have hr : (s.node x.id).inRight = q := by rw [hx]; rfl
  have hl : (s.node x.id).inLeft = some a := by rw [hx]; rfl
  have hp : (s.node x.id).inParent = par := by rw [hx]; rfl
  -- first the node is given the pointers and the colour of the old one
  have hdress : ∀ m, ((((s.setColor y x.color).setChild y .right q).setChild y .left
      (some a)).setParent y par).node m = if m = y then toNode ⟨y, x.color,
        (s.node y).inIntree, (s.node y).inMaxHigh, (s.node y).inExtent⟩ .left (some a) q par
      else s.node m := fun m => by
    simp only [setParent_node, setChild_node, setColor_node]
    split
    · next h => subst h; rfl
    · rfl
  simp only [intervalTakePlace, setParent_node, setChild_node, setColor_node, hxy, hxa, if_false, hc,
    hr, hl, hp]
  generalize (((s.setColor y x.color).setChild y .right q).setChild y .left (some a)).setParent y
    par = s1 at hdress ⊢
  have hx1 : (s1.node x.id).inParent = par := by rw [hdress, if_neg hxy, hp]
  have hlink := replaceChild_node .left (some y) hx1
  have hxr : ((replaceChild .left s1 x.id (some y)).node x.id).inRight = q := by
    rw [hlink, if_neg fun heq => hpx heq.symm, hdress, if_neg hxy, hr]
  rw [hxr, onNode_setParent_node, setParent_node, hlink, hdress]
  by_cases hm : m = y
  · subst hm
    rw [if_pos rfl, if_pos rfl, if_neg (Ne.symm hyq), if_neg (Ne.symm hya), if_neg (Ne.symm hpy)]
  · rw [if_neg hm, if_neg hm]
    by_cases hma : m = a
    · subst hma
      have hor : m = m ∨ some m = q := .inl rfl
      rw [if_pos rfl, if_neg (Ne.symm hpa), if_pos hor]
      split <;> rfl
    · rw [if_neg hma]
      by_cases hmq : some m = q
      · have hmp : ¬ some m = par := fun heq => hpq m hmq.symm heq.symm
        have hor : m = a ∨ some m = q := .inr hmq
        rw [if_pos hmq, if_neg hmp, if_pos hor]
      · rw [if_neg hmq, if_neg (not_or.mpr ⟨hma, hmq⟩)]

theorem intervalTakePlace_root :
    (intervalTakePlace s y x.id a).root = if par = none then some y else s.root := by
  have hp : (((((s.setColor y (s.node x.id).inColor).setChild y .right (s.node x.id).inRight).setChild
      y .left (s.node x.id).inLeft).setParent y (s.node x.id).inParent).node x.id).inParent = par := by
    simp only [setParent_node, setChild_node, setColor_node, hxy, if_false, hx]
    rfl
  have hroot := replaceChild_root .left (some y) hp
  simp only [intervalTakePlace, setParent_node, setChild_node, setColor_node, hxy, if_false]
  rw [onNode_setParent_root, setParent_root, hroot]
  rfl

end

/-- A node outside the tree takes the place of `x`. -/
theorem Placed.takePlace {y : ℕ} {b : ℕ} (h : Placed base s ctx (join x .left l r))
    (hl : ptr l = some b) (hyt : y ∉ ids (join x .left l r)) (hyc : y ∉ ctxIds ctx) :
    Placed (update base x.id (s.node x.id)) (intervalTakePlace s y x.id b) ctx
      (join ⟨y, x.color, (s.node y).inIntree, (s.node y).inMaxHigh, (s.node y).inExtent⟩ .left l
        r) := by
  obtain ⟨⟨hxl, hxr, hxc⟩, hnl, hnr, hnc, hlr, hrc⟩ := h.distinct
  rw [mem_ids_join, not_or, not_or] at hyt
  obtain ⟨hyx, hyl, hyr⟩ := hyt
  have hx := h.node
  rw [hl] at hx
  have hb := mem_ids_of_ptr hl
  have hpar : ∀ {n}, n ∈ ids l ∨ n ∈ ids r ∨ n = x.id ∨ n = y → ctxPar ctx ≠ some n := by
    rintro n hn hp
    have hpn := mem_ctxIds_of_par hp
    rcases hn with hn | hn | rfl | rfl
    · exact (hlr n hn).2 hpn
    · exact hrc n hn hpn
    · exact hxc hpn
    · exact hyc hpn
  have hptr : ∀ {n}, n ∉ ids r → ptr r ≠ some n := fun hn hp => hn (mem_ids_of_ptr hp)
  have hnode := intervalTakePlace_node hx (Ne.symm hyx) (fun heq => hxl (heq ▸ hb))
    (fun heq => hyl (heq ▸ hb)) (hptr hyr) (hpar (.inr (.inr (.inl rfl))))
    (hpar (.inr (.inr (.inr rfl)))) (hpar (.inl hb)) fun n hn => hpar (.inr (.inl (mem_ids_of_ptr hn)))
  have hchild : ∀ {n}, n ∈ ids l ∨ n ∈ ids r → n ≠ y ∧ some n ≠ ctxPar ctx := by
    rintro n hn
    refine ⟨?_, (hpar (hn.imp_right .inl)).symm⟩
    rintro rfl
    exact hn.elim hyl hyr
  have hstay : ∀ {n}, n ∉ ids l → n ∉ ids r → ¬ (n = b ∨ some n = ptr r) := by
    rintro n hnl hnr (rfl | hp)
    · exact hnl hb
    · exact hnr (mem_ids_of_ptr hp.symm)
  obtain ⟨-, hrl, hrr⟩ := rep_join.mp h.rep
  refine ⟨?_, rep_join.mpr ⟨?_, hrl.reparent hnl fun n hn => ?_, hrr.reparent hnr fun n hn => ?_⟩, ?_,
    ?_, fun n h1 h2 => ?_⟩
  · have hframes := h.frames
    rw [ptr_join] at hframes ⊢
    refine hframes.relink .left hnc hxc fun n hn => ?_
    have hny : n ≠ y := fun heq => hyc (heq ▸ hn)
    rw [hnode, if_neg hny, if_neg]
    exact hstay (fun hnl => (hlr n hnl).2 hn) fun hnr => hrc n hnr hn
  · rw [hnode, if_pos rfl, hl]
  · obtain ⟨hny, hnp⟩ := hchild (.inl hn)
    have hnr' : some n ≠ ptr r := fun hp => (hlr n hn).1 (mem_ids_of_ptr hp.symm)
    simp only [hnode, hny, hnp, hnr', or_false, if_false, hl, Option.some_inj]
  · obtain ⟨hny, hnp⟩ := hchild (.inr hn)
    have hnb : n ≠ b := fun heq => (hlr b hb).1 (heq ▸ hn)
    simp only [hnode, hny, hnp, hnb, false_or, if_false]
  · rw [intervalTakePlace_root hx (Ne.symm hyx)]
    split
    · next hnone =>
      cases ctx with
      | nil => rw [fill, ptr_join]
      | cons f ctx => cases hnone
    · next hsome => rw [h.root, ptr_fill_of_par hsome]
  · have hperm := ids_join_perm ⟨y, x.color, (s.node y).inIntree, (s.node y).inMaxHigh,
      (s.node y).inExtent⟩ .left l r
    refine (hperm.append_right (ctxIds ctx)).nodup_iff.mpr ?_
    have hold := ((ids_join_perm x .left l r).append_right (ctxIds ctx)).nodup_iff.mp h.nodup
    rw [cons_append, nodup_cons] at hold ⊢
    refine ⟨?_, hold.2⟩
    rw [mem_append, mem_append]
    exact not_or.mpr ⟨not_or.mpr ⟨hyl, hyr⟩, hyc⟩
  · rw [mem_ids_join, not_or, not_or] at h1
    obtain ⟨hny, hnl, hnr⟩ := h1
    have hnp : some n ≠ ctxPar ctx := fun hp => h2 (mem_ctxIds_of_par hp.symm)
    rw [hnode, if_neg hny, if_neg (hstay hnl hnr), if_neg hnp]
    by_cases hnx : n = x.id
    · rw [hnx, update_self]
    · rw [update_of_ne hnx]
      refine h.outside n (fun hin => ?_) h2
      rcases mem_ids_join.mp hin with heq | hin | hin
      · exact hnx heq
      · exact hnl hin
      · exact hnr hin

end Unlink

/-! ## `update_maxhigh` -/

section UpdateMaxhigh

variable {base : ℕ → IntervalNode} {s : IntervalTree} {ctx rest : CellCtx} {t u : CellTree} {c : Cell}
  {d : Side} {k : ℕ}

section

variable (fuel : ℕ)

theorem updateMaxhigh_node (h : Placed base s ctx (join c d t u)) {m : ℕ}
    (hm : m = max c.high (max (topMax maxHigh t) (topMax maxHigh u))) :
    updateMaxhigh (fuel + 1) s (some c.id) k = (if k ≤ m then some (s.setMaxHigh c.id m)
      else updateMaxhigh fuel (s.setMaxHigh c.id m) (ctxPar ctx) k) ∧
    Placed base (s.setMaxHigh c.id m) ctx (join (c.setMaxHigh m) d t u) := by
  have hset := h.setMaxHigh m
  have hcomp : computeMaxHigh s c.id = m := h.computeMaxHigh.trans hm.symm
  have hnode : (s.setMaxHigh c.id m).node c.id =
      (c.setMaxHigh m).toNode d (ptr t) (ptr u) (ctxPar ctx) := hset.node
  refine ⟨?_, hset⟩
  rw [updateMaxhigh, hcomp]
  simp only [hnode, toNode_maxHigh, toNode_parent, ge_iff_le]
  rfl

/-- The climb through the frames `ctx`, around a tree whose maximum was `k` and is now
no greater. Either it stops there, or it goes on above. -/
theorem updateMaxhigh_frames (h : Placed base s (ctx ++ rest) t)
    (hctx : CtxMax high maxHigh ctx k) (hle : topMax maxHigh t ≤ k) (hfuel : ctx.length ≤ fuel) :
    ∃ s' ctx', Placed base s' (ctx' ++ rest) t ∧ Alike unMax ctx ctx' ∧
      CtxMax high maxHigh ctx' (topMax maxHigh t) ∧
      (updateMaxhigh fuel s (ctxPar (ctx ++ rest)) k = some s' ∨
        ∃ fuel', fuel ≤ fuel' + ctx.length ∧
          updateMaxhigh fuel s (ctxPar (ctx ++ rest)) k = updateMaxhigh fuel' s' (ctxPar rest) k) := by
  induction ctx generalizing s t fuel with
  | nil => exact ⟨s, [], h, .nil, trivial, .inr ⟨fuel, Nat.le_refl _, rfl⟩⟩
  | cons f ctx ih =>
    obtain ⟨a, d, u⟩ := f
    obtain _ | fuel := fuel
    · simp at hfuel
    obtain ⟨ha, hu, hctx⟩ := hctx
    change a.maxHigh = max a.high (max k (topMax maxHigh u)) at ha
    obtain ⟨hcall, hset⟩ := updateMaxhigh_node (k := k) fuel (Placed.up h) rfl
    rw [show ctxPar (⟨a, d, u⟩ :: ctx ++ rest) = some a.id from rfl, hcall]
    generalize hm : max a.high (max (topMax maxHigh t) (topMax maxHigh u)) = m at hset ⊢
    by_cases hkm : k ≤ m
    · -- the maximum is what it was
      have : a.maxHigh = m := by omega
      exact ⟨_, ⟨a.setMaxHigh m, d, u⟩ :: ctx, hset.down, .cons rfl (.refl _ _),
        ⟨hm.symm, hu, this ▸ hctx⟩, .inl (if_pos hkm)⟩
    · have : a.maxHigh = k := by omega
      obtain ⟨s', ctx', hs', halike, hmax, hstop⟩ := ih fuel hset (this ▸ hctx)
        (by rw [topMax_join]; exact Nat.le_of_not_le hkm) (by simp at hfuel; omega)
      rw [topMax_join] at hmax
      refine ⟨s', ⟨a.setMaxHigh m, d, u⟩ :: ctx', hs'.down, .cons rfl halike, ⟨hm.symm, hu, hmax⟩, ?_⟩
      rw [if_neg hkm]
      refine hstop.imp_right fun ⟨fuel', hle', heq⟩ => ⟨fuel', ?_, heq⟩
      rw [length_cons]
      omega

theorem updateMaxhigh_none : updateMaxhigh fuel s none k = some s := by
  cases fuel <;> rfl

theorem updateMaxhigh_climb (h : Placed base s ctx t)
    (hctx : CtxMax high maxHigh ctx k) (hle : topMax maxHigh t ≤ k) (hfuel : ctx.length ≤ fuel) :
    ∃ s' ctx', updateMaxhigh fuel s (ctxPar ctx) k = some s' ∧ Placed base s' ctx' t ∧
      Alike unMax ctx ctx' ∧ CtxMax high maxHigh ctx' (topMax maxHigh t) := by
  have h' : Placed base s (ctx ++ []) t := by rwa [append_nil]
  obtain ⟨s', ctx', hs', halike, hmax, hend⟩ := updateMaxhigh_frames fuel h' hctx hle hfuel
  rw [append_nil] at hs' hend
  refine ⟨s', ctx', ?_, hs', halike, hmax⟩
  rcases hend with hend | ⟨fuel', -, hend⟩
  · exact hend
  · exact hend.trans (updateMaxhigh_none fuel')

/-- The climb from the tree in the hole, or from its parent if there is no tree. -/
theorem updateMaxhigh_hole (h : Placed base s (ctx ++ rest) t)
    (ht : MaxOk high maxHigh t) (hctx : CtxMax high maxHigh ctx k)
    (hle : topMax maxHigh t ≤ k) (hfuel : ctx.length < fuel) :
    ∃ s' ctx', Placed base s' (ctx' ++ rest) t ∧ Alike unMax ctx ctx' ∧
      CtxMax high maxHigh ctx' (topMax maxHigh t) ∧
      (updateMaxhigh fuel s ((ptr t).or (ctxPar (ctx ++ rest))) k = some s' ∨
        ∃ fuel', fuel ≤ fuel' + ctx.length + 1 ∧
          updateMaxhigh fuel s ((ptr t).or (ctxPar (ctx ++ rest))) k =
            updateMaxhigh fuel' s' (ctxPar rest) k) := by
  obtain _ | fuel := fuel
  · omega
  cases t with
  | nil =>
    obtain ⟨s', ctx', hs', halike, hmax, hstop⟩ := updateMaxhigh_frames (fuel + 1) h hctx hle
      (by omega)
    refine ⟨s', ctx', hs', halike, hmax, hstop.imp_right fun ⟨fuel', hle', heq⟩ => ?_⟩
    exact ⟨fuel', Nat.le_succ_of_le hle', heq⟩
  | node c l r =>
    obtain ⟨hcall, hset⟩ := updateMaxhigh_node (d := .left) (k := k) fuel h ht.1
    rw [show (ptr (.node c l r)).or (ctxPar (ctx ++ rest)) = some c.id from rfl, hcall]
    by_cases hkm : k ≤ c.maxHigh
    · have hk : k = topMax maxHigh (.node c l r) := Nat.le_antisymm hkm hle
      exact ⟨_, ctx, hset, .refl _ _, hk ▸ hctx, .inl (if_pos hkm)⟩
    · rw [if_neg hkm]
      obtain ⟨s', ctx', hs', halike, hmax, hstop⟩ := updateMaxhigh_frames fuel hset hctx hle
        (by omega)
      refine ⟨s', ctx', hs', halike, hmax, hstop.imp_right fun ⟨fuel', hle', heq⟩ => ?_⟩
      exact ⟨fuel', Nat.succ_le_succ hle', heq⟩

/-- The climb from a node whose maximum is computed anew. The maximum of its tree was
`z`; the climb may stop at the node only if it still is. -/
theorem updateMaxhigh_at (h : Placed base s ctx (join c d t u)) {m z : ℕ}
    (hm : m = max c.high (max (topMax maxHigh t) (topMax maxHigh u)))
    (hctx : CtxMax high maxHigh ctx z) (hstop : k ≤ m → z = m) (hgo : m < k → z = k)
    (hfuel : ctx.length < fuel) : ∃ s' ctx', updateMaxhigh fuel s (some c.id) k = some s' ∧
      Placed base s' ctx' (join (c.setMaxHigh m) d t u) ∧ Alike unMax ctx ctx' ∧
      CtxMax high maxHigh ctx' m := by
  obtain _ | fuel := fuel
  · omega
  obtain ⟨hcall, hset⟩ := updateMaxhigh_node (k := k) fuel h hm
  rw [hcall]
  by_cases hkm : k ≤ m
  · exact ⟨_, ctx, if_pos hkm, hset, .refl _ _, hstop hkm ▸ hctx⟩
  · have hlt := Nat.lt_of_not_le hkm
    have htop : topMax maxHigh (join (c.setMaxHigh m) d t u) = m := topMax_join ..
    rw [if_neg hkm]
    have := updateMaxhigh_climb fuel hset (hgo hlt ▸ hctx) (by omega) (by omega)
    rwa [htop] at this

end

end UpdateMaxhigh

theorem ctxPar_eq_of_alike {c c' : CellCtx} (h : Alike unMax c c') : ctxPar c = ctxPar c' := by
  cases h with
  | nil => rfl
  | cons hv => exact congrArg some (congrArg Prod.fst (unMax_entry _ _ hv))

theorem Placed.modifyOutside {base : ℕ → IntervalNode} {s : IntervalTree} {ctx : CellCtx}
    {t : CellTree} {n : ℕ} (h : Placed base s ctx t) (h1 : n ∉ ids t) (h2 : n ∉ ctxIds ctx)
    (g : IntervalNode → IntervalNode) :
    Placed (update base n (g (base n))) (s.modify n g) ctx t := by
  have hother : ∀ m, m ≠ n → (s.modify n g).node m = s.node m := fun m hm => if_neg hm
  refine ⟨h.frames.congr fun m hm => hother m fun heq => h2 (heq ▸ hm),
    h.rep.congr fun m hm => hother m fun heq => h1 (heq ▸ hm), h.root, h.nodup, fun m hm1 hm2 => ?_⟩
  by_cases hm : m = n
  · rw [hm, update_self, ← h.outside n h1 h2]
    exact if_pos rfl
  · rw [hother m hm, update_of_ne hm, h.outside m hm1 hm2]

/-- What erasing `x` leaves: a red-black tree with the entries `es`, and `x` outside of
it, as it was but for its pointers and its maximum. -/
structure Erased (base base' : ℕ → IntervalNode) (x : Cell) (es : List (ℕ × Bool × IntervalExtent))
    (s : IntervalTree) (t : CellTree) : Prop where
  located : Located base' es s [] t
  redBlack : RedBlack color t
  others : ∀ n, n ≠ x.id → n ∉ ids t → base' n = base n
  mark : (base' x.id).inIntree = x.intree
  extent : (base' x.id).inExtent = x.extent

/-! ## A node with at most one child -/

section EraseOne

variable {base : ℕ → IntervalNode} {es : List (ℕ × Bool × IntervalExtent)} {s : IntervalTree}
  {ctx : CellCtx} {t : CellTree} {x : Cell} {d : Side} {n : ℕ}

/-- The end of `interval_erase`: `x` has been unlinked and `t` stands in its place. -/
theorem eraseColor_spec {fuel : ℕ} (h : Located base es s ctx t) (hctx : CtxBalanced color ctx n)
    (hx : Balanced color (join x d .nil t) n) (hfuel : ctx.length + 1 < fuel) :
    ∃ s' r, (if x.color = .black then intervalEraseColor fuel s (ptr t) (ctxPar ctx) else some s) =
      some s' ∧ Located base es s' [] r ∧ RedBlack color r := by
  rcases RbColor.cases x.color with hc | hc
  · obtain ⟨-, htb, -, ht⟩ := (balanced_red hc).mp hx
    exact ⟨s, _, if_neg (hc ▸ by decide), h.whole, redBlack_fill.mpr ⟨n, hctx, ht, .inl htb⟩⟩
  · obtain ⟨m, rfl, -, ht⟩ := (balanced_black hc).mp hx
    rw [if_pos hc]
    refine intervalEraseColor_spec h ⟨hctx, fun _ => ht, fun hred => ?_⟩ hfuel
    cases t with
    | nil => exact absurd trivial hred
    | node c l r =>
      have hcr := (RbColor.cases c.color).resolve_right hred
      exact Balanced.paint (d := .left) (c.setColor .black) ht hcr rfl

/-- `interval_erase` of a node without a child on the side `d`. -/
theorem intervalEraseOne_spec (fuel : ℕ) (h : Placed base s ctx (join x d .nil t))
    (hrb : RedBlack color (fill ctx (join x d .nil t)))
    (hmax : MaxOk high maxHigh (fill ctx (join x d .nil t))) (hfuel : ctx.length + 1 < fuel) :
    ∃ s' r base', intervalEraseOne fuel s x.id (ptr t) = some s' ∧ Erased base base' x
      ((before ctx).map entry ++ entries t ++ (behind ctx).map entry) s' r := by
  have hx := h.node
  have hunlink := h.unlink .left
  have hpar : (s.node x.id).inParent = ctxPar ctx := by rw [hx, toNode_parent]
  have hcolor : (s.node x.id).inColor = x.color := by rw [hx, toNode_color]
  -- the unlinked node still holds its old maximum
  have hold : ∀ s', Placed (update base x.id (s.node x.id)) s' ctx t →
      (s'.node x.id).inMaxHigh = x.maxHigh := fun s' h' => by
    obtain ⟨⟨-, hxt, hxc⟩, -⟩ := h.distinct
    rw [h'.outside x.id hxt hxc, update_self, hx, toNode_maxHigh]
  obtain ⟨hctx, hjoin⟩ := maxOk_fill.mp hmax
  rw [topMax_join] at hctx
  obtain ⟨hxm, -, ht⟩ := maxOk_join.mp hjoin
  simp only [intervalEraseOne, hpar, hcolor, hold _ hunlink]
  generalize replaceChild .left (s.onNode (ptr t) fun s c => s.setParent c (ctxPar ctx)) x.id
    (ptr t) = s1 at hunlink ⊢
  obtain ⟨s2, ctx', h2, halike, hmax2, hend⟩ := updateMaxhigh_hole fuel
    ((append_nil ctx).symm ▸ hunlink) ht hctx (by omega) (by omega)
  rw [append_nil] at h2 hend
  have hs2 : updateMaxhigh fuel s1 ((ptr t).or (ctxPar ctx)) x.maxHigh = some s2 := by
    rcases hend with hend | ⟨fuel', -, hend⟩
    · exact hend
    · exact hend.trans (updateMaxhigh_none fuel')
  have hpar2 : ctxPar ctx = ctxPar ctx' := ctxPar_eq_of_alike halike
  obtain ⟨hfst, hsnd⟩ := halike.inorder unMax_entry
  have hloc : Located (update base x.id (s.node x.id))
      ((before ctx).map entry ++ entries t ++ (behind ctx).map entry) s2 ctx' t := by
    refine ⟨h2, ?_, maxOk_fill.mpr ⟨hmax2, ht⟩⟩
    rw [entries, inorder_fill, map_append, map_append, hfst, hsnd]
    rfl
  obtain ⟨n, hbal, hjoin, -⟩ := redBlack_fill.mp hrb
  obtain ⟨s', r, hs', h', hr⟩ := eraseColor_spec hloc (((halike.mono unMax_color).ctxBalanced.2 n).mp
    hbal) hjoin (halike.length_eq ▸ hfuel)
  refine ⟨s', r, _, ?_, h', hr, fun n hn _ => update_of_ne hn _ _, ?_, ?_⟩
  · rw [hs2, hpar2]
    exact hs'
  · rw [update_self, hx, toNode_intree]
  · rw [update_self, hx, toNode_extent]

end EraseOne

end Lustre
