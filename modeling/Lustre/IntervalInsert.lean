import Lustre.IntervalBalance

/-!
# Inserting an interval

The descent of `interval_insert` raises the maxima on its way and stops at a node
with the same interval (`intervalInsertLoop_found`) or at the place for the new one
(`intervalInsertLoop_place`). `intervalInsert_spec` is the whole call.
-/

namespace Lustre

open List IntervalTree BinaryTree

/-! ## The order of intervals -/

/-- Intervals are ordered by start, then by end. -/
instance : LT IntervalExtent :=
  ⟨fun e1 e2 => e1.start < e2.start ∨ (e1.start = e2.start ∧ e1.stop < e2.stop)⟩

instance : DecidableLT IntervalExtent := fun e1 e2 =>
  inferInstanceAs (Decidable (e1.start < e2.start ∨ (e1.start = e2.start ∧ e1.stop < e2.stop)))

section Order

variable {e1 e2 e3 : IntervalExtent}

theorem extent_lt_iff :
    e1 < e2 ↔ e1.start < e2.start ∨ (e1.start = e2.start ∧ e1.stop < e2.stop) := Iff.rfl

theorem extent_lt_trans (h1 : e1 < e2) (h2 : e2 < e3) : e1 < e3 := by
  rw [extent_lt_iff] at *
  omega

theorem extent_lt_irrefl : ¬ e1 < e1 := by
  rw [extent_lt_iff]
  omega

theorem extentCompare_neg : extentCompare e1 e2 < 0 ↔ e1 < e2 := by
  rw [extentCompare, extent_lt_iff]
  split_ifs <;> omega

theorem extentEqual_iff : extentEqual e1 e2 = true ↔ e1 = e2 := by
  obtain ⟨a, b⟩ := e1
  obtain ⟨c, d⟩ := e2
  simp [extentEqual]

theorem extent_lt_or_gt (h : e1 ≠ e2) : e1 < e2 ∨ e2 < e1 := by
  obtain ⟨a, b⟩ := e1
  obtain ⟨c, d⟩ := e2
  simp only [ne_eq, IntervalExtent.mk.injEq, extent_lt_iff] at *
  omega

end Order

/-! ## Trees in memory -/

/-- The memory of `s` holds the interval tree `t`, and agrees with `base` elsewhere. -/
structure Stored (base : ℕ → IntervalNode) (s : IntervalTree) (t : CellTree) : Prop where
  placed : Placed base s [] t
  redBlack : RedBlack Cell.color t
  maxOk : MaxOk Cell.high Cell.maxHigh t
  sorted : (entries t).Pairwise fun a b => a.2.2 < b.2.2
  marked : ∀ a ∈ entries t, a.2.1 = true

/-- Intervals from left to right. -/
def Ordered (t : CellTree) : Prop := t.inorder.Pairwise fun a b => a.extent < b.extent

theorem ordered_iff {t : CellTree} : Ordered t ↔ (entries t).Pairwise fun a b => a.2.2 < b.2.2 := by
  rw [entries, pairwise_map]
  exact Iff.rfl

theorem ordered_node {c : Cell} {l r : CellTree} : Ordered (.node c l r) ↔
    Ordered l ∧ Ordered r ∧ (∀ a ∈ l.inorder, a.extent < c.extent) ∧
      (∀ b ∈ r.inorder, c.extent < b.extent) ∧
      ∀ a ∈ l.inorder, ∀ b ∈ r.inorder, a.extent < b.extent := by
  rw [Ordered, inorder, pairwise_append, pairwise_cons]
  simp only [mem_cons, forall_eq_or_imp]
  constructor
  · rintro ⟨hl, ⟨hcr, hr⟩, hlc⟩
    exact ⟨hl, hr, fun a ha => (hlc a ha).1, hcr, fun a ha => (hlc a ha).2⟩
  · rintro ⟨hl, hr, hlc, hcr, hlr⟩
    exact ⟨hl, ⟨hcr, hr⟩, fun a ha => ⟨hlc a ha, hlr a ha⟩⟩

/-! ## The descent -/

/-- The pointer that leads to the hole. -/
def slotOf : CellCtx → IntervalSlot
  | [] => .root
  | f :: _ => .child f.value.id f.side

variable {e : IntervalExtent}

section Descent

variable {base : ℕ → IntervalNode} {s : IntervalTree} {ctx : CellCtx} {t u : CellTree} {c : Cell}
  {d : Side} {n : ℕ}

theorem Placed.load (h : Placed base s ctx t) : s.load (slotOf ctx) = ptr t := by
  cases ctx with
  | nil => exact h.root
  | cons f ctx =>
    rw [slotOf, load, h.parent, Cell.toNode_child]

/-- The maximum at the place is raised to `k`. -/
theorem Placed.raise (h : Placed base s ctx (join c d t u)) (k : ℕ) :
    Placed base (if (s.node c.id).inMaxHigh < k then s.setMaxHigh c.id k else s) ctx
      (join (c.setMaxHigh (max c.maxHigh k)) d t u) := by
  rw [h.node, Cell.toNode_maxHigh]
  split
  · next hlt =>
    rw [Nat.max_eq_right (Nat.le_of_lt hlt)]
    exact h.setMaxHigh k
  · next hle =>
    rw [Nat.max_eq_left (Nat.le_of_not_lt hle)]
    exact h

theorem raise_extent (s : IntervalTree) (p n k : ℕ) (b : Prop) [Decidable b] :
    ((if b then s.setMaxHigh p k else s).node n).inExtent = (s.node n).inExtent := by
  split
  · rw [setMaxHigh, modify_node]
    split <;> rfl
  · rfl

theorem intervalInsertLoop_node (fuel : ℕ) (par : Option ℕ) {l r : CellTree}
    (h : Placed base s ctx (.node c l r)) (hn : (s.node n).inExtent = e) :
    intervalInsertLoop n (fuel + 1) s par (slotOf ctx) = if c.extent = e then some (s, .inl c.id)
      else intervalInsertLoop n fuel
        (if (s.node c.id).inMaxHigh < e.stop then s.setMaxHigh c.id e.stop else s) (some c.id)
        (.child c.id (if e < c.extent then .left else .right)) := by
  have hc : (s.node c.id).inExtent = c.extent := by
    rw [Placed.node (d := .left) h, Cell.toNode_extent]
  have hload : s.load (slotOf ctx) = some c.id := h.load
  simp only [intervalInsertLoop, hload, intervalHigh, raise_extent, hc, hn, extentEqual_iff,
    extentCompare_neg]

/-- An interval that is there is found, and nothing changes. -/
theorem intervalInsertLoop_found (hn : (s.node n).inExtent = e)
    (ha : c.extent = e) (fuel : ℕ) (par : Option ℕ) (h : Placed base s ctx t)
    (hmax : MaxOk Cell.high Cell.maxHigh t) (hord : Ordered t) (hc : c ∈ t.inorder)
    (hlt : t.inorder.length < fuel) :
    intervalInsertLoop n fuel s par (slotOf ctx) = some (s, .inl c.id) := by
  induction t generalizing ctx fuel par with
  | nil => exact absurd hc not_mem_nil
  | node a l r ihl ihr =>
    obtain _ | fuel := fuel
    · omega
    -- the maximum covers the interval, so it is not raised
    have hhigh : ¬ (s.node a.id).inMaxHigh < e.stop := by
      have := (hmax.topMax).1 c hc
      rw [Placed.node (d := .left) h, Cell.toNode_maxHigh, ← ha]
      exact Nat.not_lt.mpr this
    obtain ⟨-, hml, hmr⟩ := hmax
    obtain ⟨hol, hor, hla, har, -⟩ := ordered_node.mp hord
    rw [inorder, length_append, length_cons] at hlt
    rw [inorder, mem_append, mem_cons] at hc
    rw [intervalInsertLoop_node fuel par h hn, if_neg hhigh]
    rcases hc with hc | rfl | hc
    · have hlt' := ha ▸ hla c hc
      rw [if_neg fun heq => extent_lt_irrefl (heq ▸ hlt'), if_pos hlt']
      exact ihl fuel _ (Placed.down (d := .left) h) hml hol hc (by omega)
    · rw [if_pos ha]
    · have hlt' := ha ▸ har c hc
      rw [if_neg fun heq => extent_lt_irrefl (heq ▸ hlt'),
        if_neg fun hlt'' => extent_lt_irrefl (extent_lt_trans hlt' hlt'')]
      exact ihr fuel _ (Placed.down (d := .right) h) hmr hor hc (by omega)

/-- A cell without its maximum. -/
def Cell.unMax (c : Cell) : Cell := c.setMaxHigh 0

/-- An interval that is not there: the descent ends at its place, and on the way the
maxima have been raised. -/
theorem intervalInsertLoop_place {whole : CellTree} {ctx0 : CellCtx}
    (hn : (base n).inExtent = e) (hnew : n ∉ ids t ∧ n ∉ ctxIds ctx) (fuel : ℕ)
    (h : Placed base s ctx t) (hmax : MaxOk Cell.high Cell.maxHigh t)
    (hctx : CtxMax Cell.high Cell.maxHigh ctx (max (topMax Cell.maxHigh t) e.stop))
    (hord : Ordered t) (hno : ∀ c ∈ t.inorder, c.extent ≠ e) (hlt : t.inorder.length < fuel)
    (hwhole : fill ctx0 t = whole) (halike : Alike Cell.unMax ctx0 ctx)
    (hbefore : ∀ c ∈ before ctx0, c.extent < e) (hbehind : ∀ c ∈ behind ctx0, e < c.extent) :
    ∃ s' ctx' ctx1, intervalInsertLoop n fuel s (ctxPar ctx) (slotOf ctx) =
        some (s', .inr (ctxPar ctx', slotOf ctx')) ∧ Placed base s' ctx' .nil ∧
      n ∉ ctxIds ctx' ∧ CtxMax Cell.high Cell.maxHigh ctx' e.stop ∧
      fill ctx1 .nil = whole ∧ Alike Cell.unMax ctx1 ctx' ∧
      (∀ c ∈ before ctx1, c.extent < e) ∧ ∀ c ∈ behind ctx1, e < c.extent := by
  induction t generalizing s ctx ctx0 fuel with
  | nil =>
    obtain _ | fuel := fuel
    · simp at hlt
    refine ⟨s, ctx, ctx0, ?_, h, hnew.2, hctx, hwhole, halike, hbefore, hbehind⟩
    have hload : s.load (slotOf ctx) = none := h.load
    simp only [intervalInsertLoop, hload]
  | node a l r ihl ihr =>
    obtain _ | fuel := fuel
    · omega
    have hnode : (s.node n).inExtent = e := by rw [h.outside n hnew.1 hnew.2, hn]
    have hup := Placed.raise (d := .left) h e.stop
    have hmax' : MaxOk Cell.high Cell.maxHigh (join a .left l r) := hmax
    obtain ⟨-, hml, hmr⟩ := hmax
    obtain ⟨hol, hor, hla, har, -⟩ := ordered_node.mp hord
    obtain ⟨hni, hnc⟩ := hnew
    have hni : ¬ (n = a.id ∨ n ∈ ids l ∨ n ∈ ids r) := fun hin =>
      hni (mem_ids_join (d := .left).mpr hin)
    obtain ⟨hna, hnl, hnr⟩ := not_or.mp hni |>.imp_right not_or.mp
    simp only [inorder, mem_append, mem_cons] at hno
    rw [inorder, length_append, length_cons] at hlt
    rw [intervalInsertLoop_node fuel _ h hnode, if_neg (hno a (.inr (.inl rfl)))]
    rcases extent_lt_or_gt (hno a (.inr (.inl rfl))) with hae | hea
    · rw [if_neg fun hlt => extent_lt_irrefl (extent_lt_trans hae hlt)]
      have hctx' := hctx.raise (a.setMaxHigh (max a.maxHigh e.stop)) (d := .right) hmax' rfl rfl
      have hwhole' : fill (⟨a, .right, l⟩ :: ctx0) r = whole := hwhole
      refine ihr ⟨hnr, by simp [ctxIds, hna, hnl, hnc]⟩ fuel (Placed.down (d := .right) hup) hmr
        hctx' hor (fun c hc => hno c (.inr (.inr hc))) (by omega) hwhole' (.cons rfl halike) ?_
        hbehind
      intro c hc
      simp only [before, mem_append, mem_cons, not_mem_nil, or_false] at hc
      rcases hc with hc | hc | rfl
      · exact hbefore c hc
      · exact extent_lt_trans (hla c hc) hae
      · exact hae
    · rw [if_pos hea]
      have hctx' := hctx.raise (a.setMaxHigh (max a.maxHigh e.stop)) (d := .left) hmax' rfl rfl
      have hwhole' : fill (⟨a, .left, r⟩ :: ctx0) l = whole := hwhole
      refine ihl ⟨hnl, by simp [ctxIds, hna, hnr, hnc]⟩ fuel (Placed.down (d := .left) hup) hml
        hctx' hol (fun c hc => hno c (.inl hc)) (by omega) hwhole' (.cons rfl halike) ?_ ?_
      · simpa using hbefore
      · intro c hc
        simp only [behind, mem_append, mem_cons] at hc
        rcases hc with (rfl | hc) | hc
        · exact hea
        · exact extent_lt_trans hea (har c hc)
        · exact hbehind c hc

end Descent

/-! ## The new node -/

section Link

variable {base : ℕ → IntervalNode} {s : IntervalTree} {ctx : CellCtx} {n : ℕ}

/-- The new node is linked below the frames. -/
theorem Placed.link (h : Placed base s ctx .nil) (hn : n ∉ ctxIds ctx) :
    Placed base (intervalLink s n (ctxPar ctx) (slotOf ctx)) ctx
      (.node ⟨n, .red, (s.node n).inIntree, (s.node n).inMaxHigh, (s.node n).inExtent⟩ .nil .nil) := by
  have hnd : (ctxIds ctx).Nodup := h.nodup
  have hself : ((((s.setParent n (ctxPar ctx)).setColor n .red).setChild n .right none).setChild n
      .left none).node n = Cell.toNode ⟨n, .red, (s.node n).inIntree, (s.node n).inMaxHigh,
        (s.node n).inExtent⟩ .left none none (ctxPar ctx) := by
    simp only [setChild_node, setColor_node, setParent_node, if_true]
    rfl
  have hother : ∀ m, m ≠ n → ((((s.setParent n (ctxPar ctx)).setColor n .red).setChild n .right
      none).setChild n .left none).node m = s.node m := fun m hm => by
    simp only [setChild_node, setColor_node, setParent_node, if_neg hm]
  have hids : ids (.node ⟨n, .red, (s.node n).inIntree, (s.node n).inMaxHigh,
      (s.node n).inExtent⟩ .nil .nil) = [n] := rfl
  cases ctx with
  | nil =>
    refine ⟨trivial, ⟨hself, trivial, trivial⟩, rfl, by simp [hids, ctxIds], fun m h1 _ => ?_⟩
    rw [hids, mem_singleton] at h1
    exact (hother m h1).trans (h.outside m not_mem_nil not_mem_nil)
  | cons f ctx =>
    have hf : n ≠ f.value.id := fun heq => hn (heq ▸ mem_cons_self)
    refine ⟨h.frames.setHole hnd fun m hm => ?_, ⟨?_, trivial, trivial⟩, ?_, ?_, fun m h1 h2 => ?_⟩
    · rw [intervalLink, slotOf, store, setChild_node, hother m fun heq => hn (heq ▸ hm)]
      rfl
    · rw [intervalLink, slotOf, store, setChild_node, if_neg hf]
      exact hself
    · exact h.root.trans (ptr_fill_of_par (Option.some_ne_none _))
    · exact nodup_cons.mpr ⟨hn, hnd⟩
    · rw [hids, mem_singleton] at h1
      have hmf : m ≠ f.value.id := fun heq => h2 (heq ▸ mem_cons_self)
      rw [intervalLink, slotOf, store, setChild_node, if_neg hmf, hother m h1]
      exact h.outside m not_mem_nil h2

theorem Located.link (h : Placed base s ctx .nil) (hn : n ∉ ctxIds ctx)
    (hnode : (base n).inIntree = false ∧ (base n).inExtent = e ∧ (base n).inMaxHigh = e.stop)
    (hctx : CtxMax Cell.high Cell.maxHigh ctx e.stop) :
    Located base ((before ctx).map Cell.entry ++ (n, false, e) :: (behind ctx).map Cell.entry)
      (intervalLink s n (ctxPar ctx) (slotOf ctx)) ctx
      (join ⟨n, .red, false, e.stop, e⟩ .left .nil .nil) := by
  obtain ⟨hmark, hext, hhigh⟩ := hnode
  have hlink := h.link hn
  rw [h.outside n not_mem_nil hn, hmark, hext, hhigh] at hlink
  refine ⟨hlink, ?_, maxOk_fill.mpr ⟨hctx, ?_, trivial, trivial⟩⟩
  · simp [entries, inorder_fill, join, Cell.entry]
  · simp [Cell.high]

end Link

section

variable (a b : Cell) (h : a.unMax = b.unMax)
include a b h

theorem unMax_entry : a.entry = b.entry := by
  show a.unMax.entry = b.unMax.entry
  rw [h]

theorem unMax_high : a.high = b.high := by
  show a.unMax.high = b.unMax.high
  rw [h]

theorem unMax_color : a.color = b.color := by
  show a.unMax.color = b.unMax.color
  rw [h]

end

section Insert

variable {base : ℕ → IntervalNode} {es : List (ℕ × Bool × IntervalExtent)} {s : IntervalTree}
  {t : CellTree} {n : ℕ}

theorem Located.setIntree (b' : Bool) {l1 l2 : List (ℕ × Bool × IntervalExtent)} {b : Bool}
    (h : Located base (l1 ++ (n, b, e) :: l2) s [] t) (hrb : RedBlack Cell.color t) :
    ∃ t', Located base (l1 ++ (n, b', e) :: l2) (s.setIntree n b') [] t' ∧ RedBlack Cell.color t' := by
  obtain ⟨m1, m2, hm, rfl, hm2⟩ := map_eq_append_iff.mp h.list
  obtain ⟨c, m2, rfl, hc, rfl⟩ := map_eq_cons_iff.mp hm2
  obtain ⟨ctx, l, r, rfl, rfl, rfl⟩ := exists_fill hm
  obtain rfl : c.id = n := congrArg (fun a : ℕ × Bool × IntervalExtent => a.1) hc
  obtain rfl : c.extent = e := congrArg (fun a : ℕ × Bool × IntervalExtent => a.2.2) hc
  refine ⟨fill ctx (join (c.setIntree b') .left l r), ⟨?_, ?_, ?_⟩, ?_⟩
  · exact (Placed.setIntree (d := .left) h.toPlaced.focus b').whole
  · simp [entries, inorder_fill, join, Cell.entry, Cell.setIntree]
  · have hmax := h.maxOk
    rw [fill, maxOk_fill] at hmax ⊢
    exact hmax
  · have hbal := redBlack_fill.mp hrb
    exact redBlack_fill.mpr hbal

/-- `interval_insert` of a node that is not in the tree: either its interval is there
already, and nothing changes, or the tree holds it too. -/
theorem intervalInsert_spec (h : Stored base s t) (hn : n ∉ ids t)
    (hnode : (base n).inIntree = false ∧ (base n).inExtent = e ∧ (base n).inMaxHigh = e.stop)
    {fuel : ℕ} (hfuel : t.inorder.length < fuel) :
    (∃ c ∈ t.inorder, c.extent = e ∧ intervalInsert fuel s n = some (some c.id, s)) ∨
      ((∀ c ∈ t.inorder, c.extent ≠ e) ∧ ∃ s' t' l1 l2, intervalInsert fuel s n = some (none, s') ∧
        Stored base s' t' ∧ entries t = l1 ++ l2 ∧ entries t' = l1 ++ (n, true, e) :: l2) := by
  have hmark := hnode.1
  have hext := hnode.2.1
  have hbase : s.node n = base n := h.placed.outside n hn not_mem_nil
  have hord := ordered_iff.mpr h.sorted
  rw [intervalInsert, hbase, hmark, if_neg Bool.false_ne_true]
  by_cases hfound : ∃ c ∈ t.inorder, c.extent = e
  · obtain ⟨c, hc, hce⟩ := hfound
    refine .inl ⟨c, hc, hce, ?_⟩
    have hloop := intervalInsertLoop_found (by rw [hbase, hext]) hce fuel none h.placed h.maxOk
      hord hc hfuel
    exact congrArg (Option.bind · _) hloop
  · have hno : ∀ c ∈ t.inorder, c.extent ≠ e := fun c hc hce => hfound ⟨c, hc, hce⟩
    refine .inr ⟨hno, ?_⟩
    obtain ⟨s1, ctx, ctx0, hs1, h1, hnc, hctx, hwhole, halike, hbefore, hbehind⟩ :=
      intervalInsertLoop_place hext ⟨hn, not_mem_nil⟩ fuel h.placed h.maxOk trivial hord hno
        hfuel rfl .nil (forall_mem_nil _) (forall_mem_nil _)
    rw [fill] at hwhole
    obtain ⟨hbal, hlen⟩ : CtxBalanced Cell.color ctx 0 ∧ ctx.length < fuel := by
      obtain ⟨k, hk, rfl, -⟩ := redBlack_fill.mp (hwhole ▸ h.redBlack)
      have := length_le_inorder ctx0 .nil
      rw [hwhole, halike.length_eq] at this
      exact ⟨((halike.mono unMax_color).ctxBalanced.2 0).mp hk, by omega⟩
    obtain ⟨hfst, hsnd⟩ := halike.inorder unMax_entry
    have hes : entries t = (before ctx).map Cell.entry ++ (behind ctx).map Cell.entry := by
      rw [entries, ← hwhole, inorder_fill, map_append, map_append, hfst, hsnd]
      simp
    have hloc := Located.link h1 hnc hnode hctx
    obtain ⟨s2, r, hs2, h2, hr⟩ := intervalInsertColor_spec hloc rfl
      ((balanced_red rfl).mpr ⟨trivial, trivial, rfl, rfl⟩) hbal hlen
    obtain ⟨t', h', hr'⟩ := h2.setIntree true hr
    refine ⟨_, t', _, _, ?_, ⟨h'.toPlaced, hr', h'.maxOk, ?_, ?_⟩, hes, h'.list⟩
    · refine (congrArg (Option.bind · _) hs1).trans ?_
      exact congrArg (Option.bind · _) hs2
    · have hsorted := h.sorted
      rw [hes, pairwise_append] at hsorted
      obtain ⟨hs1, hs2, hs12⟩ := hsorted
      rw [show entries t' = _ from h'.list, pairwise_append, pairwise_cons, ← hfst, ← hsnd]
      rw [← hfst] at hs1 hs12
      rw [← hsnd] at hs2 hs12
      refine ⟨hs1, ⟨forall_mem_map.mpr hbehind, hs2⟩, fun a ha => ?_⟩
      exact forall_mem_cons.mpr
        ⟨(forall_mem_map (P := fun a => a.2.2 < e)).mpr hbefore a ha, hs12 a ha⟩
    · have hmarked := h.marked
      rw [hes] at hmarked
      rw [show entries t' = _ from h'.list]
      simp only [mem_append, mem_cons] at hmarked ⊢
      rintro a (ha | rfl | ha)
      · exact hmarked a (.inl ha)
      · rfl
      · exact hmarked a (.inr ha)

end Insert

end Lustre
