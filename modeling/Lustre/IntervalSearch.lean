import Lustre.IntervalRun

/-!
# Searching the interval tree

`interval_search` is a recursion flattened into a loop: it goes down while it may, then
climbs to the next right subtree, and gives up as soon as the parent of that subtree
cannot overlap. `searchList` is the recursion of the source's comment and `pending` is
what the climb still has to visit; the loop calls the callback on the one and then on
the other (`intervalSearchLoop_spec`). So it calls it once on every node that overlaps,
in preorder (`Owns.search`, `Owns.mem_searchList`).
-/

namespace Lustre

open List BinaryTree

/-! ## What is visited -/

/-- `interval_may_overlap`. -/
def Cell.mayOverlap (c : Cell) (ext : IntervalExtent) : Bool :=
  ext.start ≤ c.maxHigh && c.extent.start ≤ ext.stop

/-- The recursion in the comment of `interval_search`: the nodes for the callback. -/
def searchList (ext : IntervalExtent) : CellTree → List ℕ
  | .nil => []
  | .node c l r =>
    if ext.stop < c.extent.start then searchList ext l
    else if c.mayOverlap ext then
      (if extentOverlapped ext c.extent then [c.id] else []) ++ (searchList ext l ++ searchList ext r)
    else []

/-- What the climb still has to visit. -/
def pending (ext : IntervalExtent) : CellCtx → List ℕ
  | [] => []
  | ⟨_, .right, _⟩ :: ctx => pending ext ctx
  | ⟨_, .left, .nil⟩ :: ctx => pending ext ctx
  | ⟨c, .left, u⟩ :: ctx => if c.mayOverlap ext then searchList ext u ++ pending ext ctx else []

/-- The callback on one node after the other, until it stops. -/
def runIter {σ : Type} (func : σ → ℕ → Option (σ × IntervalIter)) (data : σ) :
    List ℕ → Option (σ × IntervalIter)
  | [] => some (data, .cont)
  | n :: ns => do
    let (data, rc) ← func data n
    if rc = .stop then return (data, rc)
    runIter func data ns

open Cell

section Visited

variable {ext : IntervalExtent}

theorem extentOverlapped_iff {e1 e2 : IntervalExtent} :
    extentOverlapped e1 e2 = true ↔ e1.start ≤ e2.stop ∧ e2.start ≤ e1.stop := by
  rw [extentOverlapped, Bool.and_eq_true, decide_eq_true_iff, decide_eq_true_iff]

theorem start_le_of_lt {e1 e2 : IntervalExtent} (h : e1 < e2) : e1.start ≤ e2.start := by
  rw [extent_lt_iff] at h
  omega

section

variable {c : Cell} {u : CellTree} {ctx : CellCtx}

theorem pending_left_of_mayOverlap (h : c.mayOverlap ext = true) :
    pending ext (⟨c, .left, u⟩ :: ctx) = searchList ext u ++ pending ext ctx := by
  cases u with
  | nil => rfl
  | node b l r => exact if_pos h

theorem pending_left_eq_nil (hc : ext.stop < c.extent.start) (h : pending ext ctx = []) :
    pending ext (⟨c, .left, u⟩ :: ctx) = [] := by
  cases u with
  | nil => exact h
  | node b l r =>
    refine if_neg fun hov => ?_
    rw [mayOverlap, Bool.and_eq_true, decide_eq_true_iff, decide_eq_true_iff] at hov
    omega

/-- Behind the query nothing is left to visit. -/
theorem pending_eq_nil (h : ∀ a ∈ behind ctx, ext.stop < a.extent.start) :
    pending ext ctx = [] := by
  induction ctx with
  | nil => rfl
  | cons f ctx ih =>
    obtain ⟨c, d, u⟩ := f
    cases d with
    | right => exact ih h
    | left =>
      simp only [behind, mem_append, mem_cons] at h
      exact pending_left_eq_nil (h c (.inl (.inl rfl))) (ih fun a ha => h a (.inr ha))

end

theorem searchList_eq {t : CellTree} (hord : Ordered t) (hmax : MaxOk high maxHigh t) :
    searchList ext t = (t.preorder.filter fun c => extentOverlapped ext c.extent).map Cell.id := by
  induction t with
  | nil => rfl
  | node c l r ihl ihr =>
    have hle := hmax.topMax.1
    obtain ⟨hol, hor, -, hcr, -⟩ := ordered_node.mp hord
    obtain ⟨-, hml, hmr⟩ := hmax
    rw [searchList, ihl hol hml, ihr hor hmr]
    by_cases hlow : ext.stop < c.extent.start
    · -- the node and its right subtree lie behind the query
      have hc : ¬extentOverlapped ext c.extent = true := fun h =>
        (Nat.not_le.mpr hlow) (extentOverlapped_iff.mp h).2
      have hr : r.preorder.filter (fun c => extentOverlapped ext c.extent) = [] := by
        refine filter_eq_nil_iff.mpr fun b hb hov => ?_
        have hlt := start_le_of_lt (hcr b (r.preorder_perm.mem_iff.mp hb))
        have := (extentOverlapped_iff.mp hov).2
        omega
      rw [if_pos hlow, preorder, filter_cons, if_neg hc, filter_append, hr, append_nil]
    · by_cases hmay : c.mayOverlap ext = true
      · rw [if_neg hlow, if_pos hmay, preorder, filter_cons, filter_append]
        split <;> simp
      · -- the whole subtree lies before the query
        have hno : ∀ b ∈ (node c l r).preorder, ¬extentOverlapped ext b.extent = true := by
          intro b hb hov
          have hb' := hle b ((preorder_perm _).mem_iff.mp hb)
          have hst := (extentOverlapped_iff.mp hov).1
          refine hmay ?_
          rw [mayOverlap, Bool.and_eq_true, decide_eq_true_iff, decide_eq_true_iff]
          exact ⟨Nat.le_trans hst hb', Nat.not_lt.mp hlow⟩
        rw [if_neg hlow, if_neg hmay, filter_eq_nil_iff.mpr hno, map_nil]

end Visited

/-! ## The loop -/

section Loop

variable {base : ℕ → IntervalNode} {s : IntervalTree} {ctx : CellCtx} {t l r : CellTree} {c : Cell}
  {ext : IntervalExtent}

theorem Placed.mayOverlap (h : Placed base s ctx (.node c l r)) :
    intervalMayOverlap s c.id ext = c.mayOverlap ext := by
  have hn := h.node (d := .left)
  rw [intervalMayOverlap, intervalLow, hn, Cell.toNode_maxHigh, Cell.toNode_extent, Cell.mayOverlap]

/-- The nodes to the right of the frames that lie to the left, the fuel of the loop. -/
def waiting : CellCtx → ℕ
  | [] => 0
  | ⟨_, .right, _⟩ :: ctx => waiting ctx
  | ⟨_, .left, u⟩ :: ctx => u.inorder.length + waiting ctx

theorem intervalSearchClimb_spec (ext : IntervalExtent) (h : Placed base s ctx (.node c l r))
    {depth : ℕ} (hd : ctx.length < depth) :
    (intervalSearchClimb depth s c.id = some none ∧ pending ext ctx = []) ∨
    ∃ p b u v ctx' t', intervalSearchClimb depth s c.id = some (some (p.id, b.id)) ∧
      Placed base s (⟨p, .right, t'⟩ :: ctx') (.node b u v) ∧
      fill ctx (.node c l r) = fill (⟨p, .right, t'⟩ :: ctx') (.node b u v) ∧ (pending ext ctx =
        if p.mayOverlap ext then searchList ext (.node b u v) ++ pending ext ctx' else []) ∧
      (node b u v).inorder.length + waiting ctx' ≤ waiting ctx := by
  induction ctx generalizing c l r depth with
  | nil =>
    obtain _ | depth := depth
    · omega
    refine .inl ⟨?_, rfl⟩
    have hpar : (s.node c.id).inParent = none := by
      rw [h.node (d := .left), toNode_parent]
      rfl
    rw [intervalSearchClimb, hpar]
  | cons f ctx ih =>
    obtain _ | depth := depth
    · omega
    obtain ⟨p, d, u⟩ := f
    have hpar : (s.node c.id).inParent = some p.id := by
      rw [h.node (d := .left), toNode_parent]
      rfl
    rw [intervalSearchClimb, hpar]
    rw [length_cons] at hd
    cases d with
    | right =>
      have hne : (s.node p.id).inLeft ≠ some c.id := by
        have hside := (h.child_eq_iff rfl .left).not.mpr nofun
        exact hside
      have hright : (s.node p.id).inRight = some c.id := (h.child_eq_iff rfl .right).mpr rfl
      dsimp only
      rw [hright]
      dsimp only
      rw [if_neg hne]
      exact ih h.up (by omega)
    | left =>
      have heq : (s.node p.id).inLeft = some c.id := (h.child_eq_iff rfl .left).mpr rfl
      have hright : (s.node p.id).inRight = ptr u := by
        rw [h.up.node]
        rfl
      dsimp only
      rw [hright]
      cases u with
      | nil =>
        refine (ih h.up (by omega)).imp_right ?_
        rintro ⟨q, b, u, v, ctx', t', hcl, hpl, hfill, hpend, hw⟩
        exact ⟨q, b, u, v, ctx', t', hcl, hpl, hfill, hpend, Nat.le_trans hw (Nat.le_add_left ..)⟩
      | node b u v =>
        exact .inr ⟨p, b, u, v, ctx, .node c l r, if_pos heq, h.turn, rfl, rfl, Nat.le_refl _⟩

variable {σ : Type} {func : σ → ℕ → Option (σ × IntervalIter)}

theorem runIter_singleton (data : σ) (n : ℕ) : runIter func data [n] = func data n := by
  rw [runIter]
  cases func data n with
  | none => rfl
  | some p =>
    obtain ⟨data, rc⟩ := p
    cases rc <;> rfl

theorem runIter_append (data : σ) (ns ms : List ℕ) : runIter func data (ns ++ ms) =
    (runIter func data ns).bind fun (data, rc) =>
      if rc = .stop then some (data, rc) else runIter func data ms := by
  induction ns generalizing data with
  | nil => rfl
  | cons n ns ih =>
    rw [cons_append, runIter, runIter]
    cases func data n with
    | none => rfl
    | some p =>
      obtain ⟨data, rc⟩ := p
      cases rc with
      | cont => exact ih data
      | stop => rfl

/-- **The loop is the recursion**: from a place in the tree it calls the callback on what
the recursion finds there, and then on what the climb finds. -/
theorem intervalSearchLoop_spec {whole : CellTree} {depth fuel : ℕ} (hord : Ordered whole)
    (hd : whole.inorder.length < depth) (h : Placed base s ctx t) (hw : fill ctx t = whole)
    (hfuel : t.inorder.length + waiting ctx ≤ fuel) {n : ℕ} (hn : ptr t = some n) (data : σ) :
    intervalSearchLoop ext func depth fuel s n data =
      runIter func data (searchList ext t ++ pending ext ctx) := by
  induction fuel generalizing ctx t n data with
  | zero =>
    cases t with
    | nil => cases hn
    | node c l r => simp at hfuel
  | succ fuel ih =>
    cases t with
    | nil => cases hn
    | node c l r =>
      cases hn
      have hnode := h.node (d := .left)
      have hlen := length_le_inorder ctx (.node c l r)
      rw [hw] at hlen
      rw [inorder, length_append, length_cons] at hfuel
      -- the loop after a node below which nothing is to be visited
      have hclimb : ∀ data next, next none = some (data, IntervalIter.cont) →
          (∀ parent right, next (some (parent, right)) = if intervalMayOverlap s parent ext then
            intervalSearchLoop ext func depth fuel s right data else some (data, .cont)) →
          (intervalSearchClimb depth s c.id).bind next = runIter func data (pending ext ctx) := by
        intro data next hnone hsome
        have hlt : ctx.length < depth := by omega
        rcases intervalSearchClimb_spec ext h hlt with
          ⟨hcl, hpend⟩ | ⟨p, b, u, v, ctx', t', hcl, hpl, hfill, hpend, hwait⟩
        · rw [hcl, hpend]
          exact hnone
        · have hup : Placed base s ctx' (.node p t' (.node b u v)) := hpl.up
          rw [hcl, hpend, Option.bind_some, hsome, hup.mayOverlap]
          split
          · exact ih hpl (hfill.symm.trans hw) (Nat.le_trans hwait (by omega)) rfl data
          · rfl
      -- the loop at a child
      have hl : Placed base s (⟨c, .left, r⟩ :: ctx) l := h.down
      have hr : Placed base s (⟨c, .right, l⟩ :: ctx) r := Placed.down (d := .right) h
      have hleft : ∀ m data, ptr l = some m → intervalSearchLoop ext func depth fuel s m data =
          runIter func data (searchList ext l ++ pending ext (⟨c, .left, r⟩ :: ctx)) :=
        fun m data hm => ih hl hw (by rw [waiting]; omega) hm data
      have hright : ∀ m data, ptr r = some m → intervalSearchLoop ext func depth fuel s m data =
          runIter func data (searchList ext r ++ pending ext ctx) :=
        fun m data hm => ih hr hw (by rw [waiting]; omega) hm data
      rw [intervalSearchLoop, intervalVisit, h.mayOverlap, intervalLow, hnode, toNode_extent,
        searchList]
      by_cases hlow : ext.stop < c.extent.start
      · -- only the left subtree can overlap, and nothing after it
        have hpend : pending ext ctx = [] := by
          refine pending_eq_nil fun a ha => Nat.lt_of_lt_of_le hlow (start_le_of_lt ?_)
          rw [← hw, Ordered, inorder_fill] at hord
          exact (pairwise_append.mp hord).2.2 c (by simp) a ha
        rw [if_pos hlow, if_pos hlow]
        cases l with
        | nil => exact hclimb data _ rfl fun _ _ => rfl
        | node b u v =>
          rw [hpend, ← pending_left_eq_nil (u := r) hlow hpend]
          exact hleft b.id data rfl
      · by_cases hmay : c.mayOverlap ext = true
        · rw [if_neg hlow, if_pos hmay, if_neg hlow, if_pos hmay, append_assoc, append_assoc,
            runIter_append, ← pending_left_of_mayOverlap hmay]
          have hcb : (if extentOverlapped ext c.extent then func data c.id else some (data, .cont)) =
              runIter func data (if extentOverlapped ext c.extent then [c.id] else []) := by
            split
            · exact (runIter_singleton data c.id).symm
            · rfl
          rw [hcb]
          cases hrun : runIter func data (if extentOverlapped ext c.extent then [c.id] else []) with
          | none => rfl
          | some p =>
            obtain ⟨data, rc⟩ := p
            cases rc with
            | stop => rfl
            | cont =>
              cases l with
              | node b u v => exact hleft b.id data rfl
              | nil =>
                rw [pending_left_of_mayOverlap hmay]
                cases r with
                | node b u v => exact hright b.id data rfl
                | nil => exact hclimb data _ rfl fun _ _ => rfl
        · rw [if_neg hlow, if_neg hmay, if_neg hlow, if_neg hmay]
          exact hclimb data _ rfl fun _ _ => rfl

end Loop

/-! ## The search -/

section Owned

variable {s : IntervalTree} {t : CellTree} {n : ℕ}

section

variable (h : Owns s t) (ext : IntervalExtent)
include h ext

theorem Owns.nodup_searchList : (searchList ext t).Nodup := by
  have hst := h.stored
  rw [searchList_eq (ordered_iff.mpr hst.sorted) hst.maxOk]
  have hnd : (t.preorder.map Cell.id).Nodup := by
    have hids := hst.placed.nodup
    rw [ctxIds, append_nil, ids] at hids
    exact (t.preorder_perm.map Cell.id).nodup_iff.mpr hids
  exact hnd.sublist (filter_sublist.map Cell.id)

/-- The nodes that are visited are those that overlap. -/
theorem Owns.mem_searchList :
    n ∈ searchList ext t ↔ n ∈ ids t ∧ extentOverlapped ext (s.node n).inExtent = true := by
  have hst := h.stored
  rw [searchList_eq (ordered_iff.mpr hst.sorted) hst.maxOk]
  simp only [ids, mem_map, mem_filter, t.preorder_perm.mem_iff]
  constructor
  · rintro ⟨c, ⟨hc, hov⟩, rfl⟩
    exact ⟨⟨c, hc, rfl⟩, by rw [hst.placed.rep.extent hc]; exact hov⟩
  · rintro ⟨⟨c, hc, rfl⟩, hov⟩
    rw [hst.placed.rep.extent hc] at hov
    exact ⟨c, ⟨hc, hov⟩, rfl⟩

/-- **`interval_search`** calls the callback on one node after the other that the recursion
finds, until it stops. -/
theorem Owns.search {fuel : ℕ} (hfuel : (ids t).length < fuel) {σ : Type}
    (func : σ → ℕ → Option (σ × IntervalIter)) (data : σ) :
    intervalSearch ext func fuel s data = runIter func data (searchList ext t) := by
  have hst := h.stored
  have hpl := hst.placed
  rw [ids, length_map] at hfuel
  rw [intervalSearch, hpl.root]
  cases t with
  | nil => rfl
  | node c l r =>
    have hle : (node c l r).inorder.length + waiting [] ≤ fuel := Nat.le_of_lt hfuel
    rw [← append_nil (searchList ext _)]
    exact intervalSearchLoop_spec (ordered_iff.mpr hst.sorted) hfuel hpl rfl hle rfl data

end

end Owned

end Lustre
