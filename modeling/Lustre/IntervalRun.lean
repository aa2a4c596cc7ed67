import Lustre.IntervalEraseTwo

/-!
# Runs of the interval tree

`Owns s t` is what a user of the tree knows: the memory holds the tree `t`, and the
nodes marked as being in a tree are those of `t`. Inserting and erasing keep it
(`Owns.insert`, `Owns.erase`). By induction every run of calls keeps a red-black tree
with the right maxima, whose intervals are those inserted and not erased
(`intervalTree_runs`).
-/

namespace Lustre

open BinaryTree
open Prod (fst snd)

/-! ## The tree as its users see it -/

/-- The memory holds the tree `t`, and no other node is marked as being in a tree. -/
structure Owns (s : IntervalTree) (t : CellTree) : Prop where
  stored : Stored s.node s t
  unmarked : ∀ n, n ∉ ids t → (s.node n).inIntree = false

variable {base h : ℕ → IntervalNode} {p : Option ℕ}

open List

section Owns

variable {s : IntervalTree} {t : CellTree} {n : ℕ}

theorem ids_eq_map (t : CellTree) : ids t = (entries t).map fst := by
  rw [ids, entries, map_map]
  rfl

theorem mem_ids_iff {t : CellTree} : n ∈ ids t ↔ ∃ a ∈ entries t, a.1 = n := by
  rw [ids_eq_map, mem_map]

section

variable {c : Cell} (hr : Rep h p t) (hc : c ∈ t.inorder)
include hr hc

/-- The memory of a tree, read through its cells. -/
theorem Rep.exists_toNode : ∃ l r q, h c.id = c.toNode .left l r q := by
  induction t generalizing p with
  | nil => exact absurd hc not_mem_nil
  | node a l r ihl ihr =>
    obtain ⟨ha, hl, hr⟩ := hr
    rw [inorder, mem_append, mem_cons] at hc
    rcases hc with hc | rfl | hc
    · exact ihl hl hc
    · exact ⟨_, _, _, ha⟩
    · exact ihr hr hc

theorem Rep.extent : (h c.id).inExtent = c.extent := by
  obtain ⟨l, r, q, hnode⟩ := hr.exists_toNode hc
  rw [hnode, Cell.toNode_extent]

theorem Rep.intree : (h c.id).inIntree = c.intree := by
  obtain ⟨l, r, q, hnode⟩ := hr.exists_toNode hc
  rw [hnode, Cell.toNode_intree]

end

theorem Stored.extent (h : Stored base s t)
    {a : ℕ × Bool × IntervalExtent} (ha : a ∈ entries t) : (s.node a.1).inExtent = a.2.2 := by
  obtain ⟨c, hc, rfl⟩ := mem_map.mp ha
  exact h.placed.rep.extent hc

theorem Stored.ids_eq (h : Stored base s t) {n : ℕ} (hn : n ∈ ids t) :
    (n, true, (s.node n).inExtent) ∈ entries t := by
  obtain ⟨a, ha, rfl⟩ := mem_ids_iff.mp hn
  rw [h.extent ha, ← h.marked a ha]
  exact ha

/-- The mark of a node says whether it is in the tree. -/
theorem Owns.inIntree (h : Owns s t) : (s.node n).inIntree = true ↔ n ∈ ids t := by
  constructor
  · intro hin
    by_contra hn
    rw [h.unmarked n hn] at hin
    cases hin
  · intro hn
    obtain ⟨c, hc, hent⟩ := mem_map.mp (h.stored.ids_eq hn)
    obtain ⟨rfl, hmark⟩ := Prod.mk.inj hent
    rw [h.stored.placed.rep.intree hc]
    exact (Prod.mk.inj hmark).1

theorem Stored.owns (h : Stored base s t)
    (hout : ∀ n, n ∉ ids t → (base n).inIntree = false) : Owns s t := by
  have hst := h.placed.outside
  refine ⟨{ h with placed := { h.placed with outside := fun _ _ _ => rfl } }, fun n hn => ?_⟩
  rw [hst n hn not_mem_nil]
  exact hout n hn

theorem Owns.modify (h : Owns s t) (hn : n ∉ ids t) (g : IntervalNode → IntervalNode)
    (hg : ∀ x, (g x).inIntree = x.inIntree) : Owns (s.modify n g) t := by
  have hst := h.stored
  refine Stored.owns { hst with placed := hst.placed.modifyOutside hn not_mem_nil g } fun m hm => ?_
  by_cases hmn : m = n
  · rw [hmn, Function.update_self, hg]
    exact h.unmarked n hn
  · rw [Function.update_of_ne hmn]
    exact h.unmarked m hm

/-- `interval_insert`, for a user of the tree. -/
theorem Owns.insert (h : Owns s t) (fuel : ℕ) (hn : n ∉ ids t)
    (hmax : (s.node n).inMaxHigh = (s.node n).inExtent.stop) (hfuel : (ids t).length < fuel) :
    (∃ m ∈ ids t, (s.node m).inExtent = (s.node n).inExtent ∧
      intervalInsert fuel s n = some (some m, s)) ∨
    ((∀ m ∈ ids t, (s.node m).inExtent ≠ (s.node n).inExtent) ∧
      ∃ s' t', intervalInsert fuel s n = some (none, s') ∧ Owns s' t' ∧ (ids t').Perm (n :: ids t) ∧
        ∀ m, (s'.node m).inExtent = (s.node m).inExtent) := by
  rw [ids, length_map] at hfuel
  rcases intervalInsert_spec h.stored hn ⟨h.unmarked n hn, rfl, hmax⟩ hfuel with
    ⟨c, hc, hce, hcall⟩ | ⟨hno, s', t', l1, l2, hcall, h', hes, hes'⟩
  · refine .inl ⟨c.id, mem_map_of_mem hc, ?_, hcall⟩
    rw [h.stored.placed.rep.extent hc, hce]
  · refine .inr ⟨fun m hm hmn => ?_, s', t', hcall, ?_, ?_, fun m => ?_⟩
    · obtain ⟨c, hc, hce⟩ := mem_map.mp (h.stored.ids_eq hm)
      exact hno c hc ((congrArg (fun a : ℕ × Bool × IntervalExtent => a.2.2) hce).trans hmn)
    · refine h'.owns fun m hm => h.unmarked m fun hin => hm ?_
      rw [ids_eq_map, hes, map_append] at hin
      rw [ids_eq_map, hes', map_append, map_cons]
      exact mem_append.mpr ((mem_append.mp hin).imp_right (mem_cons_of_mem _))
    · rw [ids_eq_map, ids_eq_map, hes, hes', map_append, map_append, map_cons]
      exact perm_middle
    · by_cases hm : m ∈ ids t'
      · have hin := h'.ids_eq hm
        rw [hes', mem_append, mem_cons] at hin
        have hold : (m, true, (s'.node m).inExtent) ∈ entries t →
            (s'.node m).inExtent = (s.node m).inExtent := fun hin => (h.stored.extent hin).symm
        rw [hes, mem_append] at hold
        rcases hin with hin | hin | hin
        · exact hold (.inl hin)
        · obtain ⟨rfl, hin⟩ := Prod.mk.inj hin
          exact (Prod.mk.inj hin).2
        · exact hold (.inr hin)
      · rw [h'.placed.outside m hm not_mem_nil]

/-- `interval_erase`, for a user of the tree. -/
theorem Owns.erase (h : Owns s t) (fuel : ℕ) (hn : n ∈ ids t) (hfuel : (ids t).length + 1 < fuel) :
    ∃ s' t', intervalErase fuel s n = some s' ∧ Owns s' t' ∧ (ids t).Perm (n :: ids t') ∧
      ∀ m, (s'.node m).inExtent = (s.node m).inExtent := by
  rw [ids, length_map] at hfuel
  obtain ⟨s', t', base', l1, l2, hcall, h', hes, hes', hothers, hmark, hext⟩ :=
    intervalErase_spec h.stored (h.stored.ids_eq hn) hfuel
  have hperm : (ids t).Perm (n :: ids t') := by
    rw [ids_eq_map, ids_eq_map, hes, hes', map_append, map_append, map_cons]
    exact perm_middle
  refine ⟨s', t', hcall, h'.owns fun m hm => ?_, hperm, fun m => ?_⟩
  · by_cases hmn : m = n
    · rw [hmn, hmark]
    · rw [hothers m hmn hm]
      refine h.unmarked m fun hin => hm ?_
      exact (mem_cons.mp (hperm.mem_iff.mp hin)).resolve_left hmn
  · by_cases hm : m ∈ ids t'
    · have hin := h'.ids_eq hm
      rw [hes', mem_append] at hin
      have hin' : (m, true, (s'.node m).inExtent) ∈ entries t := by
        rw [hes, mem_append, mem_cons]
        exact hin.imp_right .inr
      exact (h.stored.extent hin').symm
    · rw [h'.placed.outside m hm not_mem_nil]
      by_cases hmn : m = n
      · rw [hmn, hext]
      · rw [hothers m hmn hm]

/-- `interval_set` and `interval_insert` of a node outside the tree: afterwards the interval is that
of a node in the tree, of one that was there or of the new one. -/
theorem Owns.setInsert {s1 s' : IntervalTree} {start stop : ℕ} {found : Option ℕ} (h : Owns s t)
    (fuel : ℕ) (hn : n ∉ ids t) (hfuel : (ids t).length < fuel)
    (hset : intervalSet s n start stop = some s1) (hins : intervalInsert fuel s1 n = some (found, s')) :
    ∃ k t', (found = none ∧ k = n ∨ found = some k ∧ k ∈ ids t) ∧ Owns s' t' ∧
      (∀ j, j ∈ ids t' ↔ j = k ∨ j ∈ ids t) ∧ (s'.node k).inExtent = ⟨start, stop⟩ ∧
      ∀ j ∈ ids t, (s'.node j).inExtent = (s.node j).inExtent := by
  obtain ⟨-, hset⟩ := Option.ite_none_left_eq_some.mp hset
  cases hset
  have h1 : Owns _ t := h.modify hn (fun x => { x with inExtent := ⟨start, stop⟩, inMaxHigh := stop })
    fun _ => rfl
  have hnode : ((s.modify n fun x => { x with inExtent := ⟨start, stop⟩, inMaxHigh := stop }).node
      n) = { s.node n with inExtent := ⟨start, stop⟩, inMaxHigh := stop } := by
    rw [modify_node, if_pos rfl]
  have hother : ∀ j ∈ ids t, ((s.modify n fun x => { x with
      inExtent := ⟨start, stop⟩, inMaxHigh := stop }).node j) = s.node j := by
    intro j hj
    have hjn : j ≠ n := fun heq => hn (heq ▸ hj)
    rw [modify_node, if_neg hjn]
  rcases h1.insert fuel hn (by rw [hnode]) hfuel with
    ⟨m, hm, heq, hcall⟩ | ⟨-, s2, t', hcall, h', hperm, hsame⟩
  · cases hcall.symm.trans hins
    refine ⟨m, t, .inr ⟨rfl, hm⟩, h1, fun j => ?_, ?_, fun j hj => by rw [hother j hj]⟩
    · constructor
      · exact .inr
      · rintro (rfl | hj)
        · exact hm
        · exact hj
    · rw [heq, hnode]
  · cases hcall.symm.trans hins
    refine ⟨n, t', .inl ⟨rfl, rfl⟩, h', fun j => ?_, ?_, fun j hj => ?_⟩
    · rw [hperm.mem_iff, mem_cons]
    · rw [hsame, hnode]
    · rw [hsame, hother j hj]

end Owns

/-! ## Runs -/

/-- A call of a user: `interval_set` and `interval_insert`, or `interval_erase`. -/
inductive IntervalOp where
  /-- insert the node `n` with the interval from `start` to `stop` -/
  | insert (n start stop : ℕ)
  /-- erase the node `n` -/
  | erase (n : ℕ)
  deriving DecidableEq

/-- A call; `none` if an assertion fails or the interval is refused. -/
def IntervalOp.run (fuel : ℕ) (s : IntervalTree) : IntervalOp → Option IntervalTree
  | .insert n start stop => do
    let s ← intervalSet s n start stop
    let (_, s) ← intervalInsert fuel s n
    return s
  | .erase n => intervalErase fuel s n

/-- What a call does to the intervals in the tree: an interval that is there is not
inserted again. `none` is a misuse: an interval that ends before it starts, a node
inserted twice, or one erased that is not there. -/
def IntervalOp.spec (m : List (ℕ × IntervalExtent)) : IntervalOp → Option (List (ℕ × IntervalExtent))
  | .insert n start stop =>
    if stop < start ∨ n ∈ m.map fst then none
    else if (⟨start, stop⟩ : IntervalExtent) ∈ m.map snd then some m
    else some ((n, ⟨start, stop⟩) :: m)
  | .erase n => if n ∈ m.map fst then some (m.filter fun a => a.1 ≠ n) else none

/-- Call after call. -/
def intervalCalls (fuel : ℕ) : IntervalTree → List IntervalOp → Option IntervalTree
  | s, [] => some s
  | s, op :: ops => do intervalCalls fuel (← op.run fuel s) ops

/-- What the calls do to the intervals. -/
def intervalSpec : List (ℕ × IntervalExtent) → List IntervalOp → Option (List (ℕ × IntervalExtent))
  | m, [] => some m
  | m, op :: ops => do intervalSpec (← op.spec m) ops

/-- The memory holds the red-black tree `t` with the intervals `m`. -/
structure HoldsTree (s : IntervalTree) (m : List (ℕ × IntervalExtent)) (t : CellTree) : Prop where
  /-- every node has its children and its parent -/
  links : Rep s.node none t
  /-- `*root` -/
  root : s.root = ptr t
  /-- every node is there once -/
  distinct : (ids t).Nodup
  /-- the root is black, no red node has a red child, all paths have as many black nodes -/
  redBlack : RedBlack Cell.color t
  /-- ordered by start and end, without equal intervals -/
  ordered : Ordered t
  /-- `in_max_high` is the greatest end in the subtree -/
  maxima : IsMax Cell.high Cell.maxHigh t
  /-- the intervals -/
  contents : ∀ n e, (n, e) ∈ m ↔ ∃ c ∈ t.inorder, c.id = n ∧ c.extent = e

section Runs

variable {s s0 : IntervalTree} {t : CellTree} {m m' : List (ℕ × IntervalExtent)} {fuel : ℕ}

/-- The tree of a user who counts on the intervals `m`. -/
structure Tracks (s : IntervalTree) (t : CellTree) (m : List (ℕ × IntervalExtent)) : Prop where
  owns : Owns s t
  contents : ∀ n e, (n, e) ∈ m ↔ n ∈ ids t ∧ (s.node n).inExtent = e

namespace Tracks

theorem mem_fst (h : Tracks s t m) {n : ℕ} : n ∈ m.map fst ↔ n ∈ ids t := by
  rw [mem_map]
  constructor
  · rintro ⟨⟨a, e⟩, ha, rfl⟩
    exact ((h.contents a e).mp ha).1
  · exact fun hn => ⟨(n, (s.node n).inExtent), (h.contents _ _).mpr ⟨hn, rfl⟩, rfl⟩

theorem mem_snd (h : Tracks s t m) {e : IntervalExtent} :
    e ∈ m.map snd ↔ ∃ n ∈ ids t, (s.node n).inExtent = e := by
  rw [mem_map]
  constructor
  · rintro ⟨⟨a, e⟩, ha, rfl⟩
    exact ⟨a, (h.contents a e).mp ha⟩
  · rintro ⟨n, hn, rfl⟩
    exact ⟨(n, (s.node n).inExtent), (h.contents _ _).mpr ⟨hn, rfl⟩, rfl⟩

/-- `interval_set` of a node outside the tree. -/
theorem set (h : Tracks s t m) {n start stop : ℕ} (hn : n ∉ ids t) (hle : start ≤ stop) :
    ∃ s', intervalSet s n start stop = some s' ∧ Tracks s' t m ∧
      (s'.node n).inExtent = ⟨start, stop⟩ ∧ (s'.node n).inMaxHigh = stop := by
  refine ⟨_, if_neg (Nat.not_lt.mpr hle), ⟨h.owns.modify hn _ fun _ => rfl, fun k e => ?_⟩, ?_, ?_⟩
  · rw [h.contents]
    refine and_congr_right fun hk => ?_
    have hkn : k ≠ n := fun heq => hn (heq ▸ hk)
    rw [modify_node, if_neg hkn]
  · rw [modify_node, if_pos rfl]
  · rw [modify_node, if_pos rfl]

theorem step (h : Tracks s t m) (fuel : ℕ) {op : IntervalOp} (hop : op.spec m = some m')
    (hfuel : (ids t).length + 1 < fuel) :
    ∃ s' t', op.run fuel s = some s' ∧ Tracks s' t' m' ∧ (ids t').length ≤ (ids t).length + 1 := by
  cases op with
  | insert n start stop =>
    rw [IntervalOp.spec] at hop
    split at hop
    · cases hop
    · next hok =>
      rw [not_or, h.mem_fst, Nat.not_lt] at hok
      obtain ⟨s1, hs1, h1, hext, hhigh⟩ := h.set hok.2 hok.1
      rw [IntervalOp.run, hs1]
      rcases h1.owns.insert fuel hok.2 (by rw [hext, hhigh]) (by omega) with
        ⟨k, hk, heq, hcall⟩ | ⟨hno, s', t', hcall, h', hperm, hsame⟩
      · -- the interval is there
        have hin := h1.mem_snd.mpr ⟨k, hk, heq.trans hext⟩
        rw [if_pos hin] at hop
        cases hop
        exact ⟨s1, t, by simp [hcall], h1, Nat.le_succ _⟩
      · have hnot : (⟨start, stop⟩ : IntervalExtent) ∉ m.map snd := fun hin => by
          obtain ⟨k, hk, heq⟩ := h1.mem_snd.mp hin
          exact hno k hk (heq.trans hext.symm)
        rw [if_neg hnot] at hop
        cases hop
        refine ⟨s', t', by simp [hcall], ⟨h', fun k e => ?_⟩, Nat.le_of_eq hperm.length_eq⟩
        rw [mem_cons, h1.contents, hperm.mem_iff, mem_cons, hsame, Prod.mk.injEq]
        constructor
        · rintro (⟨rfl, rfl⟩ | ⟨hk, rfl⟩)
          · exact ⟨.inl rfl, hext⟩
          · exact ⟨.inr hk, rfl⟩
        · rintro ⟨rfl | hk, rfl⟩
          · exact .inl ⟨rfl, hext⟩
          · exact .inr ⟨hk, rfl⟩
  | erase n =>
    rw [IntervalOp.spec] at hop
    obtain ⟨hin, hop⟩ := Option.ite_none_right_eq_some.mp hop
    cases hop
    obtain ⟨s', t', hcall, h', hperm, hsame⟩ := h.owns.erase fuel (h.mem_fst.mp hin) hfuel
    have hnd : (n :: ids t').Nodup :=
      hperm.nodup_iff.mp (by simpa [ctxIds] using h.owns.stored.placed.nodup)
    have hlen := hperm.length_eq
    rw [length_cons] at hlen
    refine ⟨s', t', hcall, ⟨h', fun k e => ?_⟩, by omega⟩
    rw [mem_filter, h.contents, hperm.mem_iff, mem_cons, hsame, decide_eq_true_iff]
    constructor
    · rintro ⟨⟨rfl | hk, rfl⟩, hne⟩
      · exact absurd rfl hne
      · exact ⟨hk, rfl⟩
    · rintro ⟨hk, rfl⟩
      exact ⟨⟨.inr hk, rfl⟩, fun heq => (nodup_cons.mp hnd).1 (heq ▸ hk)⟩

theorem run (h : Tracks s t m) (fuel : ℕ) {ops : List IntervalOp} (hops : intervalSpec m ops = some m')
    (hfuel : (ids t).length + ops.length + 1 < fuel) :
    ∃ s' t', intervalCalls fuel s ops = some s' ∧ Tracks s' t' m' ∧
      (ids t').length ≤ (ids t).length + ops.length := by
  induction ops generalizing s t m with
  | nil =>
    cases hops
    exact ⟨s, t, rfl, h, Nat.le_refl _⟩
  | cons op ops ih =>
    rw [intervalSpec] at hops
    obtain ⟨m1, hm1, hops⟩ := Option.bind_eq_some_iff.mp hops
    rw [length_cons] at hfuel
    obtain ⟨s1, t1, hs1, h1, hlen⟩ := h.step fuel hm1 (by omega)
    obtain ⟨s', t', hs', h', hlen'⟩ := ih h1 hops (by omega)
    refine ⟨s', t', ?_, h', by rw [length_cons]; omega⟩
    rw [intervalCalls, hs1]
    exact hs'

theorem holdsTree (h : Tracks s t m) : HoldsTree s m t := by
  have hst := h.owns.stored
  refine ⟨hst.placed.rep, hst.placed.root, by simpa [ctxIds] using hst.placed.nodup, hst.redBlack,
    ordered_iff.mpr hst.sorted, hst.maxOk.isMax, fun n e => ?_⟩
  rw [h.contents]
  constructor
  · rintro ⟨hn, rfl⟩
    obtain ⟨c, hc, rfl⟩ := mem_map.mp hn
    exact ⟨c, hc, rfl, (hst.placed.rep.extent hc).symm⟩
  · rintro ⟨c, hc, rfl, rfl⟩
    exact ⟨mem_map_of_mem hc, hst.placed.rep.extent hc⟩

end Tracks

/-- An empty tree: no root, and no node is marked. -/
def IntervalTree.IsEmpty (s : IntervalTree) : Prop :=
  s.root = none ∧ ∀ n, (s.node n).inIntree = false

theorem tracks_empty (h : s0.IsEmpty) : Tracks s0 .nil [] := by
  refine ⟨⟨⟨⟨trivial, trivial, h.1, nodup_nil, fun _ _ _ => rfl⟩, ⟨trivial, 0, rfl⟩, trivial,
    List.Pairwise.nil, nofun⟩, fun n _ => h.2 n⟩, fun n e => ?_⟩
  exact iff_of_false not_mem_nil fun hn => absurd hn.1 not_mem_nil

/-- A run from an empty tree; it has at most as many nodes as calls were made. -/
theorem tracks_run (h0 : s0.IsEmpty) {ops : List IntervalOp} (hops : intervalSpec [] ops = some m)
    (hfuel : ops.length + 1 < fuel) :
    ∃ s t, intervalCalls fuel s0 ops = some s ∧ Tracks s t m ∧ (ids t).length ≤ ops.length := by
  have hnil : (ids .nil).length = 0 := rfl
  obtain ⟨s, t, hs, h, hlen⟩ := (tracks_empty h0).run fuel hops (by omega)
  exact ⟨s, t, hs, h, by omega⟩

/-- After every sequence of insertions and erasures the tree is a red-black tree,
ordered and without equal intervals, with consistent links and right maxima; it holds
the intervals that were inserted and not erased. Every prefix of the sequence is such a
sequence, so this holds after each call. -/
theorem intervalTree_runs (h0 : s0.IsEmpty) {ops : List IntervalOp}
    (hops : intervalSpec [] ops = some m) (hfuel : ops.length + 1 < fuel) :
    ∃ s t, intervalCalls fuel s0 ops = some s ∧ HoldsTree s m t := by
  obtain ⟨s, t, hs, h, -⟩ := tracks_run h0 hops hfuel
  exact ⟨s, t, hs, h.holdsTree⟩

/-- Memory before anything is inserted. -/
def blankTree : IntervalTree :=
  ⟨fun _ => ⟨none, none, none, .red, false, 0, ⟨0, 0⟩⟩, none⟩

theorem intervalTree_runs_dup : ∃ s t, intervalCalls 6 blankTree
    [.insert 1 0 10, .insert 2 5 7, .insert 3 5 7, .erase 1] = some s ∧
      HoldsTree s [(2, ⟨5, 7⟩)] t :=
  intervalTree_runs ⟨rfl, fun _ => rfl⟩ (by decide) (by decide)

end Runs

end Lustre
