import Lustre.IntervalSearch
import Mathlib.Algebra.Group.Nat.Defs

/-!
# Visiting what overlaps, and expanding an extent

For a tree that was built by insertions and erasures, `interval_search` with a callback that always
continues is the recursion of its comment (`intervalSearchRec`): it visits every interval that
overlaps the query once (`intervalSearch_visits`). `interval_expand` grows an extent that overlaps
nothing up to the next interval. It finds that one by a single walk down the tree
(`Stored.expandHigh`), because a subtree whose greatest end is below the extent has no interval that
starts above it.
-/

namespace Lustre

open List

open BinaryTree (inorder MaxOk forall_mem_node)

/-! ## The functions -/

section Functions

variable {σ : Type}

/-- The recursion in the comment of `interval_search`, on the nodes in memory. -/
def intervalSearchRec (ext : IntervalExtent) (func : σ → ℕ → σ) :
    ℕ → IntervalTree → Option ℕ → σ → Option σ
  | _, _, none, data => some data
  | 0, _, some _, _ => none
  | fuel + 1, s, some node, data =>
    if ext.stop < intervalLow s node then
      intervalSearchRec ext func fuel s (s.node node).inLeft data
    else if intervalMayOverlap s node ext then do
      let data := if extentOverlapped ext (s.node node).inExtent then func data node else data
      let data ← intervalSearchRec ext func fuel s (s.node node).inLeft data
      intervalSearchRec ext func fuel s (s.node node).inRight data
    else some data

/-- A callback that also notes which nodes it was called on. -/
def noting (func : σ → ℕ → σ × IntervalIter) (data : List ℕ × σ) (n : ℕ) :
    Option ((List ℕ × σ) × IntervalIter) :=
  some ((data.1 ++ [n], (func data.2 n).1), (func data.2 n).2)

def intervalOverlapCb (_ : Bool) (_ : ℕ) : Option (Bool × IntervalIter) := some (true, .stop)

variable (fuel : ℕ) (s : IntervalTree) (ext : IntervalExtent) (limiter : Option IntervalExtent)

def intervalIsOverlapped : Option Bool :=
  (intervalSearch ext intervalOverlapCb fuel s false).map Prod.fst

def intervalExpandLow (low : ℕ) : ℕ :=
  match s.root with
  | none => 0
  | some _ => low

/-- `~0`, the greatest `__u64`. -/
def maxU64 : ℕ := 2 ^ 64 - 1

/-- The loop of `interval_expand_high`. -/
def intervalExpandHighLoop (high : ℕ) : ℕ → IntervalTree → Option ℕ → ℕ → Option ℕ
  | _, _, none, result => some result
  | 0, _, some _, _ => none
  | fuel + 1, s, some node, result =>
    if (s.node node).inMaxHigh < high then some result
    else if high < intervalLow s node then
      intervalExpandHighLoop high fuel s (s.node node).inLeft (intervalLow s node - 1)
    else intervalExpandHighLoop high fuel s (s.node node).inRight result

def intervalExpandHigh (high : ℕ) : Option ℕ :=
  intervalExpandHighLoop high fuel s s.root maxU64

/-- The lower end after `interval_expand`. -/
def intervalExpandStart : ℕ :=
  if ∀ l ∈ limiter, l.start < ext.start then intervalExpandLow s ext.start else ext.start

/-- The upper end after `interval_expand`. -/
def intervalExpandStop : Option ℕ :=
  if ∀ l ∈ limiter, ext.stop < l.stop then intervalExpandHigh fuel s ext.stop else some ext.stop

/-- `LASSERT(interval_is_overlapped(root, ext) == 0)`. -/
def assertNotOverlapped : Option Unit :=
  (intervalIsOverlapped fuel s ext).bind fun has => if has then none else some ()

/-- `interval_expand`: the extent after it, or nothing if an assertion fails. -/
def intervalExpand : Option IntervalExtent := do
  assertNotOverlapped fuel s ext
  let stop ← intervalExpandStop fuel s ext limiter
  let ext' : IntervalExtent := ⟨intervalExpandStart s ext limiter, stop⟩
  assertNotOverlapped fuel s ext'
  return ext'

end Functions

/-! ## Callbacks on a list of nodes -/

section Callbacks

variable {σ : Type}

/-- A callback that always continues is called on every node. -/
theorem runIter_cont (f : σ → ℕ → σ) (data : σ) (ns : List ℕ) :
    runIter (fun d n => some (f d n, .cont)) data ns = some (ns.foldl f data, .cont) := by
  induction ns generalizing data with
  | nil => rfl
  | cons n ns ih => exact ih (f data n)

/-- A callback is called on the nodes up to the one where it stops. -/
theorem runIter_noting (func : σ → ℕ → σ × IntervalIter) (data : List ℕ × σ) (ns : List ℕ) :
    ∃ visited data' rc, visited <+: ns ∧ (rc = .cont → visited = ns) ∧
      runIter (noting func) data ns = some ((data.1 ++ visited, data'), rc) := by
  induction ns generalizing data with
  | nil =>
    refine ⟨[], data.2, .cont, prefix_rfl, fun _ => rfl, ?_⟩
    rw [append_nil]
    rfl
  | cons n ns ih =>
    cases hrc : (func data.2 n).2 with
    | stop =>
      refine ⟨[n], (func data.2 n).1, .stop, ⟨ns, rfl⟩, ?_, ?_⟩
      · intro hstop
        cases hstop
      · simp only [runIter, noting, hrc]
        rfl
    | cont =>
      obtain ⟨visited, data', rc, hpre, hall, hrun⟩ := ih (data.1 ++ [n], (func data.2 n).1)
      refine ⟨n :: visited, data', rc, cons_prefix_cons.mpr ⟨rfl, hpre⟩, ?_, ?_⟩
      · intro hcont
        rw [hall hcont]
      · have hstep : runIter (noting func) data (n :: ns) =
            runIter (noting func) (data.1 ++ [n], (func data.2 n).1) ns := by
          simp only [runIter, noting, hrc]
          rfl
        rw [hstep, hrun, append_assoc]
        rfl

theorem runIter_overlapCb (ns : List ℕ) :
    (runIter intervalOverlapCb false ns).map Prod.fst = some (decide (ns ≠ [])) := by
  cases ns with
  | nil | cons n ns => rfl

end Callbacks

section Stored

variable {h : ℕ → IntervalNode} {s : IntervalTree} {t : CellTree} {ext : IntervalExtent} {p : Option ℕ}
  {m : List (ℕ × IntervalExtent)} {fuel : ℕ}

/-- The recursion of the comment visits what `searchList` lists. -/
theorem intervalSearchRec_spec {σ : Type} (func : σ → ℕ → σ) (hrep : Rep s.node p t)
    (hfuel : t.inorder.length ≤ fuel) (data : σ) :
    intervalSearchRec ext func fuel s (ptr t) data = some ((searchList ext t).foldl func data) := by
  induction t generalizing p fuel data with
  | nil =>
    cases fuel with
    | zero | succ fuel => rfl
  | node c l r ihl ihr =>
    obtain ⟨hc, hl, hr⟩ := hrep
    rw [inorder, length_append, length_cons] at hfuel
    obtain _ | fuel := fuel
    · omega
    have hmay : intervalMayOverlap s c.id ext = c.mayOverlap ext := by
      rw [intervalMayOverlap, intervalLow, hc]
      rfl
    have hfl : l.inorder.length ≤ fuel := by omega
    have hfr : r.inorder.length ≤ fuel := by omega
    rw [ptr]
    simp only [intervalSearchRec, searchList, hmay, intervalLow, hc, Cell.toNode]
    split
    · exact ihl hl hfl data
    · split
      · simp only [ihl hl hfl, ihr hr hfr, Option.bind_eq_bind, Option.bind_some, foldl_append]
        split <;> rfl
      · rfl

/-- The walk of `interval_expand_high` comes to the first interval that starts above. -/
theorem intervalExpandHighLoop_spec (high : ℕ) (hrep : Rep s.node p t) (hord : Ordered t)
    (hmax : MaxOk Cell.high Cell.maxHigh t) (hwf : ∀ c ∈ t.inorder, c.extent.start ≤ c.extent.stop)
    (hfuel : t.inorder.length ≤ fuel) (result : ℕ) :
    ∃ r, intervalExpandHighLoop high fuel s (ptr t) result = some r ∧
      ((∃ c ∈ t.inorder, high < c.extent.start ∧ r = c.extent.start - 1 ∧
          ∀ b ∈ t.inorder, high < b.extent.start → c.extent.start ≤ b.extent.start) ∨
        (r = result ∧ ∀ b ∈ t.inorder, ¬ high < b.extent.start)) := by
  induction t generalizing p fuel result with
  | nil =>
    refine ⟨result, ?_, .inr ⟨rfl, forall_mem_nil _⟩⟩
    cases fuel with
    | zero | succ fuel => rfl
  | node c l r ihl ihr =>
    have hle := hmax.topMax.1
    obtain ⟨hc, hl, hr⟩ := hrep
    obtain ⟨hol, hor, hlc, hcr, -⟩ := ordered_node.mp hord
    obtain ⟨-, hml, hmr⟩ := hmax
    rw [inorder, length_append, length_cons] at hfuel
    obtain _ | fuel := fuel
    · omega
    obtain ⟨hwfl, -, hwfr⟩ := forall_mem_node.mp hwf
    have hfl : l.inorder.length ≤ fuel := by omega
    have hfr : r.inorder.length ≤ fuel := by omega
    rw [ptr]
    simp only [intervalExpandHighLoop, intervalLow, hc, Cell.toNode]
    by_cases hbelow : c.maxHigh < high
    · -- every interval of the subtree ends, and so starts, below
      rw [if_pos hbelow]
      refine ⟨result, rfl, .inr ⟨rfl, fun b hb hlt => ?_⟩⟩
      have hend : b.extent.stop ≤ c.maxHigh := hle b hb
      have hstart := hwf b hb
      omega
    · rw [if_neg hbelow]
      by_cases habove : high < c.extent.start
      · -- the node is the best so far; only the left subtree can be better
        rw [if_pos habove]
        obtain ⟨q, hq, hcase⟩ := ihl hl hol hml hwfl hfl (c.extent.start - 1)
        refine ⟨q, hq, .inl ?_⟩
        have hright' : ∀ b ∈ r.inorder, c.extent.start ≤ b.extent.start :=
          fun b hb => start_le_of_lt (hcr b hb)
        rcases hcase with ⟨a, ha, hlt, hqa, hleast⟩ | ⟨hqr, hnone⟩
        · have hac : a.extent.start ≤ c.extent.start := start_le_of_lt (hlc a ha)
          refine ⟨a, by simp [ha], hlt, hqa, forall_mem_node.mpr ⟨hleast, fun _ => hac, ?_⟩⟩
          exact fun b hb _ => Nat.le_trans hac (hright' b hb)
        · refine ⟨c, by simp, habove, hqr, forall_mem_node.mpr ⟨?_, fun _ => Nat.le_refl _, ?_⟩⟩
          · exact fun b hb hbl => absurd hbl (hnone b hb)
          · exact fun b hb _ => hright' b hb
      · -- the node and its left subtree start below
        rw [if_neg habove]
        obtain ⟨q, hq, hcase⟩ := ihr hr hor hmr hwfr hfr result
        have hleft' : ∀ b ∈ l.inorder, ¬ high < b.extent.start := by
          intro b hb hlt
          have hbc : b.extent.start ≤ c.extent.start := start_le_of_lt (hlc b hb)
          omega
        refine ⟨q, hq, ?_⟩
        rcases hcase with ⟨a, ha, hlt, hqa, hleast⟩ | ⟨hqr, hnone⟩
        · refine .inl ⟨a, by simp [ha], hlt, hqa, forall_mem_node.mpr ⟨?_, ?_, hleast⟩⟩
          · exact fun b hb hbl => absurd hbl (hleft' b hb)
          · exact fun hbl => absurd hbl habove
        · exact .inr ⟨hqr, forall_mem_node.mpr ⟨hleft', habove, hnone⟩⟩

end Stored

/-! ## Searching a tree that was built by calls -/

variable {ext : IntervalExtent}

section Runs

variable {s s0 : IntervalTree} {t : CellTree} {ext : IntervalExtent}
  {m : List (ℕ × IntervalExtent)} {fuel : ℕ}

/-- The search visits the intervals that overlap. -/
theorem Tracks.mem_searchList (h : Tracks s t m) (ext : IntervalExtent) {n : ℕ} :
    n ∈ searchList ext t ↔ ∃ e, (n, e) ∈ m ∧ extentOverlapped ext e = true := by
  rw [h.owns.mem_searchList]
  constructor
  · rintro ⟨hid, hov⟩
    exact ⟨_, (h.contents _ _).mpr ⟨hid, rfl⟩, hov⟩
  · rintro ⟨e, he, hov⟩
    obtain ⟨hid, rfl⟩ := (h.contents n e).mp he
    exact ⟨hid, hov⟩

/-- `interval_is_overlapped` asks whether an interval of the tree overlaps. -/
theorem Tracks.isOverlapped (h : Tracks s t m) (ext : IntervalExtent)
    (hfuel : (ids t).length < fuel) : intervalIsOverlapped fuel s ext =
      some (decide (∃ a ∈ m, extentOverlapped ext a.2 = true)) := by
  rw [intervalIsOverlapped, h.owns.search ext hfuel, runIter_overlapCb]
  have hiff : searchList ext t ≠ [] ↔ ∃ a ∈ m, extentOverlapped ext a.2 = true := by
    constructor
    · intro hne
      obtain ⟨n, hn⟩ := exists_mem_of_ne_nil _ hne
      obtain ⟨e, he, hov⟩ := (h.mem_searchList ext).mp hn
      exact ⟨(n, e), he, hov⟩
    · rintro ⟨⟨n, e⟩, ha, hov⟩
      exact ne_nil_of_mem ((h.mem_searchList ext).mpr ⟨e, ha, hov⟩)
  rw [decide_eq_decide.mpr hiff]

/-- In a tree built by calls, `interval_search` visits each interval that overlaps the query once
and no other, as the recursion of its comment does; a callback that stops has been called on a
part of that sequence from its beginning. `interval_is_overlapped` is whether there is any. -/
theorem intervalSearch_visits (h0 : s0.IsEmpty) {ops : List IntervalOp}
    (hops : intervalSpec [] ops = some m) (hfuel : ops.length + 1 < fuel) (ext : IntervalExtent) :
    ∃ s ns, intervalCalls fuel s0 ops = some s ∧ ns.Nodup ∧
      (∀ n, n ∈ ns ↔ ∃ e, (n, e) ∈ m ∧ extentOverlapped ext e = true) ∧
      (∀ {σ : Type} (f : σ → ℕ → σ) (data : σ),
        intervalSearch ext (fun d n => some (f d n, .cont)) fuel s data =
            some (ns.foldl f data, .cont) ∧
          intervalSearchRec ext f fuel s s.root data = some (ns.foldl f data)) ∧
      (∀ {σ : Type} (func : σ → ℕ → σ × IntervalIter) (data : σ), ∃ visited data' rc,
        visited <+: ns ∧ (rc = .cont → visited = ns) ∧
          intervalSearch ext (noting func) fuel s ([], data) = some ((visited, data'), rc)) ∧
      intervalIsOverlapped fuel s ext =
        some (decide (∃ a ∈ m, extentOverlapped ext a.2 = true)) := by
  obtain ⟨s, t, hs, h, hlen⟩ := tracks_run h0 hops hfuel
  have hst := h.owns.stored
  have hsize : (ids t).length < fuel := by omega
  refine ⟨s, searchList ext t, hs, h.owns.nodup_searchList ext, fun n => h.mem_searchList ext,
    ?_, ?_, h.isOverlapped ext hsize⟩
  · intro σ f data
    have hsize' : t.inorder.length ≤ fuel := by
      rw [ids, length_map] at hsize
      exact Nat.le_of_lt hsize
    rw [h.owns.search ext hsize, runIter_cont, hst.placed.root]
    exact ⟨rfl, intervalSearchRec_spec f hst.placed.rep hsize' data⟩
  · intro σ func data
    rw [h.owns.search ext hsize]
    obtain ⟨visited, data', rc, hpre, hall, hrun⟩ :=
      runIter_noting func ([], data) (searchList ext t)
    exact ⟨visited, data', rc, hpre, hall, hrun⟩

/-- Three intervals, one of which was erased, and a query that touches one of the other two. -/
theorem intervalSearch_visits_one : ∃ (s : IntervalTree) (ns : List ℕ), intervalCalls 6 blankTree
    [.insert 1 0 10, .insert 2 5 7, .insert 3 20 30, .erase 2] = some s ∧ ns.Nodup ∧
      (∀ n, n ∈ ns ↔ n = 3) ∧ intervalIsOverlapped 6 s ⟨12, 20⟩ = some true := by
  obtain ⟨s, ns, hs, hnd, hmem, -, -, hov⟩ := intervalSearch_visits
    (m := [(3, ⟨20, 30⟩), (1, ⟨0, 10⟩)]) (show blankTree.IsEmpty from ⟨rfl, fun _ => rfl⟩)
    (show intervalSpec [] [.insert 1 0 10, .insert 2 5 7, .insert 3 20 30, .erase 2] = _ by decide)
    (show _ < 6 by decide) ⟨12, 20⟩
  refine ⟨s, ns, hs, hnd, fun n => ?_, hov⟩
  rw [hmem]
  constructor
  · rintro ⟨e, he, ho⟩
    simp only [mem_cons, Prod.mk.injEq, not_mem_nil, or_false] at he
    rcases he with ⟨rfl, -⟩ | ⟨-, rfl⟩
    · rfl
    · exact absurd ho (by decide)
  · rintro rfl
    exact ⟨⟨20, 30⟩, by simp, by decide⟩

/-! ## Expanding an extent -/

/-- The intervals in a tree do not end before they start. -/
theorem intervalSpec_start_le {m m' : List (ℕ × IntervalExtent)} {ops : List IntervalOp}
    (hops : intervalSpec m ops = some m') (h : ∀ a ∈ m, a.2.start ≤ a.2.stop) :
    ∀ a ∈ m', a.2.start ≤ a.2.stop := by
  induction ops generalizing m with
  | nil =>
    cases hops
    exact h
  | cons op ops ih =>
    rw [intervalSpec] at hops
    obtain ⟨m1, hm1, hops⟩ := Option.bind_eq_some_iff.mp hops
    refine ih hops ?_
    cases op with
    | insert n start stop =>
      rw [IntervalOp.spec] at hm1
      split at hm1
      · cases hm1
      · next hok =>
        split at hm1
        · cases hm1
          exact h
        · cases hm1
          exact forall_mem_cons.mpr ⟨Nat.not_lt.mp fun hlt => hok (.inl hlt), h⟩
    | erase n =>
      rw [IntervalOp.spec] at hm1
      split at hm1
      · cases hm1
        exact fun a ha => h a (mem_filter.mp ha).1
      · cases hm1

/-- One below the least start above `high`, or the greatest number if there is none. -/
def BelowNext (m : List (ℕ × IntervalExtent)) (high result : ℕ) : Prop :=
  (∃ a ∈ m, high < a.2.start ∧ result = a.2.start - 1 ∧
    ∀ b ∈ m, high < b.2.start → a.2.start ≤ b.2.start) ∨
  (result = maxU64 ∧ ∀ b ∈ m, ¬ high < b.2.start)

theorem BelowNext.le {high result : ℕ} (h : BelowNext m high result) (hhigh : high ≤ maxU64) :
    high ≤ result := by
  rcases h with ⟨b, -, hb, hres, -⟩ | ⟨hres, -⟩
  · omega
  · rw [hres]
    exact hhigh

section

variable (h : Tracks s t m) (hwf : ∀ a ∈ m, a.2.start ≤ a.2.stop) (hfuel : (ids t).length < fuel)
include h hwf hfuel

/-- `interval_expand_high`, for a user of the tree. -/
theorem Tracks.expandHigh (high : ℕ) :
    ∃ r, intervalExpandHigh fuel s high = some r ∧ BelowNext m high r := by
  have hst := h.owns.stored
  have hcell : ∀ c ∈ t.inorder, (c.id, c.extent) ∈ m := by
    intro c hc
    exact (h.contents _ _).mpr ⟨mem_map_of_mem hc, hst.placed.rep.extent hc⟩
  have hback : ∀ a ∈ m, ∃ c ∈ t.inorder, c.extent = a.2 := by
    rintro ⟨n, e⟩ ha
    obtain ⟨hid, rfl⟩ := (h.contents n e).mp ha
    obtain ⟨c, hc, rfl⟩ := mem_map.mp hid
    exact ⟨c, hc, (hst.placed.rep.extent hc).symm⟩
  rw [ids, length_map] at hfuel
  obtain ⟨r, hr, hcase⟩ := intervalExpandHighLoop_spec high hst.placed.rep
    (ordered_iff.mpr hst.sorted) hst.maxOk (fun c hc => hwf _ (hcell c hc)) (Nat.le_of_lt hfuel)
    maxU64
  refine ⟨r, ?_, ?_⟩
  · rw [intervalExpandHigh, hst.placed.root]
    exact hr
  · rcases hcase with ⟨c, hc, hlt, hrc, hleast⟩ | ⟨hrm, hnone⟩
    · refine .inl ⟨(c.id, c.extent), hcell c hc, hlt, hrc, fun b hb hbl => ?_⟩
      obtain ⟨c', hc', heq⟩ := hback b hb
      rw [← heq] at hbl ⊢
      exact hleast c' hc' hbl
    · refine .inr ⟨hrm, fun b hb => ?_⟩
      obtain ⟨c', hc', heq⟩ := hback b hb
      rw [← heq]
      exact hnone c' hc'

omit hwf hfuel in
/-- Growing down is for an empty tree only. -/
theorem Tracks.expandLow (low : ℕ) :
    intervalExpandLow s low ≤ low ∧ (intervalExpandLow s low = low ∨ m = []) := by
  rw [intervalExpandLow, h.owns.stored.placed.root]
  cases t with
  | node c l r => exact ⟨Nat.le_refl _, .inl rfl⟩
  | nil =>
    refine ⟨Nat.zero_le _, .inr (eq_nil_iff_forall_not_mem.mpr ?_)⟩
    rintro ⟨n, e⟩ ha
    exact absurd ((h.contents n e).mp ha).1 not_mem_nil

omit hwf hfuel in
theorem Tracks.expandStart (ext : IntervalExtent) (limiter : Option IntervalExtent) :
    intervalExpandStart s ext limiter ≤ ext.start ∧
      (intervalExpandStart s ext limiter = ext.start ∨ m = []) := by
  rw [intervalExpandStart]
  split
  · exact h.expandLow ext.start
  · exact ⟨Nat.le_refl _, .inl rfl⟩

theorem Tracks.expandStop (hext : ext.stop ≤ maxU64) (limiter : Option IntervalExtent) :
    ∃ stop, intervalExpandStop fuel s ext limiter = some stop ∧ ext.stop ≤ stop ∧
      (stop = ext.stop ∨ BelowNext m ext.stop stop) ∧
      ((∀ l ∈ limiter, ext.stop < l.stop) → BelowNext m ext.stop stop) := by
  rw [intervalExpandStop]
  split
  · obtain ⟨r, hr, hnext⟩ := h.expandHigh hwf hfuel ext.stop
    exact ⟨r, hr, hnext.le hext, .inr hnext, fun _ => hnext⟩
  · next hlim => exact ⟨_, rfl, Nat.le_refl _, .inl rfl, fun hall => absurd hall hlim⟩

omit hwf in
theorem Tracks.assertNotOverlapped (hno : ∀ a ∈ m, extentOverlapped ext a.2 = false) :
    assertNotOverlapped fuel s ext = some () := by
  have hnone : ¬ ∃ a ∈ m, extentOverlapped ext a.2 = true := by
    rintro ⟨a, ha, hov⟩
    rw [hno a ha] at hov
    cases hov
  rw [Lustre.assertNotOverlapped, h.isOverlapped ext hfuel, decide_eq_false hnone]
  rfl

/-- `interval_expand`, for a user of the tree. -/
theorem Tracks.expand (hext : ext.stop ≤ maxU64) (hno : ∀ a ∈ m, extentOverlapped ext a.2 = false)
    (limiter : Option IntervalExtent) :
    ∃ ext', intervalExpand fuel s ext limiter = some ext' ∧ ext'.start ≤ ext.start ∧
      ext.stop ≤ ext'.stop ∧ (∀ a ∈ m, extentOverlapped ext' a.2 = false) ∧
      ((∀ l ∈ limiter, ext.stop < l.stop) → BelowNext m ext.stop ext'.stop) := by
  obtain ⟨hsle, hs⟩ := h.expandStart ext limiter
  obtain ⟨stop, hstop, hle, hor, hnext⟩ := h.expandStop hwf hfuel hext limiter
  -- it grows up to the next interval, and down only if there is none
  have hgrown : ∀ a ∈ m, extentOverlapped ⟨intervalExpandStart s ext limiter, stop⟩ a.2 = false := by
    intro a ha
    have hold := hno a ha
    rw [hs.resolve_right (ne_nil_of_mem ha)]
    rw [← Bool.not_eq_true, extentOverlapped_iff] at hold ⊢
    rintro ⟨hlow, hhigh⟩
    dsimp only at hlow hhigh
    by_cases hlt : ext.stop < a.2.start
    · rcases hor with rfl | hnext
      · omega
      · rcases hnext with ⟨b, -, hb, hres, hleast⟩ | ⟨-, hnone⟩
        · have := hleast a ha hlt
          omega
        · exact hnone a ha hlt
    · exact hold ⟨hlow, Nat.not_lt.mp hlt⟩
  refine ⟨_, ?_, hsle, hle, hgrown, hnext⟩
  rw [intervalExpand, h.assertNotOverlapped hfuel hno, hstop]
  dsimp only [Option.bind_eq_bind, Option.bind_some]
  rw [h.assertNotOverlapped hfuel hgrown]
  rfl

end

/-- In a tree built by calls, `interval_expand` of an extent that overlaps no interval returns one
that contains it and still overlaps none. If it may grow upwards, it ends one below the next
interval. -/
theorem intervalExpand_grows (h0 : s0.IsEmpty) {ops : List IntervalOp}
    (hops : intervalSpec [] ops = some m) (hfuel : ops.length + 1 < fuel) {ext : IntervalExtent}
    (hext : ext.stop ≤ maxU64) (hno : ∀ a ∈ m, extentOverlapped ext a.2 = false)
    (limiter : Option IntervalExtent) :
    ∃ s ext', intervalCalls fuel s0 ops = some s ∧ intervalExpand fuel s ext limiter = some ext' ∧
      ext'.start ≤ ext.start ∧ ext.stop ≤ ext'.stop ∧ (∀ a ∈ m, extentOverlapped ext' a.2 = false) ∧
      ((∀ l ∈ limiter, ext.stop < l.stop) →
        (∃ a ∈ m, ext.stop < a.2.start ∧ ext'.stop = a.2.start - 1 ∧
          ∀ b ∈ m, ext.stop < b.2.start → a.2.start ≤ b.2.start) ∨
        (ext'.stop = 2 ^ 64 - 1 ∧ ∀ b ∈ m, ¬ ext.stop < b.2.start)) := by
  obtain ⟨s, t, hs, h, hlen⟩ := tracks_run h0 hops hfuel
  have hwf := intervalSpec_start_le hops (forall_mem_nil _)
  have hsize : (ids t).length < fuel := by omega
  obtain ⟨ext', hcall, hstart, hstop, hnone, hnext⟩ := h.expand hwf hsize hext hno limiter
  exact ⟨s, ext', hs, hcall, hstart, hstop, hnone, hnext⟩

/-- Between two intervals an extent grows up to the second one. -/
theorem intervalExpand_grows_between : ∃ s ext', intervalCalls 4 blankTree
    [.insert 1 0 10, .insert 2 50 60] = some s ∧
      intervalExpand 4 s ⟨20, 30⟩ none = some ext' ∧ ext'.start ≤ 20 ∧ ext'.stop = 49 := by
  obtain ⟨s, ext', hs, hcall, hstart, hstop, -, hnext⟩ := intervalExpand_grows
    (m := [(2, ⟨50, 60⟩), (1, ⟨0, 10⟩)]) (show blankTree.IsEmpty from ⟨rfl, fun _ => rfl⟩)
    (show intervalSpec [] [.insert 1 0 10, .insert 2 50 60] = _ by decide)
    (show _ < 4 by decide) (show (⟨20, 30⟩ : IntervalExtent).stop ≤ maxU64 by decide)
    (by decide) none
  refine ⟨s, ext', hs, hcall, hstart, ?_⟩
  rcases hnext (fun l hl => by cases hl) with ⟨a, ha, hlt, heq, -⟩ | ⟨-, hnone⟩
  · simp only [mem_cons, not_mem_nil, or_false] at ha
    rcases ha with rfl | rfl
    · exact heq
    · exact absurd hlt (by decide)
  · exact absurd (by decide) (hnone (2, ⟨50, 60⟩) (by simp))

end Runs

end Lustre
