import Lustre.Binheap

/-!
# Runs of the binary heap

The loops of `cfs_binheap_bubble` and `cfs_binheap_sink` carry a node through a hole, as
the sifts of an array do: `CbhHole` and `CbhHolds` say which array a heap holds, with and
without a hole, and every loop does to the heap what the sift does to the array. The order
comes from the sifts, so in every run of insertions, removals and changes of a key the
heap is ordered, complete and knows where its nodes are (`binheap_runs`).
-/

namespace Lustre

open Option (bind_eq_some_iff bind_some map_eq_some_iff)

open SiftHeap

/-! ## The array of a heap -/

/-- The first `n` positions of the heap are the array `a`, but for the hole `cur`, in which `e` is
to be put. -/
structure CbhHole (s : CbhState) (a : ℕ → ℕ) (n cur e : ℕ) : Prop where
  pages : CbhPages s.heap
  size : n ≤ s.heap.cbhHwm
  cur_lt : cur < n
  node : ∀ i, i < n → i ≠ cur → s.heap.node i = some (a i)
  index : ∀ i, i < n → i ≠ cur → s.chnIndex (a i) = i
  fresh : ∀ i, i < n → i ≠ cur → a i ≠ e

/-- The first `n` positions of the heap are the array `a`. -/
structure CbhHolds (s : CbhState) (a : ℕ → ℕ) (n : ℕ) : Prop where
  pages : CbhPages s.heap
  size : n ≤ s.heap.cbhHwm
  node : ∀ i, i < n → s.heap.node i = some (a i)
  index : ∀ i, i < n → s.chnIndex (a i) = i

variable {s : CbhState} {a : ℕ → ℕ} {n cur e : ℕ}

theorem CbhHolds.inj (h : CbhHolds s a n) {i j : ℕ} (hi : i < n) (hj : j < n) (heq : a i = a j) :
    i = j := by
  rw [← h.index i hi, heq, h.index j hj]

theorem CbhHolds.hole (h : CbhHolds s a n) (hcur : cur < n) : CbhHole s a n cur (a cur) :=
  ⟨h.pages, h.size, hcur, fun i hi _ => h.node i hi, fun i hi _ => h.index i hi,
    fun _ hi hne heq => hne (h.inj hi hcur heq)⟩

open Function (update update_self update_of_ne)

theorem CbhHole.put (h : CbhHole s a n cur e) : ∃ s', s.put cur e = some s' ∧
    CbhHolds s' (update a cur e) n ∧ s'.heap.cbhNelements = s.heap.cbhNelements := by
  obtain ⟨heap, hput, hpages, hnel, hhwm, hself, hother⟩ :=
    CfsBinheap.put_spec h.pages (Nat.lt_of_lt_of_le h.cur_lt h.size) e
  refine ⟨⟨heap, update s.chnIndex e cur⟩, by rw [CbhState.put, hput]; rfl,
    ⟨hpages, hhwm ▸ h.size, fun i hi => ?_, fun i hi => ?_⟩, hnel⟩
  · by_cases hic : i = cur
    · rw [hic, update_self, hself]
    · rw [update_of_ne hic, hother i hic, h.node i hi hic]
  · dsimp only
    by_cases hic : i = cur
    · rw [hic, update_self, update_self]
    · rw [update_of_ne hic, update_of_ne (h.fresh i hi hic), h.index i hi hic]

/-- A node moves into the hole, and leaves one. -/
theorem CbhHole.move (h : CbhHole s a n cur e) {p : ℕ} (hp : p < n) (hpc : p ≠ cur) :
    ∃ s', s.put cur (a p) = some s' ∧ CbhHole s' (update a cur (a p)) n p e ∧
      s'.heap.cbhNelements = s.heap.cbhNelements := by
  obtain ⟨heap, hput, hpages, hnel, hhwm, hself, hother⟩ :=
    CfsBinheap.put_spec h.pages (Nat.lt_of_lt_of_le h.cur_lt h.size) (a p)
  refine ⟨⟨heap, update s.chnIndex (a p) cur⟩, by rw [CbhState.put, hput]; rfl,
    ⟨hpages, hhwm ▸ h.size, hp, fun i hi hip => ?_, fun i hi hip => ?_, fun i hi hip => ?_⟩, hnel⟩
  · by_cases hic : i = cur
    · rw [hic, update_self, hself]
    · rw [update_of_ne hic, hother i hic, h.node i hi hic]
  · dsimp only
    by_cases hic : i = cur
    · rw [hic, update_self, update_self]
    · have hne : a i ≠ a p := fun heq =>
        hip (by rw [← h.index i hi hic, heq, h.index p hp hpc])
      rw [update_of_ne hic, update_of_ne hne, h.index i hi hic]
  · by_cases hic : i = cur
    · rw [hic, update_self]
      exact h.fresh p hp hpc
    · rw [update_of_ne hic]
      exact h.fresh i hi hic

/-! ## The loops -/

variable (hopCompare : ℕ → ℕ → Bool)

/-- The loop of `cfs_binheap_bubble` sifts up, and says whether something moved. -/
theorem cfsBinheapBubbleLoop_spec (fuel : ℕ) (didSth : Bool) (h : CbhHole s a n cur e)
    (hfuel : cur < fuel) : ∃ s', cfsBinheapBubbleLoop hopCompare e fuel cur didSth s =
        some (s', didSth || decide ((siftUp hopCompare e fuel cur a).2 ≠ cur)) ∧
      CbhHolds s' (siftUp hopCompare e fuel cur a).1 n ∧
      s'.heap.cbhNelements = s.heap.cbhNelements := by
  induction fuel generalizing s a cur didSth with
  | zero => omega
  | succ fuel ih =>
    rw [cfsBinheapBubbleLoop, siftUp]
    by_cases hzero : cur = 0
    · obtain ⟨s', hput, hholds, hnel⟩ := h.put
      rw [if_pos hzero, if_pos (Or.inl hzero), hput]
      exact ⟨s', by simp, hholds, hnel⟩
    have hp := parent_lt (Nat.pos_of_ne_zero hzero)
    have hcur := h.cur_lt
    have hpn : parent cur < n := by omega
    have hread : s.heap.node ((cur - 1) / 2) = some (a (parent cur)) :=
      h.node (parent cur) hpn (by omega)
    have hidx : s.chnIndex (a (parent cur)) = (cur - 1) / 2 := h.index _ hpn (by omega)
    rw [if_neg hzero]
    dsimp only
    rw [hread, bind_some, if_neg (not_not.mpr hidx)]
    by_cases hle : hopCompare (a (parent cur)) e = true
    · obtain ⟨s', hput, hholds, hnel⟩ := h.put
      rw [if_pos hle, if_pos (Or.inr hle), hput]
      exact ⟨s', by simp, hholds, hnel⟩
    · obtain ⟨s1, hput, hhole, hnel⟩ := h.move hpn (by omega)
      obtain ⟨s', hrun, hholds, hnel'⟩ := ih true hhole (by omega)
      rw [if_neg hle, if_neg (not_or.mpr ⟨hzero, hle⟩), hput, bind_some]
      have hlow := siftUp_snd_le hopCompare e fuel (parent cur) (update a cur (a (parent cur)))
      refine ⟨s', ?_, hholds, hnel'.trans hnel⟩
      rw [decide_eq_true (show _ ≠ cur by omega), Bool.or_true]
      exact hrun

/-- The child that `cfs_binheap_sink` picks. -/
theorem cfsBinheapChild_spec (h : CbhHole s a n cur e) (hchild : 2 * cur + 1 < n) :
    cfsBinheapChild hopCompare s n cur =
      some (firstChild hopCompare a n cur, a (firstChild hopCompare a n cur)) := by
  rw [cfsBinheapChild, firstChild]
  rw [h.node (2 * cur + 1) hchild (by omega), bind_some]
  by_cases htwo : 2 * cur + 1 + 1 < n
  · rw [if_pos htwo, h.node (2 * cur + 1 + 1) htwo (by omega), Option.map_some]
    by_cases hle : hopCompare (a (2 * cur + 2)) (a (2 * cur + 1)) = true
    · rw [if_pos hle, if_pos ⟨htwo, hle⟩]
    · rw [if_neg hle, if_neg (fun hc => hle hc.2)]
  · rw [if_neg htwo, if_neg (fun hc => htwo hc.1)]

/-- The loop of `cfs_binheap_sink` sifts down. -/
theorem cfsBinheapSinkLoop_spec (fuel : ℕ) (didSth : Bool) (h : CbhHole s a n cur e)
    (hfuel : n ≤ cur + fuel) : ∃ r, cfsBinheapSinkLoop hopCompare e n fuel cur didSth s = some r ∧
      CbhHolds r.1 (siftDown hopCompare e n fuel cur a).1 n ∧
      r.1.heap.cbhNelements = s.heap.cbhNelements := by
  have hcur := h.cur_lt
  induction fuel generalizing s a cur didSth with
  | zero => omega
  | succ fuel ih =>
    rw [cfsBinheapSinkLoop, siftDown]
    by_cases hleaf : n ≤ 2 * cur + 1
    · obtain ⟨s', hput, hholds, hnel⟩ := h.put
      rw [if_pos (Or.inr hleaf), if_pos (Or.inl hleaf), hput]
      exact ⟨_, rfl, hholds, hnel⟩
    have hchild : 2 * cur + 1 < n := Nat.lt_of_not_le hleaf
    obtain ⟨hcn, -, hlt⟩ := firstChild_mem hopCompare a hchild
    have hidx := h.index _ hcn (by omega)
    rw [if_neg (not_or.mpr ⟨by omega, hleaf⟩), cfsBinheapChild_spec hopCompare h hchild, bind_some,
      if_neg (not_not.mpr hidx)]
    by_cases hle : hopCompare e (a (firstChild hopCompare a n cur)) = true
    · obtain ⟨s', hput, hholds, hnel⟩ := h.put
      rw [if_pos hle, if_pos (Or.inr hle), hput]
      exact ⟨_, rfl, hholds, hnel⟩
    · obtain ⟨s1, hput, hhole, hnel⟩ := h.move hcn (by omega)
      obtain ⟨r, hrun, hholds, hnel'⟩ := ih true hhole (by omega) hcn
      rw [if_neg hle, if_neg (not_or.mpr ⟨hleaf, hle⟩), hput, bind_some]
      exact ⟨r, hrun, hholds, hnel'.trans hnel⟩

/-! ## The operations -/

theorem cfsBinheapBubble_spec (h : CbhHolds s a n) (hcur : cur < n) :
    ∃ s', cfsBinheapBubble hopCompare s (a cur) =
        some (s', decide ((siftUp hopCompare (a cur) (cur + 1) cur a).2 ≠ cur)) ∧
      CbhHolds s' (siftUp hopCompare (a cur) (cur + 1) cur a).1 n ∧
      s'.heap.cbhNelements = s.heap.cbhNelements := by
  obtain ⟨s', hrun, hrest⟩ := cfsBinheapBubbleLoop_spec hopCompare (cur + 1) false
    (h.hole hcur) (Nat.lt_succ_self cur)
  refine ⟨s', ?_, hrest⟩
  rw [cfsBinheapBubble, h.index cur hcur, if_neg (not_not.mpr (h.node cur hcur)), hrun,
    Bool.false_or]

theorem cfsBinheapRelocate_spec (h : CbhHolds s a n) (hn : s.heap.cbhNelements = n)
    (hcur : cur < n) : ∃ s', cfsBinheapRelocate hopCompare s (a cur) = some s' ∧
      CbhHolds s' (relocate hopCompare (a cur) n cur a).1 n ∧ s'.heap.cbhNelements = n := by
  obtain ⟨s1, hbubble, hholds, hnel⟩ := cfsBinheapBubble_spec hopCompare h hcur
  rw [cfsBinheapRelocate, hbubble, bind_some, relocate]
  by_cases hstay : (siftUp hopCompare (a cur) (cur + 1) cur a).2 = cur
  · -- nothing moved: the node is still at its position
    rw [if_pos hstay, if_neg (by simpa using hstay)]
    obtain ⟨hput, -⟩ := siftUp_of_snd_eq hstay
    rw [hput] at hholds ⊢
    have hself : update a cur (a cur) cur = a cur := update_self ..
    have hhole := hholds.hole hcur
    rw [hself] at hhole
    obtain ⟨r, hrun, hsink, hnel'⟩ := cfsBinheapSinkLoop_spec hopCompare n false hhole (by omega)
    have hidx := hholds.index cur hcur
    have hnode := hholds.node cur hcur
    rw [hself] at hidx hnode
    refine ⟨r.1, ?_, hsink, by omega⟩
    rw [cfsBinheapSink, hidx, if_neg (not_not.mpr hnode), hnel, hn, hrun]
    rfl
  · rw [if_neg hstay, if_pos (by simpa using hstay)]
    exact ⟨s1, rfl, hholds, by omega⟩

/-! ## Runs -/

universe u

variable {κ : Type u}

/-- A heap, the keys of the nodes and the nodes that are in it. -/
structure CbhRun (κ : Type u) where
  /-- the heap and its nodes -/
  state : CbhState
  /-- what a node is compared by -/
  key : ℕ → κ
  /-- inserted and not removed -/
  present : ℕ → Bool

/-- A call. -/
inductive CbhOp (κ : Type u) where
  /-- insert a node with a key; the allocations and `hop_enter` may fail -/
  | insert (e : ℕ) (k : κ) (alloc : CbhAlloc) (enter : ℤ)
  | remove (e : ℕ)
  /-- change the key of a node and relocate it -/
  | relocate (e : ℕ) (k : κ)

variable (cmp : κ → κ → Bool) (r : CbhRun κ)

/-- A total preorder on the keys, as `hop_compare` on nodes. -/
def CbhRun.compare (e e' : ℕ) : Bool := cmp (r.key e) (r.key e')

/-- The node gets a key. -/
def CbhRun.setKey (e : ℕ) (k : κ) : CbhRun κ :=
  { r with key := update r.key e k }

/-- One call. -/
def cbhStep : CbhOp κ → Option (CbhRun κ)
  | .insert e k alloc enter =>
    (cfsBinheapInsert ((r.setKey e k).compare cmp) r.state e alloc enter).map fun res =>
      { r.setKey e k with
        state := res.2
        present := if res.1 = (0 : ℤ) then update r.present e true else r.present }
  | .remove e =>
    (cfsBinheapRemove (r.compare cmp) r.state e).map fun s =>
      { r with state := s, present := update r.present e false }
  | .relocate e k =>
    (cfsBinheapRelocate ((r.setKey e k).compare cmp) r.state e).map fun s =>
      { r.setKey e k with state := s }

/-- Nodes that are not there are inserted, nodes that are there are removed and relocated. -/
def CbhUse : CbhOp κ → Prop
  | .insert e _ _ _ => r.present e = false
  | .remove e => r.present e = true
  | .relocate e _ => r.present e = true

/-- What a heap promises. -/
structure CbhGood : Prop where
  /-- every position holds a node that is there and knows its position -/
  filled : ∀ i, i < r.state.heap.cbhNelements → ∃ e, cfsBinheapFind r.state.heap i = some e ∧
    r.present e = true ∧ r.state.chnIndex e = i
  /-- every node that is there stands at its position -/
  indexed : ∀ e, r.present e = true → cfsBinheapFind r.state.heap (r.state.chnIndex e) = some e
  /-- no node ranks before its parent -/
  ordered : ∀ i p e, 0 < i → cfsBinheapFind r.state.heap i = some e →
    cfsBinheapFind r.state.heap ((i - 1) / 2) = some p → cmp (r.key p) (r.key e) = true
  /-- the root ranks first -/
  root : ∀ e, r.present e = true → ∃ root, cfsBinheapFind r.state.heap 0 = some root ∧
    cmp (r.key root) (r.key e) = true

/-- The heap is an ordered array of the nodes that are there. -/
structure CbhInv (a : ℕ → ℕ) : Prop where
  holds : CbhHolds r.state a r.state.heap.cbhNelements
  ordered : Ordered (r.compare cmp) a r.state.heap.cbhNelements
  present : ∀ e, r.present e = true ↔ ∃ i, i < r.state.heap.cbhNelements ∧ a i = e

variable {cmp : κ → κ → Bool} {r : CbhRun κ}

theorem SiftHeap.TotalPreorder.compare (h : TotalPreorder cmp) (r : CbhRun κ) :
    TotalPreorder (r.compare cmp) :=
  ⟨fun _ _ => h.total _ _, fun _ _ _ => h.trans _ _ _⟩

/-- A change of the key of a node that is not compared. -/
theorem CbhRun.compare_setKey {k : κ} {x y : ℕ} (hx : x ≠ e) (hy : y ≠ e) :
    (r.setKey e k).compare cmp x y = r.compare cmp x y := by
  simp only [compare, setKey, update_of_ne hx, update_of_ne hy]

open CbhRun

/-- The order of an array is not read at the node whose key changes. -/
theorem SiftHeap.HoleOrder.setKey {k : κ} (h : HoleOrder (r.compare cmp) a n cur)
    (hne : ∀ i, i < n → i ≠ cur → a i ≠ e) : HoleOrder ((r.setKey e k).compare cmp) a n cur := by
  constructor
  · intro i hi hin hic hpc
    have hp := parent_lt hi
    rw [compare_setKey (hne _ (by omega) hpc) (hne i hin hic)]
    exact h.off i hi hin hic hpc
  · intro hpos i hi hin hp
    have hpi := parent_lt hi
    have hpc := parent_lt hpos
    rw [compare_setKey (hne _ (by omega) (by omega)) (hne i hin (by omega))]
    exact h.grand hpos i hi hin hp

namespace CbhInv

variable (h : CbhInv cmp r a)

include h

/-- A node that is there stands at its position. -/
theorem at_index (he : r.present e = true) :
    r.state.chnIndex e < r.state.heap.cbhNelements ∧ a (r.state.chnIndex e) = e := by
  obtain ⟨i, hi, rfl⟩ := (h.present e).mp he
  rw [h.holds.index i hi]
  exact ⟨hi, rfl⟩

theorem good (hpre : TotalPreorder cmp) : CbhGood cmp r := by
  have hfind : ∀ i, i < r.state.heap.cbhNelements → cfsBinheapFind r.state.heap i = some (a i) :=
    fun i hi => by rw [cfsBinheapFind, if_neg (Nat.not_le_of_lt hi), h.holds.node i hi]
  have hlt : ∀ i e, cfsBinheapFind r.state.heap i = some e → i < r.state.heap.cbhNelements :=
    fun i e hf => by
      rw [cfsBinheapFind] at hf
      split at hf
      · cases hf
      · omega
  constructor
  case filled => exact fun i hi => ⟨a i, hfind i hi, (h.present _).mpr ⟨i, hi, rfl⟩,
    h.holds.index i hi⟩
  case indexed =>
    intro e he
    obtain ⟨hi, ha⟩ := h.at_index he
    rw [hfind _ hi, ha]
  case ordered =>
    intro i p e hi he hp
    have hin := hlt i e he
    have hpin : parent i < r.state.heap.cbhNelements := Nat.lt_trans (parent_lt hi) hin
    rw [hfind i hin] at he
    have hp' : some (a (parent i)) = some p := (hfind _ hpin).symm.trans hp
    rw [← Option.some.inj he, ← Option.some.inj hp']
    exact h.ordered i hi hin
  case root =>
    intro e he
    obtain ⟨hi, ha⟩ := h.at_index he
    refine ⟨a 0, hfind 0 (by omega), ?_⟩
    have hroot := h.ordered.root (hpre.compare r) hi
    rw [ha] at hroot
    exact hroot

end CbhInv

theorem CbhHolds.grown {h' : CfsBinheap} {ok : Bool} (h : CbhHolds s a n)
    (hg : CbhGrown s.heap ok h') : CbhHolds ⟨h', s.chnIndex⟩ a n := by
  have hhwm := hg.hwm
  have hsize := h.size
  refine ⟨hg.pages, ?_, fun i hi => ?_, h.index⟩
  · dsimp only
    omega
  · have hi' := h.node i hi
    rw [CfsBinheap.node] at hi' ⊢
    rw [hg.get i (by omega)]
    exact hi'

/-- The number of elements is not read by the places. -/
theorem CbhPages.nelements {h : CfsBinheap} (hp : CbhPages h) (m : ℕ) :
    CbhPages { h with cbhNelements := m } :=
  { hp with place := fun i hi => hp.place i hi }

section Calls

variable {hopCompare} (hpre : TotalPreorder hopCompare)

include hpre

section

variable (h : CbhHolds s a s.heap.cbhNelements) (hord : Ordered hopCompare a s.heap.cbhNelements)
include h hord

/-- An insertion that does not fail puts the node into the heap. -/
theorem cfsBinheapEnter_spec (hroom : s.heap.cbhNelements < s.heap.cbhHwm)
    (hnew : ∀ i, i < s.heap.cbhNelements → a i ≠ e) :
    ∃ s' b, cfsBinheapEnter hopCompare s e 0 = some (0, s') ∧
      s'.heap.cbhNelements = s.heap.cbhNelements + 1 ∧ CbhHolds s' b (s.heap.cbhNelements + 1) ∧
      Ordered hopCompare b (s.heap.cbhNelements + 1) ∧
      ∀ x, (∃ i, i < s.heap.cbhNelements + 1 ∧ b i = x) ↔
        x = e ∨ ∃ i, i < s.heap.cbhNelements ∧ a i = x := by
  obtain ⟨n, hn⟩ : ∃ n, s.heap.cbhNelements = n := ⟨_, rfl⟩
  rw [hn] at h hord hroom hnew ⊢
  have hhole : CbhHole ⟨{ s.heap with cbhNelements := n + 1 }, s.chnIndex⟩ a (n + 1) n e :=
    ⟨h.pages.nelements _, hroom, Nat.lt_succ_self n, fun i hi hne => h.node i (by omega),
      fun i hi hne => h.index i (by omega), fun i hi hne => hnew i (by omega)⟩
  obtain ⟨s1, hput, hholds, hnel⟩ := hhole.put
  obtain ⟨s', hbubble, hholds', hnel'⟩ :=
    cfsBinheapBubble_spec hopCompare hholds (Nat.lt_succ_self n)
  rw [update_self] at hbubble hholds'
  have horder : HoleOrder hopCompare (update a n e) (n + 1) n := by
    refine HoleOrder.congr ⟨fun i hi hin hic _ => hord i hi (by omega), fun _ i hi hin hp => ?_⟩
      fun i hi => update_of_ne hi ..
    have := parent_lt hi
    omega
  refine ⟨s', _, ?_, hnel'.trans hnel, hholds', ?_, fun x => ?_⟩
  · rw [cfsBinheapEnter, hn]
    rw [if_neg (not_not.mpr rfl), hput, bind_some, hbubble]
    rfl
  · refine siftUp_ordered hpre horder (fun i hi hin hp => ?_) (Nat.lt_succ_self n)
      (Nat.lt_succ_self n)
    have := parent_lt hi
    omega
  · rw [siftUp_vals (Nat.lt_succ_self n)]
    refine or_congr_right ⟨?_, ?_⟩
    · rintro ⟨i, hi, hin, rfl⟩
      exact ⟨i, by omega, (update_of_ne hin ..).symm⟩
    · rintro ⟨i, hi, rfl⟩
      exact ⟨i, by omega, by omega, update_of_ne (by omega) ..⟩

omit hpre h hord in
/-- The checks of `cfs_binheap_remove` pass. -/
theorem cfsBinheapRemove_eq (h : CbhHolds s a n) (hn : s.heap.cbhNelements = n) (hcur : cur < n) :
    cfsBinheapRemove hopCompare s (a cur) = if a (n - 1) = a cur then
        some ⟨{ s.heap with cbhNelements := n - 1 }, s.chnIndex⟩
      else
        (CbhState.put ⟨{ s.heap with cbhNelements := n - 1 }, s.chnIndex⟩ cur (a (n - 1))).bind
          fun s => (cfsBinheapRelocate hopCompare s (a (n - 1))).map fun s =>
            ⟨s.heap, update s.chnIndex (a cur) cbhPoison⟩ := by
  have hbound := h.pages.bound
  have hsize := h.size
  have hpoison : cur ≠ cbhPoison := by rw [cbhPoison]; omega
  have hcheck : ¬ (cur = cbhPoison ∨ n ≤ cur ∨ s.heap.node cur ≠ some (a cur)) :=
    not_or.mpr ⟨hpoison, not_or.mpr ⟨by omega, not_not.mpr (h.node cur hcur)⟩⟩
  rw [cfsBinheapRemove, hn, h.index cur hcur]
  rw [if_neg hcheck, h.node (n - 1) (by omega), bind_some]

/-- A removal takes the node out of the heap. -/
theorem cfsBinheapRemove_spec (hcur : cur < s.heap.cbhNelements) :
    ∃ s' b, cfsBinheapRemove hopCompare s (a cur) = some s' ∧
      s'.heap.cbhNelements = s.heap.cbhNelements - 1 ∧ CbhHolds s' b (s.heap.cbhNelements - 1) ∧
      Ordered hopCompare b (s.heap.cbhNelements - 1) ∧
      ∀ x, (∃ i, i < s.heap.cbhNelements - 1 ∧ b i = x) ↔
        x ≠ a cur ∧ ∃ i, i < s.heap.cbhNelements ∧ a i = x := by
  obtain ⟨n, hn⟩ : ∃ n, s.heap.cbhNelements = n := ⟨_, rfl⟩
  rw [hn] at h hord hcur ⊢
  have hsize := h.size
  rw [cfsBinheapRemove_eq h hn hcur]
  by_cases hlast : a (n - 1) = a cur
  · -- the last node
    obtain rfl : n - 1 = cur := h.inj (by omega) hcur hlast
    rw [if_pos rfl]
    refine ⟨_, a, rfl, rfl, ⟨h.pages.nelements _, by dsimp only; omega,
      fun i hi => h.node i (by omega), fun i hi => h.index i (by omega)⟩,
      fun i hi hin => hord i hi (by omega), fun x => ⟨?_, ?_⟩⟩
    · rintro ⟨i, hi, rfl⟩
      exact ⟨fun heq => absurd (h.inj (by omega) hcur heq) (by omega), i, by omega, rfl⟩
    · rintro ⟨hne, i, hi, rfl⟩
      have : i ≠ n - 1 := fun heq => hne (heq ▸ rfl)
      exact ⟨i, by omega, rfl⟩
  · have hne : n - 1 ≠ cur := fun heq => hlast (heq ▸ rfl)
    rw [if_neg hlast]
    have hhole : CbhHole ⟨{ s.heap with cbhNelements := n - 1 }, s.chnIndex⟩ a (n - 1) cur
        (a (n - 1)) :=
      ⟨h.pages.nelements _, by dsimp only; omega, by omega, fun i hi _ => h.node i (by omega),
        fun i hi _ => h.index i (by omega),
        fun i hi _ heq => absurd (h.inj (by omega) (by omega) heq) (by omega)⟩
    obtain ⟨s1, hput, hholds, hnel⟩ := hhole.put
    obtain ⟨s', hrel, hholds', hnel'⟩ := cfsBinheapRelocate_spec hopCompare hholds hnel
      (show cur < n - 1 by omega)
    rw [update_self] at hrel hholds'
    have horder : HoleOrder hopCompare (update a cur (a (n - 1))) (n - 1) cur := by
      have hfull := hord.hole hpre hcur
      refine HoleOrder.congr ⟨fun i hi hin => hfull.off i hi (by omega),
        fun hpos i hi hin => hfull.grand hpos i hi (by omega)⟩ fun i hi => update_of_ne hi ..
    have hvals : ∀ x, (∃ i, i < n - 1 ∧ (relocate hopCompare (a (n - 1)) (n - 1) cur
        (update a cur (a (n - 1)))).1 i = x) ↔ x ≠ a cur ∧ ∃ i, i < n ∧ a i = x := by
      intro x
      rw [relocate_vals (show cur < n - 1 by omega)]
      constructor
      · rintro (rfl | ⟨i, hi, hic, rfl⟩)
        · exact ⟨hlast, n - 1, by omega, rfl⟩
        · rw [update_of_ne hic]
          exact ⟨fun heq => hic (h.inj (by omega) hcur heq), i, by omega, rfl⟩
      · rintro ⟨hxe, i, hi, rfl⟩
        have hic : i ≠ cur := fun heq => hxe (heq ▸ rfl)
        by_cases hil : i = n - 1
        · exact Or.inl (hil ▸ rfl)
        · exact Or.inr ⟨i, by omega, hic, update_of_ne hic ..⟩
    refine ⟨⟨s'.heap, update s'.chnIndex (a cur) cbhPoison⟩, _,
      by rw [hput, bind_some, hrel]; rfl, hnel',
      { hholds' with index := fun i hi => ?_ },
      horder.relocate hpre (by omega), hvals⟩
    have hother := ((hvals _).mp ⟨i, hi, rfl⟩).1
    exact (update_of_ne hother ..).trans (hholds'.index i hi)

end

end Calls

/-! ## One step -/

namespace CbhInv

variable (hpre : TotalPreorder cmp) (h : CbhInv cmp r a)

include hpre h

omit hpre in
theorem absent (huse : r.present e = false) (i : ℕ) (hi : i < r.state.heap.cbhNelements) :
    a i ≠ e := by
  intro heq
  have := (h.present e).mpr ⟨i, hi, heq⟩
  rw [huse] at this
  cases this

omit hpre in
theorem setKey (huse : r.present e = false) (k : κ) : CbhInv cmp (r.setKey e k) a := by
  have hne := h.absent huse
  refine ⟨h.holds, fun i hi hin => ?_, h.present⟩
  have hp := parent_lt hi
  rw [compare_setKey (hne _ (Nat.lt_trans hp hin)) (hne i hin)]
  exact h.ordered i hi hin

/-- An insertion that has found its place, where `s` is the heap after the growth. -/
theorem enter (huse : r.present e = false) (hholds : CbhHolds s a s.heap.cbhNelements)
    (hnel : s.heap.cbhNelements = r.state.heap.cbhNelements)
    (hroom : s.heap.cbhNelements < s.heap.cbhHwm) (enter : ℤ) :
    ∃ res b, cfsBinheapEnter (r.compare cmp) s e enter = some res ∧ CbhInv cmp { r with
        state := res.2
        present := if res.1 = (0 : ℤ) then update r.present e true else r.present } b := by
  have hord : Ordered (r.compare cmp) a s.heap.cbhNelements := hnel ▸ h.ordered
  by_cases hrc : enter = 0
  · have hnew : ∀ i, i < s.heap.cbhNelements → a i ≠ e := hnel ▸ h.absent huse
    obtain ⟨s', b, hrun, hnel', hholds', hord', hvals⟩ := cfsBinheapEnter_spec
      (hpre.compare r) hholds hord hroom hnew
    rw [hrc]
    refine ⟨_, b, hrun, hnel' ▸ hholds', hnel' ▸ hord', fun x => ?_⟩
    dsimp only
    rw [if_pos rfl, hnel', hvals, hnel, ← h.present]
    by_cases hx : x = e
    · rw [hx, update_self]
      simp
    · rw [update_of_ne hx]
      exact (or_iff_right hx).symm
  · refine ⟨(enter, s), a, by rw [cfsBinheapEnter]; exact if_pos hrc, hholds, hord, fun x => ?_⟩
    rw [if_neg hrc, hnel]
    exact h.present x

theorem insert {k : κ} {alloc : CbhAlloc} {enter : ℤ} (huse : r.present e = false) :
    ∃ r' b, cbhStep cmp r (.insert e k alloc enter) = some r' ∧ CbhInv cmp r' b := by
  have hkey := h.setKey huse k
  rw [cbhStep, cfsBinheapInsert]
  by_cases hfull : r.state.heap.cbhNelements = r.state.heap.cbhHwm
  · obtain ⟨⟨ok, heap⟩, hgrow, hgrown⟩ := cfsBinheapGrow_spec h.holds.pages alloc
    have hnel : heap.cbhNelements = r.state.heap.cbhNelements := hgrown.nelements
    have hhwm := hgrown.hwm
    have hholds : CbhHolds ⟨heap, r.state.chnIndex⟩ a heap.cbhNelements :=
      hnel ▸ h.holds.grown hgrown
    rw [if_pos hfull, hgrow, bind_some]
    cases ok with
    | true =>
      rw [if_pos rfl] at hhwm
      obtain ⟨res, b, hrun, hinv⟩ := hkey.enter hpre huse hholds hnel
        (by dsimp only at hhwm ⊢; omega) enter
      rw [if_pos rfl, hrun]
      exact ⟨_, b, rfl, hinv⟩
    | false =>
      refine ⟨_, a, rfl, hholds, ?_, ?_⟩
      · exact hnel ▸ hkey.ordered
      · exact hnel ▸ hkey.present
  · obtain ⟨res, b, hrun, hinv⟩ := hkey.enter hpre huse h.holds rfl
      (by have := h.holds.size; omega) enter
    rw [if_neg hfull, hrun]
    exact ⟨_, b, rfl, hinv⟩

theorem remove (huse : r.present e = true) :
    ∃ r' b, cbhStep cmp r (.remove e) = some r' ∧ CbhInv cmp r' b := by
  obtain ⟨hlt, hat⟩ := h.at_index huse
  obtain ⟨s', b, hrun, hnel, hholds, hord, hvals⟩ := cfsBinheapRemove_spec
    (hpre.compare r) h.holds h.ordered hlt
  rw [hat] at hrun hvals
  refine ⟨_, b, by rw [cbhStep, hrun]; rfl, hnel ▸ hholds, hnel ▸ hord, fun x => ?_⟩
  dsimp only
  rw [hnel, hvals, ← h.present]
  by_cases hx : x = e
  · rw [hx, update_self]
    simp
  · rw [update_of_ne hx]
    exact ⟨fun hp => ⟨hx, hp⟩, fun hp => hp.2⟩

theorem relocate {k : κ} (huse : r.present e = true) :
    ∃ r' b, cbhStep cmp r (.relocate e k) = some r' ∧ CbhInv cmp r' b := by
  obtain ⟨hlt, hat⟩ := h.at_index huse
  have hne : ∀ i, i < r.state.heap.cbhNelements → i ≠ r.state.chnIndex e → a i ≠ e :=
    fun i hi hic heq => hic (by rw [← h.holds.index i hi, heq])
  have horder : HoleOrder ((r.setKey e k).compare cmp) a r.state.heap.cbhNelements
      (r.state.chnIndex e) :=
    HoleOrder.setKey (h.ordered.hole (hpre.compare r) hlt) hne
  obtain ⟨s', hrun, hholds, hnel⟩ := cfsBinheapRelocate_spec ((r.setKey e k).compare cmp) h.holds
    rfl hlt
  rw [hat] at hrun hholds
  refine ⟨_, _, by rw [cbhStep, hrun]; rfl, hnel ▸ hholds, ?_, fun x => ?_⟩
  · rw [hnel]
    exact horder.relocate (hpre.compare _) hlt
  · rw [hnel, relocate_vals hlt]
    refine (h.present x).trans ⟨?_, ?_⟩
    · rintro ⟨i, hi, rfl⟩
      by_cases hic : i = r.state.chnIndex e
      · exact Or.inl (hic ▸ hat)
      · exact Or.inr ⟨i, hi, hic, rfl⟩
    · rintro (rfl | ⟨i, hi, -, rfl⟩)
      · exact ⟨_, hlt, hat⟩
      · exact ⟨i, hi, rfl⟩

theorem step {op : CbhOp κ} (huse : CbhUse r op) :
    ∃ r' b, cbhStep cmp r op = some r' ∧ CbhInv cmp r' b := by
  cases op with
  | insert e k alloc enter => exact h.insert hpre huse
  | remove e => exact h.remove hpre huse
  | relocate e k => exact h.relocate hpre huse

end CbhInv

/-! ## Every run -/

variable {alloc : ℕ → CbhAlloc}

/-- A heap is created by calls of `cfs_binheap_grow`. -/
theorem CbhCalled.prealloc {count fuel : ℕ} {h h' : CfsBinheap} (hcalled : CbhCalled h)
    (hrun : cfsBinheapPrealloc count alloc fuel h = some h') : CbhCalled h' := by
  induction fuel generalizing h with
  | zero => cases hrun
  | succ fuel ih =>
    rw [cfsBinheapPrealloc] at hrun
    split at hrun
    · obtain ⟨r, hgrow, hrun⟩ := bind_eq_some_iff.mp hrun
      split at hrun
      · exact ih (.call _ hcalled hgrow) hrun
      · cases hrun
    · cases hrun
      exact hcalled

theorem cbhInv_start {count : ℕ} {heap : CfsBinheap}
    (hcreate : cfsBinheapCreate count alloc = some heap) (chnIndex : ℕ → ℕ) (key : ℕ → κ) :
    ∃ a, CbhInv cmp ⟨⟨heap, chnIndex⟩, key, fun _ => false⟩ a := by
  obtain ⟨hpages, hnel⟩ := (CbhCalled.new.prealloc hcreate).pages
  refine ⟨id, ⟨hpages, hnel ▸ Nat.zero_le _, ?_, ?_⟩, ?_, ?_⟩ <;> dsimp only <;> rw [hnel]
  · exact nofun
  · exact nofun
  · exact fun i _ hi => absurd hi (Nat.not_lt_zero i)
  · simp

/-- Every state of every run is an ordered array of the nodes that are there. -/
theorem cbhInv_of_reach (hpre : TotalPreorder cmp) {r0 : CbhRun κ}
    (hstart : ∃ a, CbhInv cmp r0 a) (hrun : Reach (cbhStep cmp) CbhUse r0 r) :
    ∃ a, CbhInv cmp r a := by
  refine hrun.invariant (fun r => ∃ a, CbhInv cmp r a) hstart ?_
  rintro r op r' ⟨a, h⟩ huse hs
  obtain ⟨r1, b, hs', hinv⟩ := h.step hpre huse
  rw [hs] at hs'
  cases hs'
  exact ⟨b, hinv⟩

/-- A callback of the heap. -/
inductive HopCall where
  /-- `hop_enter`, and what it returns -/
  | enter (e : ℕ) (rc : ℤ)
  /-- `hop_exit` -/
  | exit (e : ℕ)
  deriving DecidableEq

/-- The callbacks of `cfs_binheap_insert`, none where the heap cannot grow. -/
def cfsBinheapInsertHops (s : CbhState) (e : ℕ) (alloc : CbhAlloc) (enter : ℤ) : List HopCall :=
  if s.heap.cbhNelements = s.heap.cbhHwm then
    match cfsBinheapGrow s.heap alloc with
    | some (true, _) => [.enter e enter]
    | _ => []
  else [.enter e enter]

/-- The callbacks of `cfs_binheap_remove`, which returns before them where `last == e`. -/
def cfsBinheapRemoveHops (s : CbhState) (e : ℕ) : List HopCall :=
  if s.heap.node (s.heap.cbhNelements - 1) = some e then [] else [.exit e]

/-- The callbacks of a call. -/
def CbhRun.hops (r : CbhRun κ) : CbhOp κ → List HopCall
  | .insert e _ alloc enter => cfsBinheapInsertHops r.state e alloc enter
  | .remove e => cfsBinheapRemoveHops r.state e
  | .relocate _ _ => []

/-- A heap and the callbacks made so far. -/
structure CbhCalls (κ : Type u) where
  run : CbhRun κ
  /-- the callbacks, latest first -/
  calls : List HopCall

/-- One call, with its callbacks. -/
def cbhCallStep (cmp : κ → κ → Bool) (t : CbhCalls κ) (op : CbhOp κ) : Option (CbhCalls κ) :=
  (cbhStep cmp t.run op).map fun r => ⟨r, t.run.hops op ++ t.calls⟩

/-- A node that is removed does not stand last. -/
def CbhInside (r : CbhRun κ) : CbhOp κ → Prop
  | .remove e => r.state.chnIndex e + 1 ≠ r.state.heap.cbhNelements
  | _ => True

/-- Every node has been left as often as it has been entered, but for those that are there. -/
def CbhCalls.Balanced (t : CbhCalls κ) : Prop :=
  ∀ e, t.calls.count (.enter e 0) = t.calls.count (.exit e) + (t.run.present e).toNat

/-- What a removal does to its node: the index is poisoned and `hop_exit` is called exactly when
the node does not stand last. -/
theorem CbhInv.remove_hops (h : CbhInv cmp r a) (he : r.present e = true) {r' : CbhRun κ}
    (hs : cbhStep cmp r (.remove e) = some r') :
    r.hops (.remove e) = (if r.state.chnIndex e + 1 = r.state.heap.cbhNelements then []
      else [.exit e]) ∧
    (r'.state.chnIndex e = cbhPoison ↔ r.state.chnIndex e + 1 ≠ r.state.heap.cbhNelements) := by
  obtain ⟨hlt, hat⟩ := h.at_index he
  have hbound := h.holds.pages.bound
  have hsize := h.holds.size
  have hlast : a (r.state.heap.cbhNelements - 1) = e ↔
      r.state.chnIndex e + 1 = r.state.heap.cbhNelements := by
    constructor
    · intro heq
      have hidx := h.holds.index (r.state.heap.cbhNelements - 1) (by omega)
      rw [heq] at hidx
      omega
    · intro heq
      rw [← heq, Nat.add_sub_cancel, hat]
  have hrun := @cfsBinheapRemove_eq _ _ _ _ (r.compare cmp) h.holds rfl hlt
  rw [hat] at hrun
  rw [cbhStep, hrun] at hs
  have hnode := h.holds.node (r.state.heap.cbhNelements - 1) (by omega)
  refine ⟨?_, ?_⟩
  · simp [hops, cfsBinheapRemoveHops, hnode, hlast]
  · by_cases heq : r.state.chnIndex e + 1 = r.state.heap.cbhNelements
    · rw [if_pos (hlast.mpr heq)] at hs
      cases hs
      have hne : r.state.chnIndex e ≠ cbhPoison := by
        rw [cbhPoison]
        omega
      simp [hne, heq]
    · rw [if_neg (fun hl => heq (hlast.mp hl))] at hs
      obtain ⟨s', hs', rfl⟩ := map_eq_some_iff.mp hs
      obtain ⟨s1, -, hs'⟩ := bind_eq_some_iff.mp hs'
      obtain ⟨s2, -, rfl⟩ := map_eq_some_iff.mp hs'
      simp [heq]

/-- `hop_enter` returns zero exactly when the insertion does. -/
theorem cfsBinheapInsertHops_count {hopCompare : ℕ → ℕ → Bool} {alloc : CbhAlloc} {enter : ℤ}
    {res : ℤ × CbhState} (hs : cfsBinheapInsert hopCompare s e alloc enter = some res) (x : ℕ) :
    (cfsBinheapInsertHops s e alloc enter).count (.enter x 0) =
      if res.1 = 0 ∧ x = e then 1 else 0 := by
  have henter : ∀ s', cfsBinheapEnter hopCompare s' e enter = some res →
      [HopCall.enter e enter].count (.enter x 0) = if res.1 = 0 ∧ x = e then 1 else 0 := by
    intro s' hs'
    have hrc : res.1 = enter := by
      rw [cfsBinheapEnter] at hs'
      split at hs'
      · exact congrArg Prod.fst (Option.some.inj hs').symm
      · next hzero =>
        obtain ⟨s1, -, hs1⟩ := bind_eq_some_iff.mp hs'
        obtain ⟨q, -, rfl⟩ := map_eq_some_iff.mp hs1
        exact (not_not.mp hzero).symm
    rw [hrc, List.count_singleton]
    simp only [beq_iff_eq, HopCall.enter.injEq, @eq_comm _ e, and_comm]
  rw [cfsBinheapInsertHops]
  rw [cfsBinheapInsert] at hs
  split
  · next hfull =>
    rw [if_pos hfull] at hs
    obtain ⟨⟨ok, heap⟩, hgrow, hs⟩ := bind_eq_some_iff.mp hs
    rw [hgrow]
    cases ok with
    | true => exact henter _ hs
    | false =>
      cases hs
      simp [enomem]
  · next hfull =>
    rw [if_neg hfull] at hs
    exact henter _ hs

/-- Insertions call no `hop_exit`, relocations nothing. -/
theorem cfsBinheapInsertHops_exit (s : CbhState) (e x : ℕ) (alloc : CbhAlloc) (enter : ℤ) :
    (cfsBinheapInsertHops s e alloc enter).count (.exit x) = 0 := by
  rw [cfsBinheapInsertHops]
  split
  · split <;> simp
  · simp

/-- One call keeps the balance, unless it removes the last node. -/
theorem CbhCalls.Balanced.step {t t' : CbhCalls κ} {op : CbhOp κ} (hbal : t.Balanced)
    (h : CbhInv cmp t.run a) (huse : CbhUse t.run op) (hin : CbhInside t.run op)
    (hs : cbhCallStep cmp t op = some t') : t'.Balanced := by
  obtain ⟨r', hr, rfl⟩ := map_eq_some_iff.mp hs
  intro x
  have hx := hbal x
  rw [List.count_append, List.count_append]
  cases op with
  | insert e k alloc enter =>
    have hout : t.run.present e = false := huse
    obtain ⟨res, hres, rfl⟩ := map_eq_some_iff.mp hr
    have hcount := cfsBinheapInsertHops_count hres x
    have hexit := cfsBinheapInsertHops_exit t.run.state e x alloc enter
    simp only [hops, hcount, hexit, hx]
    by_cases hrc : res.1 = 0
    · by_cases hxe : x = e
      · simp [hrc, hxe, hout, Nat.add_comm]
      · simp [hrc, hxe]
    · simp [hrc]
  | remove e =>
    have he : t.run.present e = true := huse
    have hne : t.run.state.chnIndex e + 1 ≠ t.run.state.heap.cbhNelements := hin
    have hops := (h.remove_hops he hr).1
    rw [if_neg hne] at hops
    obtain ⟨s', -, rfl⟩ := map_eq_some_iff.mp hr
    rw [hops, hx]
    by_cases hxe : x = e
    · simp [hxe, he, Nat.add_comm]
    · simp [hxe, Ne.symm hxe]
  | relocate e k =>
    obtain ⟨s', -, rfl⟩ := map_eq_some_iff.mp hr
    simpa [hops, setKey] using hx

/-- In every run of the heap a removal leaves `CBH_POISON` in the node and calls `hop_exit` on it
once exactly when the node does not stand last in the array. In the runs in which no last node is
removed, the calls of `hop_exit` match those of `hop_enter` node by node. -/
theorem binheap_exits (cmp : κ → κ → Bool) (htotal : ∀ x y, cmp x y = true ∨ cmp y x = true)
    (htrans : ∀ x y z, cmp x y = true → cmp y z = true → cmp x z = true)
    {count : ℕ} {alloc : ℕ → CbhAlloc} {heap : CfsBinheap}
    (hcreate : cfsBinheapCreate count alloc = some heap) (chnIndex : ℕ → ℕ) (key : ℕ → κ) :
    (∀ r, Reach (cbhStep cmp) CbhUse ⟨⟨heap, chnIndex⟩, key, fun _ => false⟩ r →
      ∀ e, r.present e = true → ∃ r', cbhStep cmp r (.remove e) = some r' ∧
        (r'.state.chnIndex e = cbhPoison ∧ r.hops (.remove e) = [.exit e] ↔
          r.state.chnIndex e + 1 ≠ r.state.heap.cbhNelements)) ∧
    ∀ t, Reach (cbhCallStep cmp) (fun t op => CbhUse t.run op ∧ CbhInside t.run op)
      ⟨⟨⟨heap, chnIndex⟩, key, fun _ => false⟩, []⟩ t → t.Balanced := by
  have hpre : TotalPreorder cmp := ⟨htotal, htrans⟩
  have hstart : ∃ a, CbhInv cmp ⟨⟨heap, chnIndex⟩, key, fun _ => false⟩ a :=
    cbhInv_start hcreate chnIndex key
  constructor
  · intro r hrun e he
    obtain ⟨a, h⟩ := cbhInv_of_reach hpre hstart hrun
    obtain ⟨r', -, hs, -⟩ := h.remove hpre he
    obtain ⟨hops, hpoison⟩ := h.remove_hops he hs
    refine ⟨r', hs, ?_⟩
    rw [hops, hpoison]
    by_cases hlast : r.state.chnIndex e + 1 = r.state.heap.cbhNelements <;> simp [hlast]
  · intro t hrun
    refine (hrun.invariant (fun t => t.Balanced ∧ ∃ a, CbhInv cmp t.run a)
      ⟨fun e => rfl, hstart⟩ ?_).1
    rintro t op t' ⟨hbal, a, h⟩ ⟨huse, hin⟩ hs
    refine ⟨hbal.step h huse hin hs, ?_⟩
    obtain ⟨r', hr, rfl⟩ := map_eq_some_iff.mp hs
    obtain ⟨r1, b, hs', hinv⟩ := h.step hpre huse
    rw [hr] at hs'
    cases hs'
    exact ⟨b, hinv⟩

/-- Of three nodes the root is removed. -/
theorem binheap_exits_root : ∃ r, Reach (cbhStep fun x y : ℕ => decide (x ≤ y)) CbhUse
      ⟨⟨⟨none, none, none, 0, 0⟩, fun _ => 0⟩, fun _ => 0, fun _ => false⟩ r ∧
    ∃ r', cbhStep (fun x y : ℕ => decide (x ≤ y)) r (.remove 0) = some r' ∧
      r'.state.chnIndex 0 = cbhPoison ∧ r.hops (.remove 0) = [.exit 0] := by
  have hcreate : cfsBinheapCreate 0 (fun _ => ⟨true, true, true⟩) =
    some ⟨none, none, none, 0, 0⟩ := rfl
  have hall := (binheap_exits (fun x y : ℕ => decide (x ≤ y))
    (fun x y => by simpa using Nat.le_total x y) (fun x y z => by simpa using Nat.le_trans)
    hcreate (fun _ => 0) (fun _ => 0)).1
  have hrun : Reach (cbhStep fun x y : ℕ => decide (x ≤ y)) CbhUse
      ⟨⟨⟨none, none, none, 0, 0⟩, fun _ => 0⟩, fun _ => 0, fun _ => false⟩ _ :=
    .step (.insert 2 5 ⟨true, true, true⟩ 0) (.step (.insert 1 4 ⟨true, true, true⟩ 0)
      (.step (.insert 0 3 ⟨true, true, true⟩ 0) .start rfl rfl) rfl rfl) rfl rfl
  obtain ⟨r', hs, hiff⟩ := hall _ hrun 0 rfl
  exact ⟨_, hrun, r', hs, hiff.mpr (by decide)⟩

/-- The only node of a heap is removed: it keeps its index, and `hop_exit` is not called. -/
theorem binheap_remove_last : ∃ r r', Reach (cbhStep fun x y : ℕ => decide (x ≤ y)) CbhUse
      ⟨⟨⟨none, none, none, 0, 0⟩, fun _ => 0⟩, fun _ => 0, fun _ => false⟩ r ∧
    r.present 7 = true ∧ cbhStep (fun x y : ℕ => decide (x ≤ y)) r (.remove 7) = some r' ∧
      r'.state.chnIndex 7 = 0 ∧ r.hops (.remove 7) = [] :=
  ⟨_, _, .step (.insert 7 3 ⟨true, true, true⟩ 0) .start rfl rfl, rfl, rfl, rfl, rfl⟩

end Lustre
