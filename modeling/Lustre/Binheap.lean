import Lustre.Run
import Lustre.SiftHeap
import Mathlib.Data.Int.Notation

/-!
# The binary heap of libcfs

`struct cfs_binheap` keeps pointers to its nodes in chunks of `CBH_SIZE` pointers: one
chunk, then a table of chunks, then a table of tables. `cfs_binheap_pointer` finds the
place of a position, `cfs_binheap_grow` adds a chunk. The nodes carry their own position
in `chn_index`. `CBH_SIZE` is `512`, a shift by `CBH_SHIFT` is a division by it.

The first part is the program, with `none` for a failed `LASSERT` and for a pointer that
cannot be followed. The second part is about the chunks: every position below
`cbh_hwm` has its place (`CbhPages`), and growing keeps that. Every level on the way to a
place comes from a call that succeeded, whatever calls failed in between.
-/

namespace Lustre

open Option (bind_eq_some_iff bind_some isSome_iff_exists map_eq_some_iff)

/-! ## Chunks -/

def cbhPoison : ℕ := 0xdeadbeef

/-- `struct cfs_binheap`; a node is a number, and `none` is a `NULL` pointer. -/
structure CfsBinheap where
  cbhElements1 : Option (ℕ → Option ℕ)
  cbhElements2 : Option (ℕ → Option (ℕ → Option ℕ))
  cbhElements3 : Option (ℕ → Option (ℕ → Option (ℕ → Option ℕ)))
  cbhNelements : ℕ
  /-- `cbh_hwm`, the number of positions that have a place -/
  cbhHwm : ℕ

/-- The place of a position. -/
inductive CbhPtr where
  /-- `cbh_elements1[i]` -/
  | one (i : ℕ)
  /-- `cbh_elements2[i][j]` -/
  | two (i j : ℕ)
  /-- `cbh_elements3[i][j][k]` -/
  | three (i j k : ℕ)
  deriving DecidableEq

def cfsBinheapPointer (idx : ℕ) : CbhPtr :=
  if idx < 512 then .one idx
  else
    let idx := idx - 512
    if idx < 512 * 512 then .two (idx / 512) (idx % 512)
    else
      let idx := idx - 512 * 512
      .three (idx / (512 * 512)) (idx / 512 % 512) (idx % 512)

open Function (update comp_def update_of_ne update_self)

variable (h : CfsBinheap)

namespace CfsBinheap

/-- Read through a pointer; the outer `none` is a pointer into a chunk that does not exist. -/
def get : CbhPtr → Option (Option ℕ)
  | .one i => h.cbhElements1.map fun c => c i
  | .two i j => (h.cbhElements2.bind fun t => t i).map fun c => c j
  | .three i j k => ((h.cbhElements3.bind fun t => t i).bind fun t => t j).map fun c => c k

/-- Write through a pointer into a chunk that exists. -/
def set (v : ℕ) : CbhPtr → CfsBinheap
  | .one i => { h with
      cbhElements1 := h.cbhElements1.map fun c => update c i (some v) }
  | .two i j => { h with
      cbhElements2 := h.cbhElements2.map fun t =>
        update t i ((t i).map fun c => update c j (some v)) }
  | .three i j k => { h with
      cbhElements3 := h.cbhElements3.map fun t =>
        update t i ((t i).map fun u =>
          update u j ((u j).map fun c => update c k (some v))) }

/-- What stands at a position, when there is something. -/
def node (idx : ℕ) : Option ℕ := (h.get (cfsBinheapPointer idx)).join

/-- Write a position; `none` when it has no place. -/
def put (idx v : ℕ) : Option CfsBinheap :=
  (h.get (cfsBinheapPointer idx)).map fun _ => h.set v (cfsBinheapPointer idx)

end CfsBinheap

/-- Which of the allocations of `cfs_binheap_grow` succeed. -/
structure CbhAlloc where
  chunk : Bool
  /-- the table of chunks -/
  table : Bool
  /-- the table of tables -/
  top : Bool

/-- A chunk or a table as it is allocated. -/
def cbhZero {β : Type} : ℕ → Option β := fun _ => none

/-- The first chunk of `cfs_binheap_grow`. -/
def cfsBinheapGrow1 (alloc : CbhAlloc) : Bool × CfsBinheap :=
  if alloc.chunk then
    (true, { h with cbhElements1 := some cbhZero, cbhHwm := h.cbhHwm + 512 })
  else (false, { h with cbhElements1 := none })

/-- A chunk of the table; `hwm` is counted from its first chunk. -/
def cfsBinheapGrow2 (alloc : CbhAlloc) (hwm : ℕ) : Option (Bool × CfsBinheap) :=
  if alloc.chunk = false then some (false, h)
  else if hwm = 0 ∧ alloc.table = false then some (false, { h with cbhElements2 := none })
  else
    let elements2 := if hwm = 0 then some cbhZero else h.cbhElements2
    elements2.map fun t => (true, { h with
      cbhElements2 := some (update t (hwm / 512) (some cbhZero))
      cbhHwm := h.cbhHwm + 512 })

/-- A chunk of the table of tables; `hwm` is counted from its first chunk. -/
def cfsBinheapGrow3 (alloc : CbhAlloc) (hwm : ℕ) : Option (Bool × CfsBinheap) :=
  if 512 * 512 * 512 ≤ hwm then some (false, h)
  else if alloc.chunk = false then some (false, h)
  else if hwm / 512 % 512 = 0 ∧ alloc.table = false then some (false, h)
  else if hwm = 0 ∧ alloc.top = false then some (false, { h with cbhElements3 := none })
  else
    let elements3 := if hwm = 0 then some cbhZero else h.cbhElements3
    elements3.bind fun t =>
      -- the `LASSERT`s: the table is there exactly when this is not its first chunk
      let frag1 := if hwm / 512 % 512 = 0 then
          (if (t (hwm / (512 * 512))).isNone then some cbhZero else none)
        else t (hwm / (512 * 512))
      frag1.map fun u => (true, { h with
        cbhElements3 := some (update t (hwm / (512 * 512))
          (some (update u (hwm / 512 % 512) (some cbhZero))))
        cbhHwm := h.cbhHwm + 512 })

/-- `cfs_binheap_grow`, `false` for `-ENOMEM` -/
def cfsBinheapGrow (alloc : CbhAlloc) : Option (Bool × CfsBinheap) :=
  if h.cbhHwm % 512 ≠ 0 then none
  else if h.cbhHwm = 0 then some (cfsBinheapGrow1 h alloc)
  else
    let hwm := h.cbhHwm - 512
    if hwm < 512 * 512 then cfsBinheapGrow2 h alloc hwm
    else cfsBinheapGrow3 h alloc (hwm - 512 * 512)

/-- The loop of `cfs_binheap_create`; `none` when an allocation fails. -/
def cfsBinheapPrealloc (count : ℕ) (alloc : ℕ → CbhAlloc) : ℕ → CfsBinheap → Option CfsBinheap
  | 0, _ => none
  | fuel + 1, h =>
    if h.cbhHwm < count then
      (cfsBinheapGrow h (alloc fuel)).bind fun r =>
        if r.1 then cfsBinheapPrealloc count alloc fuel r.2 else none
    else some h

def cfsBinheapCreate (count : ℕ) (alloc : ℕ → CbhAlloc) : Option CfsBinheap :=
  cfsBinheapPrealloc count alloc (count + 1) ⟨none, none, none, 0, 0⟩

/-! ## Nodes -/

/-- A heap and the `chn_index` of the nodes. -/
structure CbhState where
  heap : CfsBinheap
  chnIndex : ℕ → ℕ

/-- A node gets a position, in its `chn_index` and in the heap. -/
def CbhState.put (s : CbhState) (idx e : ℕ) : Option CbhState :=
  (s.heap.put idx e).map fun heap => ⟨heap, update s.chnIndex e idx⟩

def cfsBinheapFind (idx : ℕ) : Option ℕ :=
  if h.cbhNelements ≤ idx then none else h.node idx

section Operations

variable (hopCompare : ℕ → ℕ → Bool) (s : CbhState)

/-- The loop of `cfs_binheap_bubble`, with the two stores after it. -/
def cfsBinheapBubbleLoop (e : ℕ) : ℕ → ℕ → Bool → CbhState → Option (CbhState × Bool)
  | 0, _, _, _ => none
  | fuel + 1, curIdx, didSth, s =>
    if curIdx = 0 then (s.put curIdx e).map fun s => (s, didSth)
    else
      let parentIdx := (curIdx - 1) / 2
      (s.heap.node parentIdx).bind fun p =>
        if s.chnIndex p ≠ parentIdx then none
        else if hopCompare p e then (s.put curIdx e).map fun s => (s, didSth)
        else (s.put curIdx p).bind fun s => cfsBinheapBubbleLoop e fuel parentIdx true s

def cfsBinheapBubble (e : ℕ) : Option (CbhState × Bool) :=
  let curIdx := s.chnIndex e
  if s.heap.node curIdx ≠ some e then none
  else cfsBinheapBubbleLoop hopCompare e (curIdx + 1) curIdx false s

/-- The child that `cfs_binheap_sink` goes on with, and its position. -/
def cfsBinheapChild (n curIdx : ℕ) : Option (ℕ × ℕ) :=
  let childIdx := 2 * curIdx + 1
  (s.heap.node childIdx).bind fun child =>
    let child2Idx := childIdx + 1
    if child2Idx < n then
      (s.heap.node child2Idx).map fun child2 =>
        if hopCompare child2 child then (child2Idx, child2) else (childIdx, child)
    else some (childIdx, child)

/-- The loop of `cfs_binheap_sink`, with the two stores after it. -/
def cfsBinheapSinkLoop (e n : ℕ) : ℕ → ℕ → Bool → CbhState → Option (CbhState × Bool)
  | 0, _, _, _ => none
  | fuel + 1, curIdx, didSth, s =>
    if n ≤ curIdx ∨ n ≤ 2 * curIdx + 1 then (s.put curIdx e).map fun s => (s, didSth)
    else
      (cfsBinheapChild hopCompare s n curIdx).bind fun c =>
        if s.chnIndex c.2 ≠ c.1 then none
        else if hopCompare e c.2 then (s.put curIdx e).map fun s => (s, didSth)
        else (s.put curIdx c.2).bind fun s => cfsBinheapSinkLoop e n fuel c.1 true s

def cfsBinheapSink (e : ℕ) : Option (CbhState × Bool) :=
  let curIdx := s.chnIndex e
  if s.heap.node curIdx ≠ some e then none
  else cfsBinheapSinkLoop hopCompare e s.heap.cbhNelements s.heap.cbhNelements curIdx false s

def cfsBinheapRelocate (e : ℕ) : Option CbhState :=
  (cfsBinheapBubble hopCompare s e).bind fun r =>
    if r.2 then some r.1 else (cfsBinheapSink hopCompare r.1 e).map fun r => r.1

/-- `cfs_binheap_insert` after the growth; `enter` is the return code of `hop_enter`, `0` if
there is none. -/
def cfsBinheapEnter (e : ℕ) (enter : ℤ) : Option (ℤ × CbhState) :=
  let newIdx := s.heap.cbhNelements
  if enter ≠ 0 then some (enter, s)
  else
    (CbhState.put ⟨{ s.heap with cbhNelements := newIdx + 1 }, s.chnIndex⟩ newIdx e).bind fun s =>
      (cfsBinheapBubble hopCompare s e).map fun r => (0, r.1)

/-- `-ENOMEM` -/
def enomem : ℤ := -12

def cfsBinheapInsert (e : ℕ) (alloc : CbhAlloc) (enter : ℤ) : Option (ℤ × CbhState) :=
  if s.heap.cbhNelements = s.heap.cbhHwm then
    (cfsBinheapGrow s.heap alloc).bind fun r =>
      if r.1 then cfsBinheapEnter hopCompare ⟨r.2, s.chnIndex⟩ e enter
      else some (enomem, ⟨r.2, s.chnIndex⟩)
  else cfsBinheapEnter hopCompare s e enter

def cfsBinheapRemove (e : ℕ) : Option CbhState :=
  let n := s.heap.cbhNelements
  let curIdx := s.chnIndex e
  if curIdx = cbhPoison ∨ n ≤ curIdx ∨ s.heap.node curIdx ≠ some e then none
  else
    (s.heap.node (n - 1)).bind fun last =>
      let s : CbhState := ⟨{ s.heap with cbhNelements := n - 1 }, s.chnIndex⟩
      if last = e then some s
      else
        (s.put curIdx last).bind fun s =>
          (cfsBinheapRelocate hopCompare s last).map fun s =>
            ⟨s.heap, update s.chnIndex e cbhPoison⟩

end Operations

/-! ## Places -/

theorem cfsBinheapPointer_one {i : ℕ} (h : i < 512) : cfsBinheapPointer i = .one i := if_pos h

theorem cfsBinheapPointer_two {i : ℕ} (h : 512 ≤ i) (h' : i < 512 + 512 * 512) :
    cfsBinheapPointer i = .two ((i - 512) / 512) ((i - 512) % 512) :=
  (if_neg (Nat.not_lt_of_le h)).trans (if_pos (show i - 512 < 512 * 512 by omega))

theorem cfsBinheapPointer_three {i : ℕ} (h : 512 + 512 * 512 ≤ i) :
    cfsBinheapPointer i = .three ((i - 512 - 512 * 512) / (512 * 512)) ((i - 512 - 512 * 512) / 512 % 512)
      ((i - 512 - 512 * 512) % 512) :=
  (if_neg (show ¬ i < 512 by omega)).trans (if_neg (show ¬ i - 512 < 512 * 512 by omega))

theorem cfsBinheapPointer_cases (i : ℕ) : (i < 512 ∧ cfsBinheapPointer i = .one i) ∨
    (512 ≤ i ∧ i < 512 + 512 * 512 ∧
      cfsBinheapPointer i = .two ((i - 512) / 512) ((i - 512) % 512)) ∨
    (512 + 512 * 512 ≤ i ∧ cfsBinheapPointer i =
      .three ((i - 512 - 512 * 512) / (512 * 512)) ((i - 512 - 512 * 512) / 512 % 512)
        ((i - 512 - 512 * 512) % 512)) := by
  rcases Nat.lt_or_ge i 512 with h | h
  · exact Or.inl ⟨h, cfsBinheapPointer_one h⟩
  rcases Nat.lt_or_ge i (512 + 512 * 512) with h' | h'
  · exact Or.inr (Or.inl ⟨h, h', cfsBinheapPointer_two h h'⟩)
  · exact Or.inr (Or.inr ⟨h', cfsBinheapPointer_three h'⟩)

theorem cfsBinheapPointer_inj {i j : ℕ} (h : cfsBinheapPointer i = cfsBinheapPointer j) :
    i = j := by
  rcases cfsBinheapPointer_cases i with ⟨hi, hpi⟩ | ⟨hi, hi', hpi⟩ | ⟨hi, hpi⟩ <;>
  rcases cfsBinheapPointer_cases j with ⟨hj, hpj⟩ | ⟨hj, hj', hpj⟩ | ⟨hj, hpj⟩ <;>
  simp only [hpi, hpj, CbhPtr.one.injEq, CbhPtr.two.injEq, CbhPtr.three.injEq, reduceCtorEq] at h <;>
  omega

namespace CfsBinheap

variable {h : CfsBinheap} {v : ℕ} {p q : CbhPtr}

theorem get_set_self (hp : (h.get p).isSome) : (h.set v p).get p = some (some v) := by
  obtain ⟨w, hw⟩ := isSome_iff_exists.mp hp
  cases p with
  | one i =>
    obtain ⟨c, hc, -⟩ := map_eq_some_iff.mp hw
    simp [get, set, hc]
  | two i j =>
    obtain ⟨c, hc, -⟩ := map_eq_some_iff.mp hw
    obtain ⟨t, ht, hc⟩ := bind_eq_some_iff.mp hc
    simp [get, set, ht, hc]
  | three i j k =>
    obtain ⟨c, hc, -⟩ := map_eq_some_iff.mp hw
    obtain ⟨u, hu, hc⟩ := bind_eq_some_iff.mp hc
    obtain ⟨t, ht, hu⟩ := bind_eq_some_iff.mp hu
    simp [get, set, ht, hu, hc]

theorem get_set_of_ne (hne : q ≠ p) : (h.set v p).get q = h.get q := by
  cases p with
  | one i =>
    cases q with
    | one i' =>
      have hi : i' ≠ i := fun heq => hne (heq ▸ rfl)
      simp [get, set, comp_def, update_of_ne hi]
    | two i' j' | three i' j' k' => rfl
  | two i j =>
    cases q with
    | one i' => rfl
    | two i' j' =>
      cases ht : h.cbhElements2 with
      | none => simp [get, set, ht]
      | some t =>
        by_cases hi : i' = i
        · subst hi
          have hj : j' ≠ j := fun heq => hne (heq ▸ rfl)
          simp [get, set, ht, comp_def, update_of_ne hj]
        · simp [get, set, ht, update_of_ne hi]
    | three i' j' k' => rfl
  | three i j k =>
    cases q with
    | one i' | two i' j' => rfl
    | three i' j' k' =>
      cases ht : h.cbhElements3 with
      | none => simp [get, set, ht]
      | some t =>
        by_cases hi : i' = i
        · subst hi
          cases hu : t i' with
          | none => simp [get, set, ht, hu]
          | some u =>
            by_cases hj : j' = j
            · subst hj
              have hk : k' ≠ k := fun heq => hne (heq ▸ rfl)
              simp [get, set, ht, hu, comp_def, update_of_ne hk]
            · simp [get, set, ht, hu, update_of_ne hj]
        · simp [get, set, ht, update_of_ne hi]

end CfsBinheap

/-- Every position below `cbh_hwm` has its place, and the tables beyond it are not there yet. -/
structure CbhPages : Prop where
  /-- whole chunks -/
  aligned : h.cbhHwm % 512 = 0
  /-- the three levels bound the heap -/
  bound : h.cbhHwm ≤ 512 + 512 * 512 + 512 * 512 * 512
  /-- the places -/
  place : ∀ i, i < h.cbhHwm → (h.get (cfsBinheapPointer i)).isSome
  /-- the tables that are not used yet -/
  fresh : ∀ t, h.cbhElements3 = some t →
    ∀ k, h.cbhHwm ≤ 512 + 512 * 512 + 512 * 512 * k → t k = none

/-- What growing does: the old positions keep their contents. -/
structure CbhGrown (ok : Bool) (h' : CfsBinheap) : Prop where
  pages : CbhPages h'
  hwm : h'.cbhHwm = h.cbhHwm + if ok then 512 else 0
  nelements : h'.cbhNelements = h.cbhNelements
  get : ∀ i, i < h.cbhHwm → h'.get (cfsBinheapPointer i) = h.get (cfsBinheapPointer i)

/-- It is enough to look at the new chunk. -/
theorem CbhPages.grow {h h' : CfsBinheap} (hp : CbhPages h)
    (hwm : h'.cbhHwm = h.cbhHwm + 512) (hbound : h'.cbhHwm ≤ 512 + 512 * 512 + 512 * 512 * 512)
    (hn : h'.cbhNelements = h.cbhNelements)
    (hold : ∀ i, i < h.cbhHwm → h'.get (cfsBinheapPointer i) = h.get (cfsBinheapPointer i))
    (hnew : ∀ i, h.cbhHwm ≤ i → i < h'.cbhHwm → (h'.get (cfsBinheapPointer i)).isSome)
    (hfresh : ∀ t, h'.cbhElements3 = some t →
      ∀ k, h'.cbhHwm ≤ 512 + 512 * 512 + 512 * 512 * k → t k = none) : CbhGrown h true h' := by
  refine ⟨⟨?_, hbound, fun i hi => ?_, hfresh⟩, hwm, hn, hold⟩
  · have := hp.aligned
    omega
  · rcases Nat.lt_or_ge i h.cbhHwm with hlt | hge
    · rw [hold i hlt]
      exact hp.place i hlt
    · exact hnew i hge hi

/-- How a call ends: one that fails can lose a level, which no position needs yet. -/
inductive CbhCall : Bool × CfsBinheap → Prop where
  | grown {h' : CfsBinheap} (hg : CbhGrown h true h') : CbhCall (true, h')
  | same : CbhCall (false, h)
  | lost1 (hwm : h.cbhHwm = 0) : CbhCall (false, { h with cbhElements1 := none })
  | lost2 (hwm : h.cbhHwm = 512) : CbhCall (false, { h with cbhElements2 := none })
  | lost3 (hwm : h.cbhHwm = 512 + 512 * 512) : CbhCall (false, { h with cbhElements3 := none })

variable {h : CfsBinheap}

theorem CbhCall.get {r : Bool × CfsBinheap} (hc : CbhCall h r) (i : ℕ) (hi : i < h.cbhHwm) :
    r.2.get (cfsBinheapPointer i) = h.get (cfsBinheapPointer i) := by
  cases hc with
  | grown hg => exact hg.get i hi
  | same => rfl
  | lost1 hwm => omega
  | lost2 hwm =>
    rw [cfsBinheapPointer_one (by omega)]
    rfl
  | lost3 hwm =>
    rcases cfsBinheapPointer_cases i with ⟨hi1, hpi⟩ | ⟨hi1, hi2, hpi⟩ | ⟨hi1, hpi⟩
    · rw [hpi]
      rfl
    · rw [hpi]
      rfl
    · omega

section

variable (hp : CbhPages h)
include hp

theorem cfsBinheapGrow1_spec (alloc : CbhAlloc) (hwm : h.cbhHwm = 0) :
    CbhCall h (cfsBinheapGrow1 h alloc) := by
  rw [cfsBinheapGrow1]
  split
  · refine .grown (hp.grow rfl (by simp only [hwm]; omega) rfl (fun i hi => by omega)
      (fun i _ hi => ?_) (fun t ht k _ => hp.fresh t ht k (by omega)))
    simp only [hwm] at hi
    rw [cfsBinheapPointer_one (by omega)]
    rfl
  · exact .lost1 hwm

theorem cfsBinheapGrow2_spec (alloc : CbhAlloc) (hlow : 512 ≤ h.cbhHwm)
    (hhigh : h.cbhHwm < 512 + 512 * 512) :
    ∃ r, cfsBinheapGrow2 h alloc (h.cbhHwm - 512) = some r ∧ CbhCall h r := by
  have hal := hp.aligned
  rw [cfsBinheapGrow2]
  split
  · exact ⟨_, rfl, .same⟩
  split
  · -- no table: only the first chunk is in use
    exact ⟨_, rfl, .lost2 (by omega)⟩
  · obtain ⟨t, ht, hold⟩ : ∃ t, (if h.cbhHwm - 512 = 0 then some cbhZero else h.cbhElements2) =
        some t ∧ (h.cbhHwm - 512 ≠ 0 → h.cbhElements2 = some t) := by
      split
      · next hz => exact ⟨_, rfl, fun hne => absurd hz hne⟩
      · have hplace := hp.place 512 (by omega)
        rw [cfsBinheapPointer_two (Nat.le_refl 512) (by decide)] at hplace
        cases ht : h.cbhElements2 with
        | none => simp [CfsBinheap.get, ht] at hplace
        | some t => exact ⟨t, rfl, fun _ => rfl⟩
    refine ⟨_, congrArg (Option.map _) ht, .grown ?_⟩
    refine hp.grow rfl ?_ rfl (fun i hi => ?_) (fun i hi hi' => ?_)
      (fun t' ht' k hk => hp.fresh t' ht' k ?_)
    · show h.cbhHwm + 512 ≤ _
      omega
    · rcases cfsBinheapPointer_cases i with ⟨hi1, hpi⟩ | ⟨hi1, hi2, hpi⟩ | ⟨hi1, hpi⟩
      · rw [hpi]
        rfl
      · have hne : (i - 512) / 512 ≠ (h.cbhHwm - 512) / 512 := by
          omega
        rw [hpi]
        simp [CfsBinheap.get, hold (by omega), update_of_ne hne]
      · omega
    · replace hi' : i < h.cbhHwm + 512 := hi'
      have hi1 : 512 ≤ i := by omega
      have hi2 : i < 512 + 512 * 512 := by omega
      have heq : (i - 512) / 512 = (h.cbhHwm - 512) / 512 := by
        omega
      rw [cfsBinheapPointer_two hi1 hi2]
      simp [CfsBinheap.get, heq]
    · omega

/-- The table of tables, once it is used. -/
theorem CbhPages.table {x : ℕ} (hx : h.cbhHwm = 512 + 512 * 512 + x) (hpos : x ≠ 0) :
    ∃ t, h.cbhElements3 = some t := by
  have hplace := hp.place (512 + 512 * 512) (by omega)
  rw [cfsBinheapPointer_three (Nat.le_refl _)] at hplace
  cases ht : h.cbhElements3 with
  | none => simp [CfsBinheap.get, ht] at hplace
  | some t => exact ⟨t, rfl⟩

theorem CbhPages.subtable {x : ℕ} (hx : h.cbhHwm = 512 + 512 * 512 + x) (hpos : x / 512 % 512 ≠ 0)
    {t} (ht : h.cbhElements3 = some t) : ∃ u, t (x / (512 * 512)) = some u := by
  have hplace := hp.place (512 + 512 * 512 + (x - 512)) (by omega)
  have hsub : (512 + 512 * 512 + (x - 512) - 512 - 512 * 512) / (512 * 512) = x / (512 * 512) := by omega
  rw [cfsBinheapPointer_three (by omega), hsub] at hplace
  cases hu : t (x / (512 * 512)) with
  | none => simp [CfsBinheap.get, ht, hu] at hplace
  | some u => exact ⟨u, rfl⟩

theorem cfsBinheapGrow3_spec (alloc : CbhAlloc) {x : ℕ} (hx : h.cbhHwm = 512 + 512 * 512 + x) :
    ∃ r, cfsBinheapGrow3 h alloc x = some r ∧ CbhCall h r := by
  have hal := hp.aligned
  rw [cfsBinheapGrow3]
  split
  · exact ⟨_, rfl, .same⟩
  next hcap =>
  split
  · exact ⟨_, rfl, .same⟩
  split
  · exact ⟨_, rfl, .same⟩
  split
  · -- no table of tables: the first two levels are in use
    exact ⟨_, rfl, .lost3 (by omega)⟩
  · obtain ⟨t, ht, hold⟩ : ∃ t, (if x = 0 then some cbhZero else h.cbhElements3) = some t ∧
        (x ≠ 0 → h.cbhElements3 = some t) := by
      split
      · next hz => exact ⟨_, rfl, fun hne => absurd hz hne⟩
      · next hz =>
        obtain ⟨t, ht⟩ := hp.table hx hz
        exact ⟨t, ht, fun _ => ht⟩
    have hunused : ∀ k, x ≤ 512 * 512 * k → t k = none := fun k hk => by
      by_cases hz : x = 0
      · rw [if_pos hz] at ht
        rw [← Option.some.inj ht]
        rfl
      · exact hp.fresh t (hold hz) k (by omega)
    obtain ⟨u, hu, holdu⟩ : ∃ u, (if x / 512 % 512 = 0 then
        (if (t (x / (512 * 512))).isNone then some cbhZero else none) else t (x / (512 * 512))) = some u ∧
        (x / 512 % 512 ≠ 0 → t (x / (512 * 512)) = some u) := by
      split
      · next hz =>
        rw [hunused (x / (512 * 512)) (by omega)]
        exact ⟨_, rfl, fun hne => absurd hz hne⟩
      · next hz =>
        obtain ⟨u, hu⟩ := hp.subtable hx hz (hold fun hz' => hz (by rw [hz']))
        exact ⟨u, hu, fun _ => hu⟩
    refine ⟨_, (congrArg (Option.bind · _) ht).trans (congrArg (Option.map _) hu), .grown ?_⟩
    refine hp.grow rfl ?_ rfl (fun i hi => ?_) (fun i hi hi' => ?_) (fun t' ht' k hk => ?_)
    · show h.cbhHwm + 512 ≤ 512 + 512 * 512 + 512 * 512 * 512
      omega
    · rcases cfsBinheapPointer_cases i with ⟨hi1, hpi⟩ | ⟨hi1, hi2, hpi⟩ | ⟨hi1, hpi⟩
      · rw [hpi]
        rfl
      · rw [hpi]
        rfl
      · obtain ⟨y, rfl⟩ : ∃ y, i = y + (512 * 512 + 512) := ⟨i - (512 * 512 + 512), by omega⟩
        have hy : y < x := by omega
        have hi512 : y + (512 * 512 + 512) - 512 - 512 * 512 = y := by omega
        rw [hpi, hi512]
        simp only [CfsBinheap.get, hold (Nat.ne_of_gt (Nat.zero_lt_of_lt hy)), bind_some]
        by_cases hsub : y / (512 * 512) = x / (512 * 512)
        · -- the table the new chunk is in, which has chunks already
          have hne : y / 512 % 512 ≠ x / 512 % 512 := by omega
          have hpos : x / 512 % 512 ≠ 0 := by omega
          rw [hsub, update_self, holdu hpos, bind_some, bind_some]
          exact congrArg (Option.map _) (update_of_ne hne _ _)
        · exact congrArg (fun u => Option.map _ (Option.bind u _)) (update_of_ne hsub _ _)
    · replace hi' : i < h.cbhHwm + 512 := hi'
      have hsub : (i - 512 - 512 * 512) / (512 * 512) = x / (512 * 512) := by omega
      have hchunk : (i - 512 - 512 * 512) / 512 % 512 = x / 512 % 512 := by omega
      rw [cfsBinheapPointer_three (by omega), hsub, hchunk]
      simp only [CfsBinheap.get, bind_some]
      rw [update_self, bind_some, update_self]
      rfl
    · replace hk : h.cbhHwm + 512 ≤ 512 + 512 * 512 + 512 * 512 * k := hk
      have hne : k ≠ x / (512 * 512) := by omega
      rw [← Option.some.inj ht']
      exact (update_of_ne hne _ _).trans (hunused k (by omega))

theorem cfsBinheapGrow_call (alloc : CbhAlloc) :
    ∃ r, cfsBinheapGrow h alloc = some r ∧ CbhCall h r := by
  have hal := hp.aligned
  rw [cfsBinheapGrow, if_neg (not_not.mpr hal)]
  split
  · next hwm => exact ⟨_, rfl, cfsBinheapGrow1_spec hp alloc hwm⟩
  · dsimp only
    split
    · next hlt =>
      exact cfsBinheapGrow2_spec hp alloc (by omega) (by omega)
    · next hge =>
      exact cfsBinheapGrow3_spec hp alloc (show h.cbhHwm = _ + (h.cbhHwm - 512 - 512 * 512) by omega)

theorem CbhCall.spec {r : Bool × CfsBinheap} (hc : CbhCall h r) : CbhGrown h r.1 r.2 := by
  have hplace : ∀ i, i < h.cbhHwm → (r.2.get (cfsBinheapPointer i)).isSome := fun i hi =>
    hc.get i hi ▸ hp.place i hi
  have hget := hc.get
  cases hc with
  | grown hg => exact hg
  | same => exact ⟨hp, rfl, rfl, hget⟩
  | lost1 | lost2 => exact ⟨{ hp with place := hplace }, rfl, rfl, hget⟩
  | lost3 => exact ⟨⟨hp.aligned, hp.bound, hplace, nofun⟩, rfl, rfl, hget⟩

theorem cfsBinheapGrow_spec (alloc : CbhAlloc) :
    ∃ r, cfsBinheapGrow h alloc = some r ∧ CbhGrown h r.1 r.2 := by
  obtain ⟨r, hr, hc⟩ := cfsBinheapGrow_call hp alloc
  exact ⟨r, hr, hc.spec hp⟩

/-- Writing a position changes that position only. -/
theorem CfsBinheap.put_spec {i : ℕ} (hi : i < h.cbhHwm) (v : ℕ) :
    ∃ h', h.put i v = some h' ∧ CbhPages h' ∧ h'.cbhNelements = h.cbhNelements ∧
      h'.cbhHwm = h.cbhHwm ∧ h'.node i = some v ∧ ∀ j, j ≠ i → h'.node j = h.node j := by
  have hplace := hp.place i hi
  obtain ⟨w, hw⟩ := isSome_iff_exists.mp hplace
  have hself := get_set_self (v := v) hplace
  have hother : ∀ j, j ≠ i → (h.set v (cfsBinheapPointer i)).get (cfsBinheapPointer j) =
      h.get (cfsBinheapPointer j) := fun j hj =>
    get_set_of_ne fun heq => hj (cfsBinheapPointer_inj heq)
  have hhwm : (h.set v (cfsBinheapPointer i)).cbhHwm = h.cbhHwm := by
    cases cfsBinheapPointer i <;> rfl
  have hnel : (h.set v (cfsBinheapPointer i)).cbhNelements = h.cbhNelements := by
    cases cfsBinheapPointer i <;> rfl
  refine ⟨_, by rw [put, hw]; rfl, ⟨?_, ?_, ?_, ?_⟩, hnel, hhwm, ?_, ?_⟩
  · exact hhwm ▸ hp.aligned
  · exact hhwm ▸ hp.bound
  · intro j hj
    by_cases hji : j = i
    · rw [hji, hself]
      rfl
    · rw [hother j hji]
      exact hp.place j (hhwm ▸ hj)
  · rw [hhwm]
    intro t ht k hk
    cases hptr : cfsBinheapPointer i with
    | one _ | two _ _ => exact hp.fresh t (by rw [hptr] at ht; exact ht) k hk
    | three i' j' k' =>
      rw [hptr] at ht
      obtain ⟨t0, ht0, rfl⟩ := map_eq_some_iff.mp ht
      have hnone := hp.fresh t0 ht0 k hk
      by_cases hki : k = i'
      · rw [← hki, update_self, hnone]
        rfl
      · rw [update_of_ne hki, hnone]
  · rw [node, hself]
    rfl
  · intro j hj
    rw [node, hother j hj, node]

end

/-! ## Calls of `cfs_binheap_grow` -/

/-- The levels of indirection of a place, each with whether it is there. -/
def CbhPtr.levels : CbhPtr → List (CfsBinheap → Bool)
  | .one _ => [fun h => h.cbhElements1.isSome]
  | .two i _ => [fun h => h.cbhElements2.isSome, fun h => (h.cbhElements2.bind fun t => t i).isSome]
  | .three i j _ => [fun h => h.cbhElements3.isSome,
      fun h => (h.cbhElements3.bind fun t => t i).isSome,
      fun h => ((h.cbhElements3.bind fun t => t i).bind fun t => t j).isSome]

/-- The heaps that calls of `cfs_binheap_grow`, successful or not, make of a new one. -/
inductive CbhCalled : CfsBinheap → Prop where
  | new : CbhCalled ⟨none, none, none, 0, 0⟩
  | call {h h' : CfsBinheap} (alloc : CbhAlloc) {ok : Bool} (hcalled : CbhCalled h)
    (hgrow : cfsBinheapGrow h alloc = some (ok, h')) : CbhCalled h'

/-- A successful call has put the level there, and there it has been since. -/
inductive CbhInstalled (level : CfsBinheap → Bool) : CfsBinheap → Prop where
  | put {h h' : CfsBinheap} {alloc : CbhAlloc} (hcalled : CbhCalled h) (hnot : ¬ level h)
    (hgrow : cfsBinheapGrow h alloc = some (true, h')) (hput : level h') : CbhInstalled level h'
  | keep {h h' : CfsBinheap} {alloc : CbhAlloc} {ok : Bool} (hold : CbhInstalled level h)
    (hgrow : cfsBinheapGrow h alloc = some (ok, h')) (hkept : level h') : CbhInstalled level h'

theorem CbhPtr.levels_of_get {p : CbhPtr} (hp : (h.get p).isSome) :
    ∀ level ∈ p.levels, level h := by
  cases p <;> simp only [CfsBinheap.get, Option.isSome_map] at hp
  · simpa [levels] using hp
  · simpa [levels, hp] using Option.isSome_of_isSome_bind hp
  · have htable := Option.isSome_of_isSome_bind hp
    simpa [levels, hp, htable] using Option.isSome_of_isSome_bind htable

/-- Only a successful call puts a level there. -/
theorem CbhCall.levels {r : Bool × CfsBinheap} (hc : CbhCall h r) (p : CbhPtr) :
    r.1 = true ∨ ∀ level ∈ p.levels, level r.2 → level h := by
  cases hc with
  | grown => exact .inl rfl
  | same => exact .inr fun _ _ => id
  | _ => exact .inr (by cases p <;> simp [CbhPtr.levels])

theorem CbhCalled.pages (hcalled : CbhCalled h) : CbhPages h ∧ h.cbhNelements = 0 := by
  induction hcalled with
  | new =>
    exact ⟨⟨rfl, Nat.zero_le _, fun i hi => absurd hi (Nat.not_lt_zero i), fun _ ht => by cases ht⟩,
      rfl⟩
  | call alloc _ hgrow ih =>
    obtain ⟨r, hr, hgrown⟩ := cfsBinheapGrow_spec ih.1 alloc
    cases hr.symm.trans hgrow
    exact ⟨hgrown.pages, hgrown.nelements.trans ih.2⟩

theorem CbhCalled.installed (hcalled : CbhCalled h) {p : CbhPtr} :
    ∀ level ∈ p.levels, level h → CbhInstalled level h := by
  induction hcalled with
  | new => cases p <;> simp [CbhPtr.levels]
  | @call h _ alloc _ hcalled hgrow ih =>
    intro level hlevel hthere
    by_cases hold : level h = true
    · exact .keep (ih level hlevel hold) hgrow hthere
    obtain ⟨r, hr, hc⟩ := cfsBinheapGrow_call hcalled.pages.1 alloc
    cases hr.symm.trans hgrow
    rcases hc.levels p with rfl | hkeep
    · exact .put hcalled hold hgrow hthere
    · exact absurd (hkeep level hlevel hthere) hold

/-- After any calls of `cfs_binheap_grow`, of which some may fail, the positions below `cbh_hwm` have
places of their own, a successful call has put there every level on the way to one, and the next call
returns. A call that fails changes neither `cbh_hwm` nor a position below it. -/
theorem binheap_grow_calls :
    (∀ h, CbhCalled h → CbhPages h ∧
      (∀ i j, i < h.cbhHwm → j < h.cbhHwm → cfsBinheapPointer i = cfsBinheapPointer j → i = j) ∧
      (∀ i, i < h.cbhHwm → ∀ level ∈ (cfsBinheapPointer i).levels, CbhInstalled level h) ∧
      ∀ alloc, ∃ r, cfsBinheapGrow h alloc = some r) ∧
    ∀ h alloc h', CbhPages h → cfsBinheapGrow h alloc = some (false, h') →
      h'.cbhHwm = h.cbhHwm ∧
      ∀ i, i < h.cbhHwm → h'.get (cfsBinheapPointer i) = h.get (cfsBinheapPointer i) := by
  refine ⟨fun h hcalled => ⟨hcalled.pages.1, fun i j _ _ => cfsBinheapPointer_inj,
    fun i hi level hlevel => ?_, fun alloc => ?_⟩, fun h alloc h' hp hfail => ?_⟩
  · have hthere := CbhPtr.levels_of_get (hcalled.pages.1.place i hi) level hlevel
    exact hcalled.installed level hlevel hthere
  · obtain ⟨r, hr, -⟩ := cfsBinheapGrow_spec hcalled.pages.1 alloc
    exact ⟨r, hr⟩
  · obtain ⟨r, hr, hgrown⟩ := cfsBinheapGrow_spec hp alloc
    cases hr.symm.trans hfail
    exact ⟨hgrown.hwm, hgrown.get⟩

/-- The second call does not get its table. -/
theorem binheap_grow_calls_two : ∃ h, CbhCalled h ∧ h.cbhHwm = 1024 ∧
    ∀ level ∈ (cfsBinheapPointer 600).levels, CbhInstalled level h := by
  have hcalled : CbhCalled _ := .call ⟨true, true, true⟩ (.call ⟨true, false, true⟩
    (.call ⟨true, true, true⟩ .new rfl) rfl) rfl
  exact ⟨_, hcalled, rfl, (binheap_grow_calls.1 _ hcalled).2.2.1 600 (by decide)⟩

end Lustre
