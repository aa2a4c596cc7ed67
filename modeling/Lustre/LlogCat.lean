import Lustre.Run
import Lustre.SlotRing
import Mathlib.Data.List.Perm.Subperm

/-!
# The slots of an llog catalog

A catalog is a log of fixed-size records, one for each of its plain logs, whose slots
are used in a ring: slot `0` is the header, `lgh_last_idx` is the slot used last, and
`llh_cat_idx` is the place before the oldest slot in use. `llog_cat_new_log` checks
that the next slot is free, `llog_osd_write_rec` takes it, and `llog_cat_cleanup` frees
a slot and moves `llh_cat_idx` on when the slot was the oldest.

`CatInv` says that the slots after `llh_cat_idx` up to `lgh_last_idx` are a path in the
ring that holds every slot in use, the first of them in use. Every creation and removal
keeps it, unless a log is created in a catalog that has become empty with its last slot
(`llogCat_ring`): from there `llh_cat_idx` stays behind, and after one more round a slot
in use is taken (`llogCat_lastSlot`).
-/

namespace Lustre

open SlotRing

/-! ## The catalog -/

/-- The header of a catalog. -/
structure LlogCat where
  /-- `LLOG_HDR_BITMAP_SIZE` -/
  bitmapSize : ℕ
  llhBitmap : ℕ → Bool
  llhCount : ℕ
  llhCatIdx : ℕ
  lghLastIdx : ℕ

/-- What the creation of a plain log comes to. -/
inductive LlogCatRc where
  /-- the slot it has got -/
  | created (index : ℕ)
  /-- `-ENOSPC` -/
  | enospc
  /-- the record could not be written -/
  | failed
  deriving DecidableEq

variable (c : LlogCat)

def llogIsFull : Bool := c.bitmapSize - 1 ≤ c.lghLastIdx

/-- How the writes of an operation end. -/
inductive LlogIo where
  | done
  /-- one fails, on an object of this or of another target -/
  | failed (remote : Bool)
  deriving DecidableEq

/-- `lgh_last_idx` after the error exit of `llog_osd_write_rec`, where it was `index`. -/
def llogOsdRestore (remote : Bool) (index : ℕ) : ℕ :=
  if remote then c.lghLastIdx
  -- the catalog had just wrapped around
  else if index - 1 = 0 ∧ c.llhCatIdx ≠ 0 then c.bitmapSize - 1
  else index - 1

open Function (update update_of_ne update_self)

/-- The append of `llog_osd_write_rec` to a catalog, `none` is its `LBUG`. -/
def llogOsdAppend (io : LlogIo) : Option (LlogCatRc × LlogCat) :=
  let index := (if llogIsFull c then 0 else c.lghLastIdx) + 1
  if c.llhBitmap index then none
  else match io with
    | .done => some (.created index, { c with
        llhBitmap := update c.llhBitmap index true
        llhCount := c.llhCount + 1
        lghLastIdx := index })
    -- the bit and the count are put back
    | .failed remote => some (.failed, { c with lghLastIdx := llogOsdRestore c remote index })

/-- `llog_cat_new_log` with the append. -/
def llogCatNewLog (io : LlogIo) : Option (LlogCatRc × LlogCat) :=
  let index := (c.lghLastIdx + 1) % c.bitmapSize
  if (index = c.llhCatIdx + 1 ∧ 1 < c.llhCount) ∨ (index = 0 ∧ c.llhCatIdx = 0) then
    some (.enospc, c)
  else llogOsdAppend c io

/-- The loop of `llog_cat_set_first_idx`: the new `llh_cat_idx`. -/
def llogCatFirstLoop (c : LlogCat) : ℕ → ℕ → ℕ → Option ℕ
  | 0, _, _ => none
  | fuel + 1, idx, catIdx =>
    if idx = c.lghLastIdx then some catIdx
    else
      let idx := (idx + 1) % c.bitmapSize
      if c.llhBitmap idx = false then llogCatFirstLoop c fuel idx idx
      else if idx = 0 then llogCatFirstLoop c fuel 0 0
      else some catIdx

def llogCatSetFirstIdx (idx : ℕ) : Option LlogCat :=
  if c.llhCatIdx = idx - 1 then
    (llogCatFirstLoop c (2 * c.bitmapSize) idx idx).map fun catIdx => { c with llhCatIdx := catIdx }
  else some c

/-- The change of the header by `llog_cancel_rec`: a cancellation that fails puts the bit and
the count back. -/
def llogCancelRec (index : ℕ) (io : LlogIo) : LlogCat :=
  if c.llhBitmap index ∧ io = .done then
    { c with llhBitmap := update c.llhBitmap index false, llhCount := c.llhCount - 1 }
  else c

def llogCatCleanup (index : ℕ) (io : LlogIo) : Option LlogCat :=
  if index = 0 then none
  else (llogCatSetFirstIdx c index).map fun c => llogCancelRec c index io

/-! ## Runs -/

/-- A catalog and the slots in use. -/
structure LlogCatRun where
  cat : LlogCat
  /-- the slots whose logs were created and not removed -/
  live : ℕ → Bool

/-- A creation or a removal. -/
inductive LlogCatOp where
  /-- a plain log is created -/
  | create (io : LlogIo)
  /-- the plain log of a slot is removed -/
  | remove (index : ℕ) (io : LlogIo)
  deriving DecidableEq

/-- The slots in use after a creation. -/
def LlogCatRc.live (rc : LlogCatRc) (live : ℕ → Bool) : ℕ → Bool :=
  match rc with
  | .created index => update live index true
  | _ => live

/-- The slots in use after a removal. -/
def LlogIo.live (io : LlogIo) (index : ℕ) (live : ℕ → Bool) : ℕ → Bool :=
  match io with
  | .done => update live index false
  | .failed _ => live

/-- One creation or removal. -/
def llogCatStep (s : LlogCatRun) : LlogCatOp → Option LlogCatRun
  | .create io => (llogCatNewLog s.cat io).map fun r => ⟨r.2, r.1.live s.live⟩
  | .remove index io =>
    (llogCatCleanup s.cat index io).map fun cat => ⟨cat, io.live index s.live⟩

/-- A new catalog. -/
def llogCatStart (bitmapSize : ℕ) : LlogCatRun :=
  ⟨⟨bitmapSize, fun i => i == 0, 1, 0, 0⟩, fun _ => false⟩

/-- Only logs that exist are removed. -/
def LlogCatUse (s : LlogCatRun) : LlogCatOp → Prop
  | .create _ => True
  | .remove index _ => s.live index = true

/-- No log is created in a catalog that is empty and stands at its last slot, and the removal
of the oldest log does not fail. -/
def LlogCatSpared (s : LlogCatRun) : LlogCatOp → Prop
  | .create _ => s.cat.llhCount = 1 → s.cat.lghLastIdx + 1 ≠ s.cat.bitmapSize
  | .remove index io => s.cat.llhCatIdx + 1 = index → io = .done

instance (s : LlogCatRun) (op : LlogCatOp) : Decidable (LlogCatUse s op ∧ LlogCatSpared s op) := by
  cases op <;> dsimp only [LlogCatUse, LlogCatSpared] <;> infer_instance

/-- What a catalog promises: the slots in use are those after `llh_cat_idx` up to
`lgh_last_idx` whose bit is set, and a creation is refused only when the slot after
`lgh_last_idx` is in use. -/
structure LlogCatRing (s : LlogCatRun) : Prop where
  /-- the slots in use -/
  inUse : ∀ k, s.live k = true ↔
    After (s.cat.bitmapSize - 1) s.cat.llhCatIdx s.cat.lghLastIdx k ∧ s.cat.llhBitmap k = true
  /-- a refused creation -/
  refused : ∀ io c, llogCatNewLog s.cat io = some (.enospc, c) →
    s.live (next (s.cat.bitmapSize - 1) s.cat.lghLastIdx) = true

/-! ## Counting set bits -/

theorem countP_update_of_notMem {p : ℕ → Bool} {ws : List ℕ} {k : ℕ} {b : Bool} (hk : k ∉ ws) :
    ws.countP (update p k b) = ws.countP p :=
  List.countP_congr fun x hx => by rw [update_of_ne (ne_of_mem_of_not_mem hx hk)]

open List (nodup_cons countP_cons mem_cons range' length_pos_iff filter_append)

/-- Clearing the bit of a slot of a list. -/
theorem countP_update_false {p : ℕ → Bool} {ws : List ℕ} {k : ℕ} (hnd : ws.Nodup) (hk : k ∈ ws)
    (hp : p k = true) : ws.countP (update p k false) + 1 = ws.countP p := by
  induction ws with
  | nil => exact absurd hk List.not_mem_nil
  | cons w ws ih =>
    obtain ⟨hw, hnd⟩ := nodup_cons.mp hnd
    rw [countP_cons, countP_cons]
    by_cases heq : w = k
    · subst heq
      rw [countP_update_of_notMem hw, update_self, hp, if_neg nofun, if_pos rfl]
    · have hmem := (mem_cons.mp hk).resolve_left (fun h => heq h.symm)
      rw [update_of_ne heq, ← ih hnd hmem]
      omega

/-! ## The invariant -/

/-- The slots `ws` after `llh_cat_idx` up to `lgh_last_idx` hold every slot in use, the first of
them in use. -/
structure CatPath (c : LlogCat) (ws : List ℕ) : Prop where
  size : 2 ≤ c.bitmapSize
  path : Path (c.bitmapSize - 1) c.llhCatIdx ws c.lghLastIdx
  nodup : ws.Nodup
  catIdx : c.llhCatIdx ≤ c.bitmapSize - 1
  header : c.llhBitmap 0 = true
  used : ∀ k, k ≠ 0 → c.llhBitmap k = true → k ∈ ws
  count : c.llhCount = ws.countP c.llhBitmap + 1
  /-- the first slot is in use, and its predecessor is `llh_cat_idx` also as a number -/
  first : ws ≠ [] → c.llhCatIdx + 1 < c.bitmapSize ∧ c.llhBitmap (c.llhCatIdx + 1) = true

/-- The invariant of a run. -/
structure CatInv (s : LlogCatRun) : Prop where
  slots : ∃ ws, CatPath s.cat ws
  live : ∀ k, s.live k = (s.cat.llhBitmap k && k != 0)

namespace CatPath

variable {c : LlogCat} {ws : List ℕ}

section

variable (h : CatPath c ws)
include h

theorem pos : 0 < c.bitmapSize - 1 := by have := h.size; omega

theorem lastIdx_le : c.lghLastIdx ≤ c.bitmapSize - 1 := by
  by_cases hne : ws = []
  · subst hne
    exact h.path ▸ h.catIdx
  · exact (h.path.mem_bounds h.pos h.catIdx _ (h.path.last_mem hne)).2

/-- The first slot is the one after `llh_cat_idx`. -/
theorem next_catIdx (hne : ws ≠ []) : next (c.bitmapSize - 1) c.llhCatIdx = c.llhCatIdx + 1 :=
  next_of_lt (by have := (h.first hne).1; omega)

theorem first_mem (hne : ws ≠ []) : c.llhCatIdx + 1 ∈ ws :=
  h.used _ (Nat.succ_ne_zero _) (h.first hne).2

/-- A catalog with slots in use is counted as such. -/
theorem one_lt_count (hne : ws ≠ []) : 1 < c.llhCount := by
  rw [h.count]
  have := List.countP_pos_iff.mpr ⟨_, h.first_mem hne, (h.first hne).2⟩
  omega

/-- The slot that `llog_osd_write_rec` takes. -/
theorem append_index :
    (if llogIsFull c then 0 else c.lghLastIdx) + 1 = next (c.bitmapSize - 1) c.lghLastIdx := by
  have hle := h.lastIdx_le
  rw [llogIsFull, next]
  split <;> split <;> simp_all
  omega

/-- The index that `llog_cat_new_log` computes is the next slot, or the header's. -/
theorem mod_index : (c.lghLastIdx + 1) % c.bitmapSize =
      if c.lghLastIdx = c.bitmapSize - 1 then 0 else next (c.bitmapSize - 1) c.lghLastIdx := by
  have hle := h.lastIdx_le
  have hsize := h.size
  split
  · next heq => rw [heq, Nat.sub_add_cancel (by omega), Nat.mod_self]
  · rw [next_of_lt (by omega), Nat.mod_eq_of_lt (by omega)]

/-- The free-slot check of `llog_cat_new_log` refuses exactly when the next slot is the first
one. -/
theorem refused_iff : (((c.lghLastIdx + 1) % c.bitmapSize = c.llhCatIdx + 1 ∧ 1 < c.llhCount) ∨
      ((c.lghLastIdx + 1) % c.bitmapSize = 0 ∧ c.llhCatIdx = 0)) ↔
    ws ≠ [] ∧ next (c.bitmapSize - 1) c.lghLastIdx = c.llhCatIdx + 1 := by
  have hnext := next_mem h.pos h.lastIdx_le
  rw [h.mod_index]
  constructor
  · rintro (⟨hidx, hcount⟩ | ⟨hidx, hcat⟩)
    · refine ⟨?_, ?_⟩
      · rintro rfl
        exact absurd h.count (Nat.ne_of_gt hcount)
      · split at hidx <;> omega
    · have hlast : c.lghLastIdx = c.bitmapSize - 1 := by split at hidx <;> omega
      refine ⟨?_, by rw [hlast, next_self, hcat]⟩
      rintro rfl
      have hpath : c.llhCatIdx = c.lghLastIdx := h.path
      omega
  · rintro ⟨hne, heq⟩
    split
    · next hlast =>
      rw [hlast, next_self] at heq
      exact Or.inr ⟨rfl, by omega⟩
    · exact Or.inl ⟨heq, h.one_lt_count hne⟩

end

section

variable (hfree : ¬ (ws ≠ [] ∧ next (c.bitmapSize - 1) c.lghLastIdx = c.llhCatIdx + 1))
include hfree

/-- A slot that passes the free-slot check is not among the slots of the catalog. -/
theorem next_notMem (h : CatPath c ws) : next (c.bitmapSize - 1) c.lghLastIdx ∉ ws := fun hmem => by
  have hne := List.ne_nil_of_mem hmem
  have heq := h.path.next_eq_of_mem h.pos h.catIdx h.nodup hmem
  exact hfree ⟨hne, heq.trans (h.next_catIdx hne)⟩

theorem bitmap_next (h : CatPath c ws) :
    c.llhBitmap (next (c.bitmapSize - 1) c.lghLastIdx) = false := by
  have hnext := next_mem h.pos h.lastIdx_le
  refine Bool.eq_false_iff.mpr fun hset => h.next_notMem hfree (h.used _ (by omega) hset)

/-- The error exit puts `lgh_last_idx` back. -/
theorem restore (h : CatPath c ws) (remote : Bool) :
    llogOsdRestore c remote (next (c.bitmapSize - 1) c.lghLastIdx) = c.lghLastIdx := by
  have hle := h.lastIdx_le
  have hpos := h.pos
  -- an untouched catalog is the only one whose last slot is the header
  have hzero : c.lghLastIdx = 0 → c.llhCatIdx = 0 := fun hlast => by
    by_cases hne : ws = []
    · subst hne
      exact h.path.trans hlast
    · have := h.path.mem_bounds hpos h.catIdx _ (h.path.last_mem hne)
      omega
  have hwrap : c.lghLastIdx = c.bitmapSize - 1 → c.llhCatIdx ≠ 0 := fun hlast hcat => by
    refine hfree ⟨?_, by rw [hlast, next_self, hcat]⟩
    rintro rfl
    have hpath : c.llhCatIdx = c.lghLastIdx := h.path
    omega
  rw [llogOsdRestore]
  cases remote with
  | true => rfl
  | false =>
    rw [if_neg Bool.false_ne_true]
    rcases Nat.eq_or_lt_of_le hle with hlast | hlt
    · rw [hlast, next_self, if_pos ⟨rfl, hwrap hlast⟩]
    · rw [next_of_lt hlt, Nat.add_sub_cancel]
      split
      · next hc => exact absurd (hzero hc.1) hc.2
      · rfl

theorem create (h : CatPath c ws) (hspared : c.llhCount = 1 → c.lghLastIdx + 1 ≠ c.bitmapSize) :
    CatPath { c with
      llhBitmap := update c.llhBitmap (next (c.bitmapSize - 1) c.lghLastIdx) true
      llhCount := c.llhCount + 1
      lghLastIdx := next (c.bitmapSize - 1) c.lghLastIdx }
      (ws ++ [next (c.bitmapSize - 1) c.lghLastIdx]) := by
  have hnext := next_mem h.pos h.lastIdx_le
  have hmem := h.next_notMem hfree
  have hsize := h.size
  constructor
  case size => exact hsize
  case path => exact h.path.snoc
  case nodup =>
    exact List.nodup_append.mpr ⟨h.nodup, List.pairwise_singleton _ _, fun a ha b hb heq => by
      rw [heq, List.mem_singleton.mp hb] at ha
      exact hmem ha⟩
  case catIdx => exact h.catIdx
  case header =>
    dsimp only
    rw [update_of_ne (by omega), h.header]
  case used =>
    intro k hk hset
    by_cases heq : k = next (c.bitmapSize - 1) c.lghLastIdx
    · exact List.mem_append_right _ (List.mem_singleton.mpr heq)
    · dsimp only at hset
      rw [update_of_ne heq] at hset
      exact List.mem_append_left _ (h.used k hk hset)
  case count =>
    dsimp only
    rw [List.countP_append, List.countP_singleton, countP_update_of_notMem hmem,
      update_self, if_pos rfl, h.count]
  case first =>
    intro _
    dsimp only
    by_cases hne : ws = []
    · -- the catalog was empty: the new slot is the first one
      subst hne
      have hpath : c.llhCatIdx = c.lghLastIdx := h.path
      have hlast := hspared h.count
      have hle := h.lastIdx_le
      have hn : next (c.bitmapSize - 1) c.lghLastIdx = c.llhCatIdx + 1 := by
        rw [hpath]
        exact next_of_lt (by omega)
      rw [hn, update_self]
      exact ⟨by omega, rfl⟩
    · obtain ⟨hlt, hset⟩ := h.first hne
      refine ⟨hlt, ?_⟩
      rw [update_of_ne (ne_of_mem_of_not_mem (h.first_mem hne) hmem), hset]

end

end CatPath

/-! ## The oldest slot -/

/-- The loop of `llog_cat_set_first_idx` passes the slots whose bit is clear and stops at the
first slot in use. -/
theorem llogCatFirstLoop_spec {c : LlogCat} (hsize : 2 ≤ c.bitmapSize)
    (header : c.llhBitmap 0 = true) (fuel : ℕ) {idx : ℕ} {ws : List ℕ}
    (hpath : Path (c.bitmapSize - 1) idx ws c.lghLastIdx) (hnd : ws.Nodup) (hidx : idx ∉ ws)
    (hle : idx ≤ c.bitmapSize - 1)
    (hfuel : 2 * ws.length + (if idx = c.bitmapSize - 1 then 1 else 0) < fuel) :
    ∃ catIdx pre post, llogCatFirstLoop c fuel idx idx = some catIdx ∧ ws = pre ++ post ∧
      (∀ w ∈ pre, c.llhBitmap w = false) ∧
      Path (c.bitmapSize - 1) catIdx post c.lghLastIdx ∧ catIdx ≤ c.bitmapSize - 1 ∧
      (post ≠ [] → catIdx + 1 < c.bitmapSize ∧ c.llhBitmap (catIdx + 1) = true) := by
  induction fuel generalizing idx ws with
  | zero => omega
  | succ fuel ih =>
    rw [llogCatFirstLoop]
    by_cases hlast : idx = c.lghLastIdx
    · -- the last slot: the catalog gets empty
      have hnil : ws = [] := by
        by_contra hne
        exact hidx (hlast ▸ hpath.last_mem hne)
      subst hnil
      exact ⟨idx, [], [], if_pos hlast, rfl, nofun, hpath, hle, fun h => absurd rfl h⟩
    rw [if_neg hlast]
    dsimp only
    rcases Nat.eq_or_lt_of_le hle with heq | hlt
    · -- over the header
      have hmod : (idx + 1) % c.bitmapSize = 0 := by
        rw [heq, Nat.sub_add_cancel (by omega), Nat.mod_self]
      rw [hmod, header, if_neg nofun, if_pos rfl]
      rw [if_pos heq] at hfuel
      refine ih ?_ hnd ?_ (Nat.zero_le _) (by rw [if_neg (by omega)]; omega)
      · cases ws with
        | nil => exact absurd hpath hlast
        | cons w ws =>
          refine ⟨?_, hpath.2⟩
          rw [next_of_lt (by omega), hpath.1, heq, next_self]
      · intro hmem
        have := hpath.mem_bounds (by omega) hle 0 hmem
        omega
    · have hmod : (idx + 1) % c.bitmapSize = idx + 1 := Nat.mod_eq_of_lt (by omega)
      rw [hmod]
      cases ws with
      | nil => exact absurd hpath hlast
      | cons w ws =>
        obtain ⟨hw, hpath'⟩ := hpath
        rw [next_of_lt hlt] at hw
        subst hw
        obtain ⟨hnot, hnd'⟩ := nodup_cons.mp hnd
        cases hset : c.llhBitmap (idx + 1) with
        | false =>
          rw [List.length_cons] at hfuel
          obtain ⟨catIdx, pre, post, hrun, rfl, hpre, hrest⟩ :=
            ih hpath' hnd' hnot (by omega) (by split <;> omega)
          exact ⟨catIdx, (idx + 1) :: pre, post, hrun, rfl,
            List.forall_mem_cons.mpr ⟨hset, hpre⟩, hrest⟩
        | true =>
          exact ⟨idx, [], _, rfl, rfl, nofun, ⟨(next_of_lt hlt).symm, hpath'⟩, hle,
            fun _ => ⟨by omega, hset⟩⟩

namespace CatPath

variable {c : LlogCat} {ws : List ℕ} {k : ℕ}

/-- There are no more slots than the ring has. -/
theorem length_le (h : CatPath c ws) : ws.length ≤ c.bitmapSize - 1 := by
  have hsub : ws ⊆ range' 1 (c.bitmapSize - 1) := fun w hw => by
    have := h.path.mem_bounds h.pos h.catIdx w hw
    exact List.mem_range'_1.mpr (by omega)
  have hle := (h.nodup.subperm hsub).length_le
  rwa [List.length_range'] at hle

/-- Cancelling a slot that is not the oldest. -/
theorem cancel (h : CatPath c ws) (hk : k ≠ 0) (hset : c.llhBitmap k = true)
    (hne : c.llhCatIdx ≠ k - 1) : CatPath { c with
      llhBitmap := update c.llhBitmap k false, llhCount := c.llhCount - 1 } ws := by
  have hcount := countP_update_false h.nodup (h.used k hk hset) hset
  constructor
  case size => exact h.size
  case path => exact h.path
  case nodup => exact h.nodup
  case catIdx => exact h.catIdx
  case header => exact (update_of_ne (Ne.symm hk) _ _).trans h.header
  case used =>
    intro j hj hjset
    dsimp only at hjset
    by_cases heq : j = k
    · rw [heq, update_self] at hjset
      cases hjset
    · rw [update_of_ne heq] at hjset
      exact h.used j hj hjset
  case count =>
    dsimp only
    rw [h.count]
    omega
  case first =>
    intro hws
    obtain ⟨hlt, hfirst⟩ := h.first hws
    have hk' : c.llhCatIdx + 1 ≠ k := by omega
    exact ⟨hlt, (update_of_ne hk' _ _).trans hfirst⟩

/-- Cancelling the oldest slot: `llh_cat_idx` moves to the place before the next slot in use. -/
theorem cancel_first (h : CatPath c ws) (hk : k ≠ 0) (hset : c.llhBitmap k = true)
    (hcat : c.llhCatIdx = k - 1) :
    ∃ catIdx ws', llogCatFirstLoop c (2 * c.bitmapSize) k k = some catIdx ∧ CatPath { c with
      llhBitmap := update c.llhBitmap k false
      llhCount := c.llhCount - 1
      llhCatIdx := catIdx } ws' := by
  have hmem := h.used k hk hset
  have hne := List.ne_nil_of_mem hmem
  have hlen := h.length_le
  have hlt := (h.first hne).1
  cases ws with
  | nil => exact absurd rfl hne
  | cons w ws =>
    have hpath := h.path
    have hw : w = k := by rw [hpath.1, h.next_catIdx hne]; omega
    subst hw
    obtain ⟨hnot, hnd⟩ := nodup_cons.mp h.nodup
    rw [List.length_cons] at hlen
    obtain ⟨catIdx, pre, post, hrun, rfl, hpre, hpath', hle, hfirst⟩ :=
      llogCatFirstLoop_spec h.size h.header (2 * c.bitmapSize) hpath.2 hnd hnot (by omega)
        (by split <;> omega)
    have hnotPost : w ∉ post := fun hmem => hnot (List.mem_append_right _ hmem)
    refine ⟨catIdx, post, hrun, ?_⟩
    constructor
    case size => exact h.size
    case path => exact hpath'
    case nodup => exact (List.nodup_append.mp hnd).2.1
    case catIdx => exact hle
    case header => exact (update_of_ne (Ne.symm hk) _ _).trans h.header
    case used =>
      intro j hj hjset
      dsimp only at hjset
      by_cases heq : j = w
      · rw [heq, update_self] at hjset
        cases hjset
      · rw [update_of_ne heq] at hjset
        have hj' := (mem_cons.mp (h.used j hj hjset)).resolve_left heq
        exact (List.mem_append.mp hj').resolve_left fun hjpre => by
          rw [hpre j hjpre] at hjset
          cases hjset
    case count =>
      have hzero : pre.countP c.llhBitmap = 0 :=
        List.countP_eq_zero.mpr fun x hx => by rw [hpre x hx]; exact Bool.false_ne_true
      dsimp only
      rw [countP_update_of_notMem hnotPost, h.count, countP_cons, List.countP_append, hzero,
        if_pos hset]
      omega
    case first =>
      intro hpost
      obtain ⟨hlt, hset'⟩ := hfirst hpost
      refine ⟨hlt, ?_⟩
      dsimp only
      rw [update_of_ne ?_, hset']
      rintro rfl
      cases post with
      | nil => exact hpost rfl
      | cons v post =>
        refine hnotPost (mem_cons.mpr (Or.inl ?_))
        rw [hpath'.1]
        exact (next_of_lt (by omega)).symm

end CatPath

/-! ## One step -/

variable {s : LlogCatRun}

theorem CatInv.create (h : CatInv s) {io : LlogIo} (hspared : LlogCatSpared s (.create io)) :
    ∃ s', llogCatStep s (.create io) = some s' ∧ CatInv s' := by
  obtain ⟨⟨ws, hws⟩, hlive⟩ := h
  rw [llogCatStep, llogCatNewLog]
  split
  · exact ⟨s, rfl, ⟨ws, hws⟩, hlive⟩
  · next hpass =>
    rw [hws.refused_iff] at hpass
    cases io with
    | done =>
      rw [llogOsdAppend, hws.append_index, hws.bitmap_next hpass, if_neg Bool.false_ne_true]
      refine ⟨_, rfl, ⟨_, hws.create hpass hspared⟩, fun k => ?_⟩
      have hnext := next_mem hws.pos hws.lastIdx_le
      dsimp only [LlogCatRc.live]
      by_cases heq : k = next (s.cat.bitmapSize - 1) s.cat.lghLastIdx
      · subst heq
        rw [update_self, update_self, Bool.true_and]
        exact (bne_iff_ne.mpr (by omega)).symm
      · rw [update_of_ne heq, update_of_ne heq, hlive]
    | failed remote =>
      rw [llogOsdAppend, hws.append_index, hws.bitmap_next hpass, if_neg Bool.false_ne_true]
      refine ⟨_, rfl, ⟨ws, ?_⟩, hlive⟩
      rw [hws.restore hpass]
      exact hws

theorem CatInv.remove (h : CatInv s) {index : ℕ} {io : LlogIo}
    (huse : LlogCatUse s (.remove index io)) (hspared : LlogCatSpared s (.remove index io)) :
    ∃ s', llogCatStep s (.remove index io) = some s' ∧ CatInv s' := by
  obtain ⟨⟨ws, hws⟩, hlive⟩ := h
  have hslot : s.cat.llhBitmap index = true ∧ index ≠ 0 := by
    have : s.live index = true := huse
    rw [hlive, Bool.and_eq_true, bne_iff_ne] at this
    exact this
  obtain ⟨hset, hindex⟩ := hslot
  have hupdate : ∀ k, update s.live index false k =
      (update s.cat.llhBitmap index false k && k != 0) := fun k => by
    by_cases heq : k = index
    · subst heq
      rw [update_self, update_self, Bool.false_and]
    · rw [update_of_ne heq, update_of_ne heq, hlive]
  rw [llogCatStep, llogCatCleanup, if_neg hindex, llogCatSetFirstIdx]
  by_cases hcat : s.cat.llhCatIdx = index - 1
  · -- the oldest slot
    obtain rfl : io = .done := hspared (by omega)
    obtain ⟨catIdx, ws', hrun, hws'⟩ := hws.cancel_first hindex hset hcat
    rw [if_pos hcat, hrun]
    refine ⟨_, rfl, ⟨ws', ?_⟩, ?_⟩ <;> dsimp only [llogCancelRec] <;> rw [if_pos ⟨hset, rfl⟩]
    · exact hws'
    · exact hupdate
  · rw [if_neg hcat]
    cases io with
    | done =>
      refine ⟨_, rfl, ⟨ws, ?_⟩, ?_⟩ <;> dsimp only [llogCancelRec] <;> rw [if_pos ⟨hset, rfl⟩]
      · exact hws.cancel hindex hset hcat
      · exact hupdate
    | failed remote =>
      refine ⟨_, rfl, ⟨ws, ?_⟩, ?_⟩ <;> dsimp only [llogCancelRec] <;> rw [if_neg nofun]
      · exact hws
      · exact hlive

theorem CatInv.step (h : CatInv s) {op : LlogCatOp} (huse : LlogCatUse s op)
    (hspared : LlogCatSpared s op) : ∃ s', llogCatStep s op = some s' ∧ CatInv s' := by
  cases op with
  | create io => exact h.create hspared
  | remove index io => exact h.remove huse hspared

theorem llogOsdAppend_ne_enospc {c c' : LlogCat} {io : LlogIo} :
    llogOsdAppend c io ≠ some (.enospc, c') := by
  cases io <;> rw [llogOsdAppend] <;> split <;> simp

/-- What the invariant says of the slots. -/
theorem CatInv.ring (h : CatInv s) : LlogCatRing s := by
  obtain ⟨⟨ws, hws⟩, hlive⟩ := h
  constructor
  case inUse =>
    intro k
    rw [hlive, Bool.and_eq_true, bne_iff_ne]
    constructor
    · rintro ⟨hset, hk⟩
      exact ⟨hws.path.after hws.pos hws.catIdx hws.nodup (hws.used k hk hset), hset⟩
    · rintro ⟨hafter, hset⟩
      refine ⟨hset, ?_⟩
      rw [After] at hafter
      split at hafter <;> omega
  case refused =>
    intro io c hrc
    rw [llogCatNewLog] at hrc
    split at hrc
    · next hfull =>
      obtain ⟨hne, heq⟩ := hws.refused_iff.mp hfull
      rw [hlive, heq, (hws.first hne).2, Bool.true_and]
      exact bne_iff_ne.mpr (Nat.succ_ne_zero _)
    · exact absurd hrc llogOsdAppend_ne_enospc

variable {bitmapSize : ℕ}

theorem catInv_start (hsize : 2 ≤ bitmapSize) : CatInv (llogCatStart bitmapSize) := by
  refine ⟨⟨[], ?_⟩, fun k => ?_⟩
  · constructor
    case size => exact hsize
    case path => exact rfl
    case nodup => exact List.nodup_nil
    case catIdx => exact Nat.zero_le _
    case header => exact rfl
    case used => exact fun k hk hset => absurd (beq_iff_eq.mp hset) hk
    case count => exact rfl
    case first => exact fun h => absurd rfl h
  · cases k with
    | zero | succ k => rfl

theorem catInv_of_reach (hsize : 2 ≤ bitmapSize)
    (hrun : Reach llogCatStep (fun s op => LlogCatUse s op ∧ LlogCatSpared s op)
      (llogCatStart bitmapSize) s) : CatInv s := by
  refine hrun.invariant CatInv (catInv_start hsize) fun s op s' h hok hs => ?_
  obtain ⟨t, ht, hinv⟩ := h.step hok.1 hok.2
  rw [hs] at ht
  cases ht
  exact hinv

/-- In every run of a catalog, in which no log is created while the catalog is empty at its last
slot and no removal of the oldest log fails, the slots in use are those after `llh_cat_idx` up to
`lgh_last_idx` whose bit is set, a creation is refused only when the next slot is in use, and
every further creation and removal goes through: the `LBUG` of `llog_osd_write_rec` is not met. -/
theorem llogCat_ring {bitmapSize : ℕ} (hsize : 2 ≤ bitmapSize) {s : LlogCatRun}
    (hrun : Reach llogCatStep (fun s op => LlogCatUse s op ∧ LlogCatSpared s op)
      (llogCatStart bitmapSize) s) :
    LlogCatRing s ∧
      ∀ op, LlogCatUse s op → LlogCatSpared s op → ∃ s', llogCatStep s op = some s' := by
  have hinv := catInv_of_reach hsize hrun
  refine ⟨hinv.ring, fun op huse hspared => ?_⟩
  obtain ⟨s', hs, -⟩ := hinv.step huse hspared
  exact ⟨s', hs⟩

/-- Four slots are filled, the first two are removed, the second before the first, and the next log
goes around to the first slot. -/
theorem llogCat_ring_wrapped : ∃ s, Reach llogCatStep
      (fun s op => LlogCatUse s op ∧ LlogCatSpared s op) (llogCatStart 5) s ∧
    (s.cat.llhCatIdx, s.cat.lghLastIdx) = (2, 1) ∧ LlogCatRing s := by
  obtain ⟨s, hrun, hidx⟩ : ∃ s, Reach llogCatStep
      (fun s op => LlogCatUse s op ∧ LlogCatSpared s op) (llogCatStart 5) s ∧
      (s.cat.llhCatIdx, s.cat.lghLastIdx) = (2, 1) :=
    exists_reach [.create .done, .create .done, .create .done, .create .done, .remove 2 .done,
      .remove 1 .done, .create .done] (by decide)
  exact ⟨s, hrun, hidx, (llogCat_ring (by decide) hrun).1⟩

/-! ## Free slots, and the slots that are processed -/

def llogCatFreeSpace (c : LlogCat) : ℕ :=
  if c.llhCount = 1 then c.bitmapSize - 1
  else if c.llhCatIdx < c.lghLastIdx then c.bitmapSize - 1 + c.llhCatIdx - c.lghLastIdx
  -- catalog is presently wrapped
  else c.llhCatIdx - c.lghLastIdx

/-- Exactly `n` more logs can be created, and then `-ENOSPC` is returned. -/
def llogCatCreates : ℕ → LlogCat → Bool
  | 0, c => match llogCatNewLog c .done with
    | some (.enospc, _) => true
    | _ => false
  | n + 1, c => match llogCatNewLog c .done with
    | some (.created _, c') => llogCatCreates n c'
    | _ => false

/-- The slots that `llog_process_thread` passes to its callback, behind `first` up to `last`. -/
def llogProcessSlots (c : LlogCat) (first last : ℕ) : List ℕ :=
  (range' (first + 1) (last - first)).filter c.llhBitmap

/-- The slots that `llog_cat_process` visits, with a callback that goes on and changes nothing. -/
def llogCatProcess (c : LlogCat) : List ℕ :=
  if c.lghLastIdx ≤ c.llhCatIdx ∧ 1 < c.llhCount then
    llogProcessSlots c c.llhCatIdx (c.bitmapSize - 1) ++ llogProcessSlots c 0 c.lghLastIdx
  else llogProcessSlots c 0 (c.bitmapSize - 1)

namespace CatPath

variable {c : LlogCat} {ws : List ℕ}

/-- The next slot is the first one where every slot is taken. -/
theorem full_iff (h : CatPath c ws) : (ws ≠ [] ∧
    next (c.bitmapSize - 1) c.lghLastIdx = c.llhCatIdx + 1) ↔ ws.length = c.bitmapSize - 1 := by
  have hpos := h.pos
  have hlen := h.length_le
  have hcat := h.catIdx
  rw [next, ← length_pos_iff]
  have hfirst : 0 < ws.length → c.llhCatIdx + 1 < c.bitmapSize := fun hne =>
    (h.first (length_pos_iff.mp hne)).1
  obtain ⟨hl, hle, -⟩ | ⟨hl, hlpos, -⟩ := h.path.ranges hcat hlen <;> split <;> omega

theorem freeSpace (h : CatPath c ws) : llogCatFreeSpace c + ws.length = c.bitmapSize - 1 := by
  have hlen := h.length_le
  rw [llogCatFreeSpace]
  by_cases hne : ws = []
  · subst hne
    rw [if_pos (show c.llhCount = 1 from h.count)]
    rfl
  · have hcount := h.one_lt_count hne
    have hpos := length_pos_iff.mpr hne
    have hcat := h.catIdx
    rw [if_neg (by omega)]
    obtain ⟨hl, hle, -⟩ | ⟨hl, hlpos, -⟩ := h.path.ranges hcat hlen <;> split <;> omega

/-- As many logs can be created as there are slots that are not taken. -/
theorem creates {n : ℕ} (h : CatPath c ws) (hn : n + ws.length = c.bitmapSize - 1)
    (hspared : c.llhCount = 1 → c.lghLastIdx + 1 ≠ c.bitmapSize) : llogCatCreates n c = true := by
  induction n generalizing c ws with
  | zero =>
    have hfull := h.refused_iff.mpr (h.full_iff.mpr (by omega))
    simp only [llogCatCreates, llogCatNewLog, if_pos hfull]
  | succ n ih =>
    have hfree := mt h.full_iff.mp (by omega)
    have hpass := mt h.refused_iff.mp hfree
    simp only [llogCatCreates, llogCatNewLog, if_neg hpass, llogOsdAppend, h.append_index,
      h.bitmap_next hfree, Bool.false_eq_true, if_false]
    refine ih (h.create hfree hspared) (by simp; omega) fun hone => ?_
    have hcount := h.count
    simp only at hone
    omega

/-- What is processed are the slots in use, in the order of the ring. -/
theorem process (h : CatPath c ws) : llogCatProcess c = ws.filter c.llhBitmap := by
  have hlen := h.length_le
  have hcat := h.catIdx
  have hlast := h.lastIdx_le
  -- nothing is in use outside of the path
  have hnone : ∀ start n, (∀ k ∈ range' start n, k ≠ 0 ∧ k ∉ ws) →
      (range' start n).filter c.llhBitmap = [] := fun start n hout =>
    List.filter_eq_nil_iff.mpr fun k hk hset => (hout k hk).2 (h.used k (hout k hk).1 hset)
  rw [llogCatProcess]
  split
  · next hwrap =>
    obtain ⟨hl, -, heq⟩ | ⟨-, -, heq⟩ := h.path.ranges hcat hlen
    · -- a path that goes nowhere has no slot in use
      obtain rfl := List.length_eq_zero_iff.mp (show ws.length = 0 by omega)
      exact absurd h.count (by simp; omega)
    · rw [heq, filter_append]
      rfl
  · next hwrap =>
    obtain ⟨hl, -, heq⟩ | ⟨hl, hlpos, -⟩ := h.path.ranges hcat hlen
    · have hsplit : range' 1 (c.bitmapSize - 1) = range' 1 c.llhCatIdx ++
          (ws ++ range' (c.lghLastIdx + 1) (c.bitmapSize - 1 - c.lghLastIdx)) := by
        rw [heq, show c.lghLastIdx + 1 = c.llhCatIdx + 1 + (c.lghLastIdx - c.llhCatIdx) by omega,
          List.range'_append_1, Nat.add_comm c.llhCatIdx 1, List.range'_append_1]
        congr 1
        omega
      rw [llogProcessSlots, Nat.sub_zero, hsplit, filter_append, filter_append,
        hnone, hnone, List.nil_append, List.append_nil]
      all_goals
        intro k hk
        rw [heq]
        simp only [List.mem_range'_1] at hk ⊢
        omega
    · have hne : ws ≠ [] := length_pos_iff.mp (by omega)
      exact absurd ⟨by omega, h.one_lt_count hne⟩ hwrap

end CatPath

/-- Where `llh_cat_idx` stands at the last slot no creation is refused. -/
theorem llogCatNewLog_lastSlot {c : LlogCat} (hcat : c.llhCatIdx + 1 = c.bitmapSize)
    (hsize : 2 ≤ c.bitmapSize) (io : LlogIo) : llogCatNewLog c io = llogOsdAppend c io := by
  have hmod := Nat.mod_lt (c.lghLastIdx + 1) (show 0 < c.bitmapSize by omega)
  exact if_neg (by omega)

theorem not_llogCatCreates {c : LlogCat} (hcat : c.llhCatIdx + 1 = c.bitmapSize)
    (hsize : 2 ≤ c.bitmapSize) (n : ℕ) : llogCatCreates n c = false := by
  induction n generalizing c with
  | zero =>
    rw [llogCatCreates, llogCatNewLog_lastSlot hcat hsize]
    split
    · next heq => exact absurd heq llogOsdAppend_ne_enospc
    · rfl
  | succ n ih =>
    rw [llogCatCreates, llogCatNewLog_lastSlot hcat hsize, llogOsdAppend]
    cases hset : c.llhBitmap ((if llogIsFull c then 0 else c.lghLastIdx) + 1) with
    | true => rfl
    | false => exact ih hcat hsize

/-- In the runs of `llogCat_ring`, `llog_cat_free_space` is the number of logs that can be created
before `-ENOSPC`, unless the catalog is empty at its last slot, and `llog_cat_process` visits the
slots in use once each, in the order of the ring after `llh_cat_idx`. -/
theorem llogCat_free {bitmapSize : ℕ} (hsize : 2 ≤ bitmapSize) {s : LlogCatRun}
    (hrun : Reach llogCatStep (fun s op => LlogCatUse s op ∧ LlogCatSpared s op)
      (llogCatStart bitmapSize) s) : (llogCatCreates (llogCatFreeSpace s.cat) s.cat = true ↔
      ¬ (s.cat.llhCount = 1 ∧ s.cat.lghLastIdx + 1 = s.cat.bitmapSize)) ∧
    ∃ ws, Path (s.cat.bitmapSize - 1) s.cat.llhCatIdx ws s.cat.lghLastIdx ∧ ws.Nodup ∧
      (∀ k, s.live k = true → k ∈ ws) ∧ llogCatProcess s.cat = ws.filter s.live := by
  obtain ⟨⟨ws, hws⟩, hlive⟩ := catInv_of_reach hsize hrun
  refine ⟨⟨fun hcreates ⟨hone, hlast⟩ => ?_, fun hspared => ?_⟩, ws, hws.path, hws.nodup, ?_, ?_⟩
  · -- the catalog is empty, so `llh_cat_idx` is at the last slot too
    have hnil : ws = [] := by
      by_contra hne
      exact absurd hone (Nat.ne_of_gt (hws.one_lt_count hne))
    subst hnil
    have hcat : s.cat.llhCatIdx = s.cat.lghLastIdx := hws.path
    rw [not_llogCatCreates (hcat ▸ hlast) hws.size] at hcreates
    cases hcreates
  · exact hws.creates hws.freeSpace fun hone hlast => hspared ⟨hone, hlast⟩
  · intro k hk
    rw [hlive, Bool.and_eq_true, bne_iff_ne] at hk
    exact hws.used k hk.2 hk.1
  · rw [hws.process]
    refine List.filter_congr fun k hk => ?_
    have hbounds := hws.path.mem_bounds hws.pos hws.catIdx k hk
    rw [hlive, bne_iff_ne.mpr (by omega), Bool.and_true]

/-- A catalog that has wrapped around: there is a free slot, and the logs are found from the oldest
on. -/
theorem llogCat_free_wrapped : ∃ s ws, Reach llogCatStep
      (fun s op => LlogCatUse s op ∧ LlogCatSpared s op) (llogCatStart 5) s ∧
    llogCatCreates (llogCatFreeSpace s.cat) s.cat = true ∧ llogCatProcess s.cat = [3, 4, 1] ∧
    Path 4 2 ws 1 ∧ llogCatProcess s.cat = ws.filter s.live := by
  obtain ⟨s, hrun, hsize, hcat, hlast, hcount, hproc⟩ : ∃ s, Reach llogCatStep
      (fun s op => LlogCatUse s op ∧ LlogCatSpared s op) (llogCatStart 5) s ∧
      s.cat.bitmapSize = 5 ∧ s.cat.llhCatIdx = 2 ∧ s.cat.lghLastIdx = 1 ∧ s.cat.llhCount ≠ 1 ∧
      llogCatProcess s.cat = [3, 4, 1] :=
    exists_reach [.create .done, .create .done, .create .done, .create .done, .remove 2 .done,
      .remove 1 .done, .create .done] (by decide)
  obtain ⟨hcreates, ws, hpath, -, -, hws⟩ := llogCat_free (by decide) hrun
  rw [hsize, hcat, hlast] at hpath
  exact ⟨s, ws, hrun, hcreates.mpr fun h => hcount h.1, hproc, hpath, hws⟩

/-! ## A catalog that is emptied at its last slot -/

/-- The slots `1, …, k` are in use, filled from an empty catalog at `catIdx`. -/
def filledCat (bitmapSize catIdx k : ℕ) : LlogCatRun :=
  ⟨⟨bitmapSize, fun i => decide (i ≤ k), k + 1, catIdx, if k = 0 then catIdx else k⟩,
    fun i => decide (1 ≤ i ∧ i ≤ k)⟩

theorem update_decide_true {p q : ℕ → Prop} [DecidablePred p] [DecidablePred q] {k : ℕ}
    (h : ∀ i, q i ↔ i = k ∨ p i) :
    update (fun i => decide (p i)) k true = fun i => decide (q i) := by
  funext i
  by_cases hi : i = k
  · subst hi
    rw [update_self, decide_eq_true ((h i).mpr (Or.inl rfl))]
  · rw [update_of_ne hi, decide_eq_decide, h i]
    exact (or_iff_right hi).symm

variable {bitmapSize catIdx k : ℕ}

section

variable (hk : k + 1 < bitmapSize) (hcat : catIdx + 1 = bitmapSize)
include hk hcat

/-- The slot taken next in a catalog filled from the end of the ring. -/
theorem filledCat_index : (if llogIsFull (filledCat bitmapSize catIdx k).cat then 0
      else (filledCat bitmapSize catIdx k).cat.lghLastIdx) + 1 = k + 1 := by
  have hlast : (filledCat bitmapSize catIdx k).cat.lghLastIdx = if k = 0 then catIdx else k := rfl
  have hfull : llogIsFull (filledCat bitmapSize catIdx k).cat =
    decide (bitmapSize - 1 ≤ if k = 0 then catIdx else k) := rfl
  rw [hfull, hlast]
  by_cases hzero : k = 0
  · rw [if_pos hzero, decide_eq_true (by omega), if_pos rfl, hzero]
  · rw [if_neg hzero, decide_eq_false (by omega), if_neg Bool.false_ne_true]

theorem filledCat_create : llogCatStep (filledCat bitmapSize catIdx k) (.create .done) =
      some (filledCat bitmapSize catIdx (k + 1)) := by
  have hbits : update (fun i => decide (i ≤ k)) (k + 1) true =
      fun i => decide (i ≤ k + 1) := update_decide_true fun i => by omega
  have hlive : update (fun i => decide (1 ≤ i ∧ i ≤ k)) (k + 1) true =
      fun i => decide (1 ≤ i ∧ i ≤ k + 1) := update_decide_true fun i => by omega
  have hclear : (filledCat bitmapSize catIdx k).cat.llhBitmap (k + 1) = false :=
    decide_eq_false (by omega)
  rw [llogCatStep, llogCatNewLog_lastSlot hcat (show 2 ≤ bitmapSize by omega), llogOsdAppend,
    filledCat_index hk hcat, hclear, if_neg Bool.false_ne_true]
  dsimp only [filledCat, Option.map_some, LlogCatRc.live]
  rw [hbits, hlive, if_neg (Nat.succ_ne_zero k)]

end

/-- A log is created in an empty catalog and removed: the catalog is empty one slot further. -/
theorem filledCat_pass {j : ℕ} (hj : j + 1 < bitmapSize) :
    ∃ t, llogCatStep (filledCat bitmapSize j 0) (.create .done) = some t ∧
      t.live (j + 1) = true ∧
      llogCatStep t (.remove (j + 1) .done) = some (filledCat bitmapSize (j + 1) 0) := by
  have hmod : (j + 1) % bitmapSize = j + 1 := Nat.mod_eq_of_lt hj
  have hback : ∀ p : ℕ → Bool, p (j + 1) = false →
      update (update p (j + 1) true) (j + 1) false = p := fun p hp => by
    rw [Function.update_idem, ← hp, Function.update_eq_self]
  obtain ⟨n, hn⟩ : ∃ n, 2 * bitmapSize = n + 1 := ⟨2 * bitmapSize - 1, by omega⟩
  have hroom : ¬ bitmapSize - 1 ≤ j := by omega
  refine ⟨⟨⟨bitmapSize, update (fun i => decide (i ≤ 0)) (j + 1) true, 2, j, j + 1⟩,
    update (fun i => decide (1 ≤ i ∧ i ≤ 0)) (j + 1) true⟩, ?_, ?_, ?_⟩
  · simp [llogCatStep, llogCatNewLog, llogOsdAppend, llogIsFull, filledCat, hmod, hroom,
      LlogCatRc.live]
  · simp
  · simp [llogCatStep, llogCatCleanup, llogCatSetFirstIdx, hn, llogCatFirstLoop, llogCancelRec,
      LlogIo.live, filledCat, hback]

theorem llogCatStart_eq (bitmapSize : ℕ) : llogCatStart bitmapSize = filledCat bitmapSize 0 0 := by
  have hbits : (fun i : ℕ => i == 0) = fun i => decide (i ≤ 0) := funext fun i => by
    cases i with
    | zero | succ i => rfl
  have hlive : (fun _ : ℕ => false) = fun i => decide (1 ≤ i ∧ i ≤ 0) :=
    funext fun i => (decide_eq_false (by omega)).symm
  rw [llogCatStart, filledCat, hbits, hlive, if_pos rfl]

/-- Logs are created and removed one after the other. -/
theorem reach_emptied {j : ℕ} (hj : j < bitmapSize) :
    Reach llogCatStep LlogCatUse (llogCatStart bitmapSize) (filledCat bitmapSize j 0) := by
  induction j with
  | zero => exact llogCatStart_eq bitmapSize ▸ Reach.start
  | succ j ih =>
    obtain ⟨t, hcreate, hlive, hremove⟩ := filledCat_pass hj
    exact .step (.remove (j + 1) .done) (.step (.create .done) (ih (by omega)) trivial hcreate)
      hlive hremove

/-- Empty a catalog at its last slot, and fill it: `llh_cat_idx` still stands at the last slot, and
the next creation passes the check and meets the bit of slot `1`. -/
theorem llogCat_refill (hsize : 2 ≤ bitmapSize) :
    ∃ s, Reach llogCatStep LlogCatUse (llogCatStart bitmapSize) s ∧
      llogCatStep s (.create .done) = none := by
  have hlast : bitmapSize - 1 + 1 = bitmapSize := by omega
  have hempty := reach_emptied (show bitmapSize - 1 < bitmapSize by omega)
  -- the catalog is filled from the end of the ring
  have hfill : ∀ k < bitmapSize, Reach llogCatStep LlogCatUse (llogCatStart bitmapSize)
      (filledCat bitmapSize (bitmapSize - 1) k) := by
    intro k hk
    induction k with
    | zero => exact hempty
    | succ k ih => exact .step (.create .done) (ih (by omega)) trivial (filledCat_create hk hlast)
  refine ⟨_, hfill (bitmapSize - 1) (by omega), ?_⟩
  rw [llogCatStep, llogCatNewLog_lastSlot hlast hsize]
  simp only [llogOsdAppend, llogIsFull, filledCat, ite_self]
  simp
  omega

/-- A catalog of the smallest chunk size, `LLOG_MIN_CHUNK_SIZE`, stops the server: its free-slot
check lets a creation through that takes a slot in use. -/
theorem llogCat_lastSlot : ¬ ∀ s, Reach llogCatStep LlogCatUse (llogCatStart 64768) s →
    ∀ op, LlogCatUse s op → ∃ s', llogCatStep s op = some s' := fun hall => by
  obtain ⟨s, hs, hnone⟩ := llogCat_refill (show 2 ≤ 64768 by decide)
  obtain ⟨s', hsome⟩ := hall s hs (.create .done) trivial
  rw [hnone] at hsome
  cases hsome

/-- A catalog of that size that is emptied at its last slot: `llog_cat_free_space` says 64767, and no
number of creations ends in `-ENOSPC`. -/
theorem llogCat_free_lastSlot : ∃ s, Reach llogCatStep LlogCatUse (llogCatStart 64768) s ∧
    llogCatFreeSpace s.cat = 64767 ∧ ∀ n, llogCatCreates n s.cat = false :=
  ⟨_, reach_emptied (by decide), rfl, not_llogCatCreates rfl (by decide)⟩

end Lustre
