import Lustre.OscFind
import Lustre.Semaphore
import Mathlib.Algebra.Order.BigOperators.Group.Finset

/-!
# Grants of the client write cache

Writers reserve grant with `osc_enter_cache_try`, spend it on extents with `osc_extent_find` and
`osc_extent_expand`, and give what is left back with `osc_unreserve_grant`. Meanwhile extents are
released and merged, written out, and cut off by a truncate. All of these are steps of one machine,
in any order, by any number of writers.

The four counters of the client are right in every state of every run: `OscState.Inv`. The main
theorem `osc_extents_right` says what follows for the extents, for the counters and for the
assertions about grant.
-/

namespace Lustre

open Finset

/-! ## The counters of the client -/

/-- The grant counters of `struct client_obd`. -/
structure ClientObd where
  clAvailGrant : ℤ
  clReservedGrant : ℤ
  clDirtyGrant : ℤ
  clLostGrant : ℤ
  clDirtyPages : ℤ
  obdDirtyPages : ℤ
  deriving DecidableEq

variable (cli : ClientObd)

namespace ClientObd

/-- All of the grant the client has. -/
def total : ℤ :=
  cli.clAvailGrant + cli.clReservedGrant + cli.clDirtyGrant + cli.clLostGrant

end ClientObd

def oscReserveGrant (bytes : ℕ) : Option ClientObd :=
  if bytes ≤ cli.clAvailGrant then
    some { cli with
      clAvailGrant := cli.clAvailGrant - bytes
      clReservedGrant := cli.clReservedGrant + bytes }
  else none

def oscUnreserveGrant (reserved unused : ℕ) : ClientObd :=
  if reserved < unused then
    { cli with
      clReservedGrant := cli.clReservedGrant - reserved
      clAvailGrant := cli.clAvailGrant + reserved
      clLostGrant := cli.clLostGrant + (unused - reserved : ℕ)
      clDirtyGrant := cli.clDirtyGrant - (unused - reserved : ℕ) }
  else
    { cli with
      clReservedGrant := cli.clReservedGrant - reserved
      clAvailGrant := cli.clAvailGrant + unused
      clDirtyGrant := cli.clDirtyGrant + (reserved - unused : ℕ) }

/-- `osc_enter_cache_try`: the counters, and whether the page may be cached. -/
def oscEnterCacheTry (bytes : ℕ) (clDirtyMaxPages obdMaxDirtyPages : ℤ) : ClientObd × Bool :=
  match oscReserveGrant cli bytes with
  | none => (cli, false)
  | some cli' =>
    if cli'.clDirtyPages < clDirtyMaxPages ∧ 1 + cli'.obdDirtyPages ≤ obdMaxDirtyPages then
      ({ cli' with
          clDirtyPages := cli'.clDirtyPages + 1
          obdDirtyPages := cli'.obdDirtyPages + 1 }, true)
    else (oscUnreserveGrant cli' bytes bytes, false)

def oscExitCache : ClientObd :=
  { cli with clDirtyPages := cli.clDirtyPages - 1, obdDirtyPages := cli.obdDirtyPages - 1 }

/-- The counters after extents have given grant back, before `osc_free_grant` looks whether to
borrow some of it. -/
def freeGrant (nrPages : ℕ) (lostGrant dirtyGrant : ℤ) : ClientObd :=
  { cli with
    obdDirtyPages := cli.obdDirtyPages - nrPages
    clDirtyPages := cli.clDirtyPages - nrPages
    clLostGrant := cli.clLostGrant + lostGrant
    clDirtyGrant := cli.clDirtyGrant - dirtyGrant }

def oscFreeGrant (P : OscConf) (cli : ClientObd) (nrPages : ℕ) (lostGrant dirtyGrant : ℤ) :
    ClientObd :=
  let freed := freeGrant cli nrPages lostGrant dirtyGrant
  if freed.clAvailGrant < P.need ∧ P.need ≤ freed.clLostGrant then
    { freed with
      clLostGrant := freed.clLostGrant - P.need, clAvailGrant := freed.clAvailGrant + P.need }
  else freed

/-- What an operation does to the counters, in sum. -/
structure ClientObd.Moves (cli cli' : ClientObd) (reserved dirty total : ℤ) : Prop where
  reserved : cli'.clReservedGrant = cli.clReservedGrant + reserved
  dirty : cli'.clDirtyGrant = cli.clDirtyGrant + dirty
  total : cli'.total = cli.total + total

theorem ClientObd.Moves.refl (cli : ClientObd) : cli.Moves cli 0 0 0 := by
  constructor <;> simp

open ClientObd

theorem oscUnreserveGrant_moves (cli : ClientObd) (reserved unused : ℕ) :
    cli.Moves (oscUnreserveGrant cli reserved unused) (-reserved) (reserved - unused) 0 := by
  rw [oscUnreserveGrant]
  split
  all_goals
    constructor
    · exact sub_eq_add_neg _ _
    · simp only
      omega
    · simp only [total]
      omega

/-- A page that may be cached has its grant reserved; else nothing has changed. -/
theorem oscEnterCacheTry_moves (cli : ClientObd) (bytes : ℕ) (clDirtyMaxPages obdMaxDirtyPages : ℤ) :
    cli.Moves (oscEnterCacheTry cli bytes clDirtyMaxPages obdMaxDirtyPages).1
      (if (oscEnterCacheTry cli bytes clDirtyMaxPages obdMaxDirtyPages).2 then bytes else 0) 0 0 := by
  rw [oscEnterCacheTry, oscReserveGrant]
  by_cases havail : (bytes : ℤ) ≤ cli.clAvailGrant
  · rw [if_pos havail]
    simp only
    split
    · constructor
      · rfl
      · exact (add_zero _).symm
      · simp only [total]
        omega
    · have hmoves := oscUnreserveGrant_moves { cli with
          clAvailGrant := cli.clAvailGrant - bytes
          clReservedGrant := cli.clReservedGrant + bytes } bytes bytes
      constructor
      · rw [hmoves.reserved]
        simp
      · rw [hmoves.dirty]
        simp
      · rw [hmoves.total]
        simp only [total]
        omega
  · rw [if_neg havail]
    exact .refl cli

theorem oscFreeGrant_moves (P : OscConf) (cli : ClientObd) (nrPages : ℕ) (lostGrant dirtyGrant : ℤ) :
    cli.Moves (oscFreeGrant P cli nrPages lostGrant dirtyGrant) 0 (-dirtyGrant)
      (lostGrant - dirtyGrant) := by
  have hfreed : cli.Moves (freeGrant cli nrPages lostGrant dirtyGrant) 0 (-dirtyGrant)
      (lostGrant - dirtyGrant) := by
    constructor
    · exact (add_zero _).symm
    · exact sub_eq_add_neg _ _
    · simp only [total, freeGrant]
      omega
  simp only [oscFreeGrant]
  split
  · refine ⟨hfreed.reserved, hfreed.dirty, ?_⟩
    rw [← hfreed.total]
    simp only [total]
    omega
  · exact hfreed

/-! ## The machine -/

/-- A writer: the extent it has active, and the two counts of `osc_queue_async_io`. -/
structure OscIo where
  oiActive : Option ℕ
  /-- grant it has reserved -/
  grants : ℕ
  /-- grant of it that is left -/
  tmp : ℕ
  deriving DecidableEq

/-- An object, its client, the writers, and the truncate that is going on. -/
structure OscState (τ : Type) where
  obj : OscObject
  cli : ClientObd
  io : τ → OscIo
  /-- the first page that goes, `index` of `osc_cache_truncate_start` -/
  truncIndex : ℕ
  /-- a part of that page stays, `partial` -/
  truncTail : Bool
  /-- extents that are to be truncated -/
  truncList : List ℕ
  /-- the extent that was cut off, `*extp` -/
  extp : Option ℕ

/-- What can happen. -/
inductive OscOp (τ : Type) where
  /-- a writer enters the cache, for a page that its extent covers already or not -/
  | enterCache (t : τ) (covered : Bool) (clDirtyMaxPages obdMaxDirtyPages : ℤ)
  /-- `osc_extent_find` -/
  | find (t : τ) (index maxPages maxExtentPages : ℕ)
  /-- `osc_extent_find` has failed: `osc_exit_cache` -/
  | exitCache (t : τ)
  /-- `osc_extent_expand` -/
  | expand (t : τ) (index maxExtentPages : ℕ)
  /-- `osc_unreserve_grant` at the end of `osc_queue_async_io` -/
  | unreserve (t : τ)
  /-- `osc_extent_release` -/
  | release (t : τ) (maxExtentPages : ℕ)
  /-- `osc_extent_wait` wants an extent written -/
  | waitInv (t : τ) (e : ℕ)
  /-- a page is put into the active extent -/
  | addPage (t : τ) (p : OscAsyncPage)
  /-- `osc_cache_writeback_range` comes to an extent -/
  | writeback (e : ℕ)
  /-- an extent is chosen for an RPC, or to be discarded -/
  | lock (e : ℕ)
  /-- `osc_extent_make_ready`, with the counts of the pages -/
  | makeReady (e : ℕ) (count : OscAsyncPage → ℕ)
  /-- `osc_extent_finish`, for a server with blocks of `2 ^ blockBits` bytes -/
  | finish (e : ℕ) (sent : Bool) (rc : ℤ) (blockBits : ℕ)
  /-- `osc_cache_truncate_start` -/
  | truncStart (index : ℕ) (tail : Bool)
  /-- it goes over the extents behind the new end -/
  | truncScan
  /-- `osc_extent_truncate` of the next of them -/
  | truncate
  /-- which is removed when no page is left -/
  | truncRemove
  /-- `osc_cache_truncate_end` -/
  | truncEnd

variable {τ : Type}

/-- The extents that `osc_cache_truncate_start` goes over. -/
def truncFrom (o : OscObject) (index : ℕ) : List ℕ :=
  match oscExtentSearch o.ext index o.ooRoot with
  | none => o.ooRoot
  | some e =>
    if (o.ext e).oeEnd < index then (o.ooRoot.dropWhile (· ≠ e)).tail
    else o.ooRoot.dropWhile (· ≠ e)

/-- Those it takes: it stops at one that is being written. -/
def truncTake (o : OscObject) (index : ℕ) : List ℕ :=
  (truncFrom o index).takeWhile fun e => !((o.ext e).oeState.busy || (o.ext e).oeUrgent)

/-- What it does to an extent it takes. -/
def truncMark (x : OscExtent) : OscExtent :=
  if x.oeState = .active then { x with oeTruncPending := true } else { x with oeState := .trunc }

/-- The extents it takes are marked. -/
def OscObject.markAll (o : OscObject) (taken : List ℕ) : OscObject :=
  { o with ext := fun a => if a ∈ taken then truncMark (o.ext a) else o.ext a }

open Function (update update_self update_of_ne)

section

variable [DecidableEq τ]

/-- Change a writer. -/
def OscState.setIo (s : OscState τ) (t : τ) (x : OscIo) : OscState τ :=
  { s with io := update s.io t x }

/-- When an operation can happen: what its callers see to. -/
def OscState.Enabled (P : OscConf) (s : OscState τ) : OscOp τ → Prop
  | .enterCache t _ _ _ => (s.io t).grants = 0 ∧ (s.io t).tmp = 0
  | .find t index maxPages _ => (s.io t).oiActive = none ∧ (s.io t).grants = P.need ∧
      (s.io t).tmp = P.need ∧ FindArgs P index maxPages
  | .exitCache t => (s.io t).oiActive = none ∧ (s.io t).grants = P.need
  | .expand t index _ => (s.io t).grants = P.need ∧ (s.io t).tmp = P.need ∧
      ∃ e ∈ (s.io t).oiActive, (s.obj.ext e).oeStart ≤ index ∧ index ≤ (s.obj.ext e).oeMaxEnd
  | .unreserve _ => True
  | .release t _ => (s.io t).oiActive ≠ none
  | .waitInv t e => (s.io t).oiActive = none ∧ e ∈ s.obj.ooRoot ∧ (s.obj.ext e).oeUrgent = false
  | .addPage t p => 0 < p.oapCount ∧ p.oapCount ≤ P.pageSize ∧
      ∃ e ∈ (s.io t).oiActive, (s.obj.ext e).oeStart ≤ p.index ∧ p.index ≤ (s.obj.ext e).oeEnd
  | .writeback e => e ∈ s.obj.ooRoot
  | .lock e => e ∈ s.obj.ooRoot ∧ (s.obj.ext e).oeState = .cache
  | .makeReady e count => e ∈ s.obj.ooRoot ∧ (s.obj.ext e).oeState = .locking ∧
      (s.obj.ext e).oePages ≠ [] ∧ ∀ p ∈ (s.obj.ext e).oePages, 0 < count p ∧ count p ≤ P.pageSize
  | .finish e sent rc _ => e ∈ s.obj.ooRoot ∧ ((s.obj.ext e).oeState = .rpc ∨
      (s.obj.ext e).oeState = .locking ∧ sent = false ∧ rc ≠ 0)
  | .truncStart _ _ => s.truncList = [] ∧ s.extp = none
  | .truncScan => s.truncList = [] ∧
      ∀ e ∈ truncFrom s.obj s.truncIndex, (s.obj.ext e).oeState ≠ .trunc
  | .truncate => ∃ e ∈ s.truncList.head?, (s.obj.ext e).oeState = .trunc ∧ 0 < (s.obj.ext e).oeGrants
  | .truncRemove => ∃ e ∈ s.truncList.head?, (s.obj.ext e).oeState = .trunc ∧
      (s.obj.ext e).oePages = [] ∧ (s.obj.ext e).oeGrants = 0
  | .truncEnd => s.truncList = [] ∧ s.extp ≠ none

instance {P : OscConf} {s : OscState τ} {op : OscOp τ} : Decidable (s.Enabled P op) := by
  cases op <;> dsimp only [OscState.Enabled] <;> infer_instance

/-- `osc_extent_wait` for an extent to be written: it is made urgent, and a cached one is held, to be
released again. -/
def oscExtentWaitInv (s : OscState τ) (t : τ) (e : ℕ) : Option (OscState τ) :=
  let x := { s.obj.ext e with oeUrgent := true }
  if x.oeState = .active then some { s with obj := s.obj.set e x }
  else if x.oeState = .cache then
    (oscExtentHold x).map fun y =>
      ({ s with obj := s.obj.set e y } : OscState τ).setIo t { s.io t with oiActive := some e }
  else some s

/-- `osc_extent_truncate`, and what `osc_cache_truncate_start` does next. -/
def oscTruncate (P : OscConf) (s : OscState τ) (e : ℕ) (l : List ℕ) : Option (OscState τ) :=
  let x := s.obj.ext e
  (oscExtentTruncate P x s.truncIndex s.truncTail).bind fun r =>
    let nrPages := x.oePages.length - r.1.oePages.length
    let s' : OscState τ := { s with
      obj := s.obj.set e r.1
      cli := if 0 < r.2 ∨ 0 < nrPages then oscFreeGrant P s.cli nrPages r.2 r.2 else s.cli }
    if r.1.oePages = [] then some s'
    else
      lassert (s.extp = none) <| some { s' with
        truncIndex := r.1.oeEnd + 1, truncTail := false, truncList := l, extp := some e }

def oscExtentFinish (P : OscConf) (s : OscState τ) (e : ℕ) (sent : Bool) (rc : ℤ) (blockBits : ℕ) :
    Option (OscState τ) :=
  let x := s.obj.ext e
  lassert (rc = 0 → x.oeState = .rpc) <|
    some { s with
      obj := s.obj.remove e
      cli := if 0 < x.oeGrants then
          oscFreeGrant P s.cli x.oePages.length (lostGrant P x sent blockBits) x.oeGrants
        else s.cli }

/-- The operations. -/
def OscState.run (P : OscConf) (s : OscState τ) : OscOp τ → Option (OscState τ)
  | .enterCache t covered clDirtyMaxPages obdMaxDirtyPages =>
    let bytes := if covered then 0 else P.need
    let r := oscEnterCacheTry s.cli bytes clDirtyMaxPages obdMaxDirtyPages
    if r.2 then some (({ s with cli := r.1 } : OscState τ).setIo t
      { s.io t with grants := bytes, tmp := bytes })
    else some { s with cli := r.1 }
  | .find t index maxPages maxExtentPages =>
    (oscExtentFind P s.obj index maxPages maxExtentPages (s.io t).tmp).map fun r =>
      match r.2.2 with
      | none => s
      | some e => ({ s with obj := r.1 } : OscState τ).setIo t
          { s.io t with oiActive := some e, tmp := r.2.1 }
  | .exitCache _ => some { s with cli := oscExitCache s.cli }
  | .expand t index maxExtentPages =>
    match (s.io t).oiActive with
    | none => none
    | some e =>
      (oscExtentExpand P s.obj e index maxExtentPages (s.io t).tmp).map fun r =>
        ({ s with obj := r.1 } : OscState τ).setIo t { s.io t with tmp := r.2.1 }
  | .unreserve t =>
    some (({ s with cli := oscUnreserveGrant s.cli (s.io t).grants (s.io t).tmp } : OscState τ).setIo t
      { s.io t with grants := 0, tmp := 0 })
  | .release t maxExtentPages =>
    match (s.io t).oiActive with
    | none => none
    | some e =>
      (oscExtentRelease P maxExtentPages s.obj e).map fun r =>
        ({ s with
          obj := r.1
          cli := if 0 < r.2 then oscUnreserveGrant s.cli 0 r.2 else s.cli } : OscState τ).setIo t
          { s.io t with oiActive := none }
  | .waitInv t e => oscExtentWaitInv s t e
  | .addPage t p =>
    match (s.io t).oiActive with
    | none => none
    | some e => some { s with
        obj := s.obj.set e { s.obj.ext e with oePages := (s.obj.ext e).oePages ++ [p] } }
  | .writeback e =>
    let x := s.obj.ext e
    some { s with
      obj := s.obj.set e { x with
        oeFsyncWait := true
        oeUrgent := x.oeUrgent || decide (x.oeState = .active) || decide (x.oeState = .cache) } }
  | .lock e => some { s with obj := s.obj.set e { s.obj.ext e with oeState := .locking } }
  | .makeReady e count =>
    let x := s.obj.ext e
    some { s with
      obj := s.obj.set e { x with
        oeState := .rpc, oePages := x.oePages.map fun p => { p with oapCount := count p } } }
  | .finish e sent rc blockBits => oscExtentFinish P s e sent rc blockBits
  | .truncStart index tail => some { s with truncIndex := index, truncTail := tail }
  | .truncScan =>
    let taken := truncTake s.obj s.truncIndex
    some { s with obj := s.obj.markAll taken, truncList := taken }
  | .truncate =>
    match s.truncList with
    | [] => none
    | e :: l => oscTruncate P s e l
  | .truncRemove =>
    match s.truncList with
    | [] => none
    | e :: l => some { s with obj := s.obj.remove e, truncList := l }
  | .truncEnd =>
    match s.extp with
    | none => none
    | some e =>
      let x := s.obj.ext e
      some { s with
        obj := s.obj.set e { x with
          oeState := .cache, oeUrgent := x.oeUrgent || x.oeFsyncWait }
        extp := none }

/-- One step: `none` when the operation cannot happen, or an assertion fails. -/
def oscStep (P : OscConf) (s : OscState τ) (op : OscOp τ) : Option (OscState τ) :=
  if s.Enabled P op then s.run P op else none

end

/-! ## Writers and their extents -/

/-- A writer has this extent active. -/
abbrev HasActive (e : ℕ) (x : OscIo) : Prop := x.oiActive = some e

section

variable [Fintype τ]

/-- Who has an extent active is counted as its user. -/
structure Writers (o : OscObject) (io : τ → OscIo) : Prop where
  /-- an extent that a writer has active is in the tree, and active -/
  active : ∀ t e, (io t).oiActive = some e → e ∈ o.ooRoot ∧ (o.ext e).oeState = .active
  users : ∀ e ∈ o.ooRoot, (o.ext e).oeUsers = (holders univ (HasActive e) io).card

variable {o o' : OscObject} {io : τ → OscIo} {e : ℕ} {t : τ} {P : OscConf}

open OscObject

namespace Writers

/-- What a writer has active stays so when an operation is for another extent. -/
theorem active_of_ne {a : ℕ} (h : Writers o io) (hframe : Frame o o' e)
    (ha : (io t).oiActive = some a) (hae : a ≠ e) :
    a ∈ o'.ooRoot ∧ (o'.ext a).oeState = .active := by
  obtain ⟨hmem, hstate⟩ := h.active t a ha
  have hmem' := hframe.mem hmem fun _ => by simp [hstate]
  refine ⟨hmem', ?_⟩
  rw [(hframe.same a hmem' hae).2]
  exact hstate

/-- The extent of an operation keeps its users, and is active if it has any. -/
theorem frame (h : Writers o io) (hframe : Frame o o' e)
    (hactive : ∀ t, (io t).oiActive = some e → e ∈ o'.ooRoot ∧ (o'.ext e).oeState = .active)
    (husers : e ∈ o'.ooRoot → e ∈ o.ooRoot ∧ (o'.ext e).oeUsers = (o.ext e).oeUsers) :
    Writers o' io := by
  refine ⟨?_, ?_⟩
  · intro t a ha
    by_cases hae : a = e
    · subst hae
      exact hactive t ha
    · exact h.active_of_ne hframe ha hae
  · intro a ha
    by_cases hae : a = e
    · subst hae
      rw [(husers ha).2]
      exact h.users a (husers ha).1
    · obtain ⟨hmem, heq⟩ := hframe.same a ha hae
      rw [heq]
      exact h.users a hmem

/-- A change of one extent that the writers do not see. -/
theorem set {x : OscExtent} (h : Writers o io) (he : e ∈ o.ooRoot)
    (hstate : (o.ext e).oeState = .active → x.oeState = .active)
    (husers : x.oeUsers = (o.ext e).oeUsers) : Writers (o.set e x) io := by
  refine h.frame .set ?_ ?_
  · intro t ht
    rw [ext_set_self]
    exact ⟨he, hstate (h.active t e ht).2⟩
  · intro _
    rw [ext_set_self]
    exact ⟨he, husers⟩

/-- An extent that no writer has active leaves the tree. -/
theorem remove (h : Writers o io) (hnodup : o.ooRoot.Nodup)
    (hstate : (o.ext e).oeState ≠ .active) : Writers (o.remove e) io := by
  refine ⟨?_, ?_⟩
  · intro t a ha
    obtain ⟨hmem, hact⟩ := h.active t a ha
    have hne : a ≠ e := by
      rintro rfl
      exact hstate hact
    rw [ext_remove_of_ne hne]
    exact ⟨hnodup.mem_erase_iff.mpr ⟨hne, hmem⟩, hact⟩
  · intro a ha
    obtain ⟨hne, hmem⟩ := hnodup.mem_erase_iff.mp ha
    rw [ext_remove_of_ne hne]
    exact h.users a hmem

variable [DecidableEq τ]

/-- A writer changes, but not its extent. -/
theorem setIo {x : OscIo} (h : Writers o io) (hx : x.oiActive = (io t).oiActive) :
    Writers o (update io t x) := by
  refine ⟨?_, ?_⟩
  · intro u e hu
    by_cases hut : u = t
    · subst hut
      rw [update_self, hx] at hu
      exact h.active u e hu
    · rw [update_of_ne hut] at hu
      exact h.active u e hu
  · intro e he
    rw [holders_update_iff (by rw [HasActive, HasActive, hx])]
    exact h.users e he

/-- A writer without an extent comes to hold one. -/
theorem hold {x : OscIo} (h : Writers o io) (hheld : ExtentHeld P o o' e)
    (hnone : (io t).oiActive = none) (hx : x.oiActive = some e) : Writers o' (update io t x) := by
  have hfree : t ∉ holders univ (HasActive e) io := by
    rw [mem_holders]
    rintro ⟨-, ht⟩
    rw [HasActive, hnone] at ht
    cases ht
  refine ⟨?_, ?_⟩
  · intro u a hu
    by_cases hae : a = e
    · subst hae
      exact ⟨hheld.mem, hheld.state⟩
    · have hut : u ≠ t := by
        rintro rfl
        rw [update_self, hx] at hu
        exact hae (Option.some.inj hu).symm
      rw [update_of_ne hut] at hu
      exact h.active_of_ne hheld.frame hu hae
  · intro a ha
    by_cases hae : a = e
    · subst hae
      have hxa : HasActive a x := hx
      rw [holders_update_pos (mem_univ t) hxa, card_insert_of_notMem hfree, hheld.users]
      congr 1
      split
      · next hmem => exact h.users a hmem
      · next hmem =>
        symm
        rw [card_eq_zero, eq_empty_iff_forall_notMem]
        intro u hu
        exact hmem (h.active u a (mem_holders.mp hu).2).1
    · obtain ⟨hmem, heq⟩ := hheld.frame.same a ha hae
      have hiff : HasActive a x ↔ HasActive a (io t) := by
        rw [HasActive, HasActive, hx, hnone, Option.some.injEq]
        exact ⟨fun heq => absurd heq.symm hae, fun hn => by cases hn⟩
      rw [heq, holders_update_iff hiff]
      exact h.users a hmem

theorem release {x : OscIo} {saved : ℕ} (h : Writers o io) (hrel : Released P o o' e saved)
    (hactive : (io t).oiActive = some e) (hx : x.oiActive = none) : Writers o' (update io t x) := by
  have hin : t ∈ holders univ (HasActive e) io := mem_holders.mpr ⟨mem_univ t, hactive⟩
  have hmem := (h.active t e hactive).1
  have hcard := h.users e hmem
  have hneg : ∀ a, ¬ HasActive a x := by
    intro a ha
    rw [HasActive, hx] at ha
    cases ha
  refine ⟨?_, ?_⟩
  · intro u a hu
    have hut : u ≠ t := by
      rintro rfl
      rw [update_self, hx] at hu
      cases hu
    rw [update_of_ne hut] at hu
    by_cases hae : a = e
    · subst hae
      refine ⟨hrel.mem, ?_⟩
      rcases hrel.state with hstate | hone
      · exact hstate.1
      · -- two writers, so it was not the last one
        have hsub : ({t, u} : Finset τ) ⊆ holders univ (HasActive a) io := by
          intro w hw
          rcases mem_insert.mp hw with rfl | hw
          · exact hin
          · rw [mem_singleton.mp hw]
            exact mem_holders.mpr ⟨mem_univ u, hu⟩
        have hle := card_le_card hsub
        rw [card_pair (Ne.symm hut), ← hcard, hone.1] at hle
        omega
    · exact h.active_of_ne hrel.frame hu hae
  · intro a ha
    by_cases hae : a = e
    · subst hae
      rw [holders_update_neg (hneg a), card_erase_of_mem hin, ← hcard, ← hrel.users]
      rfl
    · obtain ⟨hmem', heq⟩ := hrel.frame.same a ha hae
      have hiff : HasActive a x ↔ HasActive a (io t) := by
        refine ⟨fun hax => absurd hax (hneg a), fun hat => ?_⟩
        rw [HasActive, hactive] at hat
        exact absurd (Option.some.inj hat).symm hae
      rw [heq, holders_update_iff hiff]
      exact h.users a hmem'

end Writers

end

/-! ## The truncate that is going on -/

/-- What holds of the extents that are to be truncated, and of the one that was cut off. -/
structure Truncs (o : OscObject) (index : ℕ) (tail : Bool) (list : List ℕ) (extp : Option ℕ) :
    Prop where
  sub : list.Sublist o.ooRoot
  /-- each is being truncated, or will be, and reaches the new end -/
  marked : ∀ e ∈ list, ((o.ext e).oeState = .trunc ∨
    (o.ext e).oeState = .active ∧ (o.ext e).oeTruncPending = true) ∧ index ≤ (o.ext e).oeEnd
  /-- the one that was cut off has pages, and ends before the others begin -/
  kept : ∀ e, extp = some e → e ∈ o.ooRoot ∧ (o.ext e).oeState = .trunc ∧
    (o.ext e).oePages ≠ [] ∧ e ∉ list ∧ index = (o.ext e).oeEnd + 1 ∧ tail = false

namespace Truncs

open OscObject

variable {o o' : OscObject} {index : ℕ} {tail : Bool} {list : List ℕ} {extp : Option ℕ} {e : ℕ}

theorem idle : Truncs o index tail [] none := ⟨List.nil_sublist _, List.forall_mem_nil _, nofun⟩

section

variable (h : Truncs o index tail list extp)
include h

theorem frame (hframe : Frame o o' e) (hmarked : e ∈ list → ((o'.ext e).oeState = .trunc ∨
      (o'.ext e).oeState = .active ∧ (o'.ext e).oeTruncPending = true) ∧ index ≤ (o'.ext e).oeEnd)
    (hkept : extp = some e → e ∈ o'.ooRoot ∧ (o'.ext e).oeState = .trunc ∧
      (o'.ext e).oePages ≠ [] ∧ index = (o'.ext e).oeEnd + 1) : Truncs o' index tail list extp := by
  have hcache : ∀ a ∈ list, a ≠ e → (o.ext a).oeState ≠ .cache := by
    intro a ha _
    rcases (h.marked a ha).1 with hstate | hstate
    · simp [hstate]
    · simp [hstate.1]
  have hsub := hframe.keep list h.sub hcache
  refine ⟨hsub, ?_, ?_⟩
  · intro a ha
    by_cases hae : a = e
    · subst hae
      exact hmarked ha
    · rw [(hframe.same a (hsub.subset ha) hae).2]
      exact h.marked a ha
  · intro a ha
    obtain ⟨hmem, hstate, hpages, hnot, hidx, htail⟩ := h.kept a ha
    by_cases hae : a = e
    · subst hae
      obtain ⟨hmem', hstate', hpages', hidx'⟩ := hkept ha
      exact ⟨hmem', hstate', hpages', hnot, hidx', htail⟩
    · have hmem' := hframe.mem hmem fun _ => by simp [hstate]
      rw [(hframe.same a hmem' hae).2]
      exact ⟨hmem', hstate, hpages, hnot, hidx, htail⟩

/-- A change of an extent that a truncate does not see. -/
theorem set {x : OscExtent} (hstate : x.oeState = (o.ext e).oeState)
    (hpending : x.oeTruncPending = (o.ext e).oeTruncPending) (hend : x.oeEnd = (o.ext e).oeEnd)
    (hpages : (o.ext e).oePages ≠ [] → x.oePages ≠ []) :
    Truncs (o.set e x) index tail list extp := by
  refine h.frame .set ?_ ?_
  · intro he
    rw [ext_set_self, hstate, hpending, hend]
    exact h.marked e he
  · intro he
    obtain ⟨hmem, htrunc, hne, -, hidx, -⟩ := h.kept e he
    rw [ext_set_self, hstate, hend]
    exact ⟨hmem, htrunc, hpages hne, hidx⟩

theorem extp_ne (hstate : (o.ext e).oeState ≠ .trunc) : extp ≠ some e := by
  intro he
  exact hstate (h.kept e he).2.1

/-- An extent that is not being truncated is not among them. -/
theorem notMem (hstate : (o.ext e).oeState ≠ .trunc)
    (hactive : (o.ext e).oeState ≠ .active) : e ∉ list ∧ extp ≠ some e := by
  refine ⟨?_, ?_⟩
  · intro he
    rcases (h.marked e he).1 with htr | hact
    · exact hstate htr
    · exact hactive hact.1
  · exact h.extp_ne hstate

/-- A change of an extent that is not among them. -/
theorem set_of_notMem (x : OscExtent) (hstate : (o.ext e).oeState ≠ .trunc)
    (hactive : (o.ext e).oeState ≠ .active) : Truncs (o.set e x) index tail list extp := by
  obtain ⟨hlist, hextp⟩ := h.notMem hstate hactive
  exact h.frame .set (fun he => absurd he hlist) fun he => absurd he hextp

/-- An extent that is not among them leaves the tree. -/
theorem remove (hnodup : o.ooRoot.Nodup) (he : e ∉ list)
    (hkept : extp ≠ some e) : Truncs (o.remove e) index tail list extp := by
  refine ⟨?_, ?_, ?_⟩
  · have hsub := h.sub.erase e
    rwa [List.erase_of_not_mem he] at hsub
  · intro a ha
    have hae : a ≠ e := by
      rintro rfl
      exact he ha
    rw [ext_remove_of_ne hae]
    exact h.marked a ha
  · intro a ha
    have hae : a ≠ e := by
      rintro rfl
      exact hkept ha
    obtain ⟨hmem, hrest⟩ := h.kept a ha
    rw [ext_remove_of_ne hae]
    exact ⟨hnodup.mem_erase_iff.mpr ⟨hae, hmem⟩, hrest⟩

end

end Truncs

end Lustre
