import Lustre.Run
import Lustre.Word
import Mathlib.Data.List.Basic

/-!
# When OSP may send a change

A transaction on the MDT's storage logs its changes to OST objects. Every record takes the
id counter as it is (`osp_sync_add_rec`); a commit callback takes the next id
(`osp_sync_add_commit_cb`), and when it runs, every record of a smaller id is sent. What the
ids are for: a change is sent only once the transaction that logged it has committed.

`OspSync.Inv` says so of the ids: a record of a smaller id than a callback belongs to a
transaction that started no later than the callback's. `OspSync.Ok` is when a step keeps it.
It is not what the code sees to: a transaction may register a callback after a later one has
logged a record (`osp_sent_before_commit`), and records carry only 32 bits of the id.
-/

namespace Lustre

open List

/-! ## The device -/

/-- A record of the log. -/
structure OspRec where
  /-- the transaction that writes it -/
  tx : ℕ
  /-- `opd_sync_last_used_id` when it took its id -/
  usedId : ℕ
  deriving DecidableEq

/-- `lrh_id`: what the record carries of the id. -/
def OspRec.lrhId (r : OspRec) : ℕ := u32 r.usedId

/-- `struct osp_last_committed_cb` -/
structure OspCommitCb where
  /-- the transaction it is registered in -/
  tx : ℕ
  /-- `ospc_transno` -/
  transno : ℕ
  deriving DecidableEq

/-- An OSP device on a storage. Transactions are numbered in the order in which they are
started, which is also the order in which they commit. -/
structure OspSync where
  /-- `opd_sync_last_used_id` -/
  lastUsedId : ℕ
  /-- `opd_sync_last_committed_id` -/
  lastCommittedId : ℕ
  /-- `opd_sync_next_commit_cb` -/
  nextCommitCb : ℤ
  /-- the number of transactions started -/
  started : ℕ
  /-- the number of transactions committed -/
  committed : ℕ
  /-- the records that have taken their id and are not written yet -/
  taken : List OspRec
  records : List OspRec
  /-- the callbacks registered that have not run -/
  callbacks : List OspCommitCb
  deriving DecidableEq

/-- The other conditions `osp_sync_can_process_new` reads. -/
structure OspGate where
  /-- `opd_sync_barrier > 0` -/
  barrier : Bool
  /-- `osp_sync_in_flight_conflict` -/
  conflict : Bool
  /-- `osp_sync_rpcs_in_progress_low` -/
  inProgressLow : Bool
  /-- `osp_sync_rpcs_in_flight_low` -/
  inFlightLow : Bool
  /-- `opd_imp_connected` -/
  connected : Bool
  /-- `opd_sync_prev_done` -/
  prevDone : Bool
  /-- `opd_sync_changes` -/
  changes : ℕ

/-- `osp_sync_correct_id`: the record's 32 bits under the upper half of the last committed id,
or of the one before where that is needed. -/
def ospSyncCorrectId (lastCommittedId lrhId : ℕ) : ℕ :=
  let correctId :=
    if u32 lastCommittedId < lrhId then sub64 lastCommittedId (2 ^ 32) else lastCommittedId
  correctId / 2 ^ 32 * 2 ^ 32 + lrhId

variable (d : OspSync)

def ospSyncCanProcessNew (g : OspGate) (rec : Option OspRec) : Bool :=
  if g.barrier then false
  else if g.conflict then false
  else if !g.inProgressLow then false
  else if !g.inFlightLow then false
  else if !g.connected then false
  else if !g.prevDone then true
  else if g.changes = 0 then false
  else
    match rec with
    | none => true
    -- notice "<" not "<="
    | some rec => decide (ospSyncCorrectId d.lastCommittedId rec.lrhId < d.lastCommittedId)

/-- `osp_sync_add_rec` takes the id, under `opd_sync_lock`. -/
def ospSyncTakeId (tx : ℕ) : OspSync :=
  { d with taken := d.taken ++ [⟨tx, d.lastUsedId⟩] }

/-- `osp_sync_add_rec` writes a record that has its id; an error just causes no record. -/
def ospSyncLlogAdd (r : OspRec) (ok : Bool) : OspSync :=
  { d with taken := d.taken.erase r, records := if ok then d.records ++ [r] else d.records }

/-- `osp_sync_add_commit_cb`; `ok` is whether `dt_trans_cb_add` succeeds. -/
def ospSyncAddCommitCb (tx : ℕ) (ok : Bool) : OspSync :=
  let transno := u64 (d.lastUsedId + 1)
  { d with
    lastUsedId := transno
    callbacks := if ok then d.callbacks ++ [⟨tx, transno⟩] else d.callbacks }

/-- `osp_sync_add_commit_cb_1s`: a callback every second. -/
def ospSyncAddCommitCb1s (tx : ℕ) (now : ℤ) (ok : Bool) : OspSync :=
  if d.nextCommitCb < now then
    ospSyncAddCommitCb { d with nextCommitCb := now + 1000000000 } tx ok
  else d

def ospSyncLocalCommitCb (cb : OspCommitCb) : OspSync :=
  { d with
    lastCommittedId :=
      if d.lastCommittedId < cb.transno then cb.transno else d.lastCommittedId
    callbacks := d.callbacks.erase cb }

/-! ## Runs -/

/-- What happens to the device and its storage. -/
inductive OspOp where
  /-- a transaction is started -/
  | start
  /-- an open transaction takes the id of a record -/
  | takeId (tx : ℕ)
  /-- a record that has its id is written -/
  | llogAdd (r : OspRec) (ok : Bool)
  /-- an open transaction registers a callback -/
  | addCommitCb (tx : ℕ) (ok : Bool)
  /-- an open transaction registers a callback if it is time for one -/
  | addCommitCb1s (tx : ℕ) (now : ℤ) (ok : Bool)
  /-- the next transaction commits -/
  | commit
  /-- the callback of a committed transaction runs -/
  | runCb (cb : OspCommitCb)
  deriving DecidableEq

/-- A transaction is open: started and not committed. -/
def OspSync.Open (tx : ℕ) : Prop := d.committed ≤ tx ∧ tx < d.started
  deriving Decidable

/-- One step. A transaction commits when it is closed, so when all its records are written. -/
def ospSyncStep : OspOp → Option OspSync
  | .start => some { d with started := d.started + 1 }
  | .takeId tx => if d.Open tx then some (ospSyncTakeId d tx) else none
  | .llogAdd r ok => if r ∈ d.taken then some (ospSyncLlogAdd d r ok) else none
  | .addCommitCb tx ok => if d.Open tx then some (ospSyncAddCommitCb d tx ok) else none
  | .addCommitCb1s tx now ok =>
    if d.Open tx then some (ospSyncAddCommitCb1s d tx now ok) else none
  | .commit =>
    if d.committed < d.started ∧ ∀ r ∈ d.taken, r.tx ≠ d.committed then
      some { d with committed := d.committed + 1 }
    else none
  | .runCb cb =>
    if cb ∈ d.callbacks ∧ cb.tx < d.committed then some (ospSyncLocalCommitCb d cb) else none

/-- A device that has logged nothing yet, with any value of the counter. -/
def ospSyncStart (lastUsedId lastCommittedId : ℕ) (nextCommitCb : ℤ) : OspSync :=
  { lastUsedId, lastCommittedId, nextCommitCb, started := 0, committed := 0,
    taken := [], records := [], callbacks := [] }

/-! ## Nothing is sent before it is safe -/

/-- A callback may be registered in a transaction: no later one has taken an id, and the counter
does not wrap around. -/
def OspSync.CbOk (tx : ℕ) : Prop :=
  (∀ r ∈ d.taken ++ d.records, r.tx ≤ tx) ∧ d.lastUsedId + 1 < 2 ^ 64
  deriving Decidable

/-- When a step is safe: an id that a record takes fits into the record, and callbacks are
registered in the order of the transactions. -/
def OspSync.Ok : OspOp → Prop
  | .takeId _ => d.lastUsedId < 2 ^ 32
  | .addCommitCb tx _ => d.CbOk tx
  | .addCommitCb1s tx now _ => d.nextCommitCb < now → d.CbOk tx
  | _ => True

instance (op : OspOp) : Decidable (d.Ok op) := by
  cases op <;> dsimp only [OspSync.Ok] <;> infer_instance

/-- What the ids say about the transactions. -/
structure OspSync.Inv : Prop where
  used : d.lastCommittedId ≤ d.lastUsedId
  /-- a record's id has been used, and fits into the record -/
  ids : ∀ r ∈ d.taken ++ d.records, r.usedId ≤ d.lastUsedId ∧ r.usedId < 2 ^ 32
  cbs : ∀ cb ∈ d.callbacks, cb.transno ≤ d.lastUsedId
  /-- the records up to a callback belong to transactions up to the callback's -/
  behind : ∀ cb ∈ d.callbacks, ∀ r ∈ d.taken ++ d.records, r.usedId < cb.transno → r.tx ≤ cb.tx
  /-- the records up to the committed id belong to committed transactions -/
  done : ∀ r ∈ d.taken ++ d.records, r.usedId < d.lastCommittedId → r.tx < d.committed

variable {d d' : OspSync}

namespace OspSync.Inv

/-- A new record takes the greatest id used, so it is behind no callback. -/
theorem takeId (h : d.Inv) {tx : ℕ} (hid : d.lastUsedId < 2 ^ 32) : (ospSyncTakeId d tx).Inv := by
  have hmem : ∀ r ∈ (d.taken ++ [⟨tx, d.lastUsedId⟩]) ++ d.records,
      r ∈ d.taken ++ d.records ∨ r = ⟨tx, d.lastUsedId⟩ := by
    intro r hr
    simp only [mem_append, mem_singleton] at hr ⊢
    tauto
  refine ⟨h.used, ?_, h.cbs, ?_, ?_⟩
  · intro r hr
    rcases hmem r hr with hr | rfl
    · exact h.ids r hr
    · exact ⟨le_rfl, hid⟩
  · intro cb hcb r hr hlt
    rcases hmem r hr with hr | rfl
    · exact h.behind cb hcb r hr hlt
    · exact absurd (h.cbs cb hcb) (not_le.mpr hlt)
  · intro r hr hlt
    rcases hmem r hr with hr | rfl
    · exact h.done r hr hlt
    · exact absurd h.used (not_le.mpr hlt)

/-- Writing a record adds none that was not taken. -/
theorem llogAdd (h : d.Inv) {r : OspRec} (hr : r ∈ d.taken) (ok : Bool) :
    (ospSyncLlogAdd d r ok).Inv := by
  have hsub : ∀ q ∈ (ospSyncLlogAdd d r ok).taken ++ (ospSyncLlogAdd d r ok).records,
      q ∈ d.taken ++ d.records := by
    intro q hq
    rcases mem_append.mp hq with hq | hq
    · exact mem_append_left _ (mem_of_mem_erase hq)
    · cases ok with
      | false => exact mem_append_right _ hq
      | true =>
        rcases mem_append.mp hq with hq | hq
        · exact mem_append_right _ hq
        · rw [mem_singleton.mp hq]
          exact mem_append_left _ hr
  exact { h with
    ids := fun r hr => h.ids r (hsub r hr)
    behind := fun cb hcb r hr => h.behind cb hcb r (hsub r hr)
    done := fun r hr => h.done r (hsub r hr) }

/-- A callback in a transaction that no record is later than. -/
theorem addCommitCb (h : d.Inv) {tx : ℕ} (hok : d.CbOk tx) (ok : Bool) :
    (ospSyncAddCommitCb d tx ok).Inv := by
  have hnext : u64 (d.lastUsedId + 1) = d.lastUsedId + 1 := u64_of_lt hok.2
  have hmem : ∀ cb ∈ (ospSyncAddCommitCb d tx ok).callbacks,
      cb ∈ d.callbacks ∨ cb = ⟨tx, u64 (d.lastUsedId + 1)⟩ := by
    intro cb hcb
    cases ok with
    | false => exact .inl hcb
    | true =>
      exact (mem_append.mp hcb).imp_right mem_singleton.mp
  have hgrow : d.lastUsedId ≤ (ospSyncAddCommitCb d tx ok).lastUsedId := by
    show d.lastUsedId ≤ u64 (d.lastUsedId + 1)
    rw [hnext]
    exact Nat.le_succ _
  refine ⟨h.used.trans hgrow, ?_, ?_, ?_, h.done⟩
  · intro r hr
    exact ⟨le_trans (h.ids r hr).1 hgrow, (h.ids r hr).2⟩
  · intro cb hcb
    rcases hmem cb hcb with hcb | rfl
    · exact le_trans (h.cbs cb hcb) hgrow
    · exact le_rfl
  · intro cb hcb r hr hlt
    rcases hmem cb hcb with hcb | rfl
    · exact h.behind cb hcb r hr hlt
    · exact hok.1 r hr

/-- A callback of a committed transaction runs: all records behind it are committed. -/
theorem runCb (h : d.Inv) {cb : OspCommitCb} (hcb : cb ∈ d.callbacks)
    (htx : cb.tx < d.committed) : (ospSyncLocalCommitCb d cb).Inv := by
  have hrest : ∀ c ∈ d.callbacks.erase cb, c ∈ d.callbacks := fun _ hc => mem_of_mem_erase hc
  refine ⟨?_, h.ids, fun c hc => h.cbs c (hrest c hc), fun c hc => h.behind c (hrest c hc), ?_⟩
  · show (if d.lastCommittedId < cb.transno then cb.transno else d.lastCommittedId) ≤ _
    split
    · exact h.cbs cb hcb
    · exact h.used
  · intro r hr hlt
    simp only [ospSyncLocalCommitCb] at hlt hr ⊢
    split at hlt
    · exact lt_of_le_of_lt (h.behind cb hcb r hr hlt) htx
    · exact h.done r hr hlt

theorem step (h : d.Inv) {op : OspOp} (hok : d.Ok op)
    (hstep : ospSyncStep d op = some d') : d'.Inv := by
  cases op with
  | start =>
    cases hstep
    exact { h with }
  | takeId tx =>
    obtain ⟨-, rfl⟩ := of_guard hstep
    exact h.takeId hok
  | llogAdd r ok =>
    obtain ⟨hr, rfl⟩ := of_guard hstep
    exact h.llogAdd hr ok
  | addCommitCb tx ok =>
    obtain ⟨-, rfl⟩ := of_guard hstep
    exact h.addCommitCb hok ok
  | addCommitCb1s tx now ok =>
    obtain ⟨-, rfl⟩ := of_guard hstep
    rw [ospSyncAddCommitCb1s]
    split
    · next hnow =>
      have hclock : Inv { d with nextCommitCb := now + 1000000000 } := { h with }
      exact hclock.addCommitCb (hok hnow) ok
    · exact h
  | commit =>
    obtain ⟨-, rfl⟩ := of_guard hstep
    exact { h with done := fun r hr hlt => Nat.lt_succ_of_lt (h.done r hr hlt) }
  | runCb cb =>
    obtain ⟨⟨hcb, htx⟩, rfl⟩ := of_guard hstep
    exact h.runCb hcb htx

end OspSync.Inv

/-- In every run whose steps are safe, a record is accepted only if the transaction that wrote it
has committed. -/
theorem osp_sent_after_commit {lastUsedId lastCommittedId : ℕ} {nextCommitCb : ℤ}
    (hstart : lastCommittedId ≤ lastUsedId)
    (h : Reach ospSyncStep OspSync.Ok (ospSyncStart lastUsedId lastCommittedId nextCommitCb) d)
    (g : OspGate) (hprev : g.prevDone = true) (r : OspRec) (hr : r ∈ d.records)
    (hacc : ospSyncCanProcessNew d g (some r) = true) : r.tx < d.committed := by
  have hinit : (ospSyncStart lastUsedId lastCommittedId nextCommitCb).Inv :=
    ⟨hstart, forall_mem_nil _, forall_mem_nil _, forall_mem_nil _, forall_mem_nil _⟩
  have hinv := h.invariant OspSync.Inv hinit (fun _ _ _ hi hok hs => hi.step hok hs)
  have hmem : r ∈ d.taken ++ d.records := mem_append_right _ hr
  have hlt : ospSyncCorrectId d.lastCommittedId r.lrhId < d.lastCommittedId := by
    simp only [ospSyncCanProcessNew, hprev] at hacc
    repeat' split at hacc
    all_goals simp_all
  have hrec : r.lrhId = r.usedId := u32_of_lt (hinv.ids r hmem).2
  have hle : r.lrhId ≤ ospSyncCorrectId d.lastCommittedId r.lrhId := Nat.le_add_left _ _
  rw [hrec] at hle hlt
  exact hinv.done r hmem (hle.trans_lt hlt)

/-- All other conditions for sending are met. -/
def ospGateOpen : OspGate :=
  { barrier := false, conflict := false, inProgressLow := true, inFlightLow := true,
    connected := true, prevDone := true, changes := 2 }

/-- A record is logged with the id 7, the callback takes the id 8, the transaction commits and
its callback runs: the record is accepted. -/
theorem osp_sent_after_commit_once : ∃ d : OspSync,
    Reach ospSyncStep OspSync.Ok (ospSyncStart 7 7 0) d ∧ d.records = [⟨0, 7⟩] ∧
      ospSyncCanProcessNew d ospGateOpen (some ⟨0, 7⟩) = true ∧ 0 < d.committed := by
  obtain ⟨d, hreach, hrec, hacc⟩ : ∃ d, Reach ospSyncStep OspSync.Ok (ospSyncStart 7 7 0) d ∧
      d.records = [⟨0, 7⟩] ∧ ospSyncCanProcessNew d ospGateOpen (some ⟨0, 7⟩) = true := exists_reach
    [.start, .takeId 0, .llogAdd ⟨0, 7⟩ true, .addCommitCb1s 0 1 true, .commit, .runCb ⟨0, 8⟩]
    (by decide +kernel)
  refine ⟨d, hreach, hrec, hacc, ?_⟩
  exact osp_sent_after_commit (le_refl 7) hreach ospGateOpen rfl ⟨0, 7⟩
    (hrec ▸ mem_singleton.mpr rfl) hacc

/-- Transaction 1, started after transaction 0, logs a record; its callback is not due. Then
transaction 0 logs one and registers a callback, commits, and the callback runs: the record of
transaction 1, which has not committed, is accepted. -/
theorem osp_sent_before_commit : ∃ (d : OspSync) (r : OspRec),
    Reach ospSyncStep (fun _ _ => True) (ospSyncStart 0 0 10) d ∧ r ∈ d.records ∧
      ospGateOpen.prevDone = true ∧ ospSyncCanProcessNew d ospGateOpen (some r) = true ∧
      ¬ r.tx < d.committed := by
  obtain ⟨d, hreach, hd⟩ : ∃ d, Reach ospSyncStep (fun _ _ => True) (ospSyncStart 0 0 10) d ∧
      ⟨1, 0⟩ ∈ d.records ∧ ospGateOpen.prevDone = true ∧
      ospSyncCanProcessNew d ospGateOpen (some ⟨1, 0⟩) = true ∧ ¬ 1 < d.committed :=
    exists_reach [.start, .start, .takeId 1, .llogAdd ⟨1, 0⟩ true, .addCommitCb1s 1 9 true, .takeId 0,
      .llogAdd ⟨0, 0⟩ true, .addCommitCb1s 0 11 true, .commit, .runCb ⟨0, 1⟩] (by decide +kernel)
  exact ⟨d, ⟨1, 0⟩, hreach, hd⟩

end Lustre
