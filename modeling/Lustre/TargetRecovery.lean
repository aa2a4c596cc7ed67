import Lustre.Run
import Lustre.Semaphore

/-!
# Replay of requests on a server

After a restart the clients replay their requests, each one at a time, and the server executes them
in the order of their transaction numbers. A service thread that gets a request decides in one
critical section whether it goes to the queue, notes it on the list of the client, and puts it into
the queue in a later section. The recovery thread waits until the first request of the queue has
the number it expects, or until every client that still replays has one in the queue; then it
may go past a gap.

The sections are the steps here, of any number of threads and clients. `TargetRecovery.Inv` is the
argument why the order is right: a request that is not answered yet keeps its client from sending
another one, so each client that still replays has at most one in the queue, and the queue is as
long as there are such clients only if nothing is on its way into it. A copy of a request that was
sent again may come into the queue when the request has been executed already
(`replay_resend_fails`), so that this does not happen is a condition (`ReplayOk`).
-/

namespace Lustre

/-! ## The target -/

/-- A request to be replayed. -/
structure ReplayReq where
  /-- the client (`rq_export`) -/
  client : ℕ
  /-- the transaction number -/
  transno : ℕ
  deriving DecidableEq

/-- A client and its export. -/
structure ReplayClient where
  /-- the request that the client has sent and that is not answered -/
  outstanding : Option ℕ
  /-- the last transaction number that it has sent -/
  last : ℕ
  /-- `exp_req_replay_needed` -/
  needed : Bool
  /-- it is counted in `obd_req_replay_clients` -/
  counted : Bool
  deriving DecidableEq

/-- Where the recovery thread is in `replay_request_or_update`. -/
inductive RecoveryPc where
  /-- in `target_recovery_overseer` -/
  | waiting
  /-- `check_for_next_transno` has found something to do -/
  | woken
  /-- it executes a request -/
  | handling (req : ReplayReq)
  /-- the request has been answered -/
  | replied (req : ReplayReq)
  /-- `obd_next_recovery_transno` has been increased -/
  | advanced (req : ReplayReq)
  /-- nothing is left -/
  | finished
  deriving DecidableEq

/-- The request that the recovery thread has taken off the queue. -/
def RecoveryPc.current : RecoveryPc → List ReplayReq
  | .waiting | .woken | .finished => []
  | .handling req | .replied req | .advanced req => [req]

/-- `struct obd_device`, as far as replay is concerned, with the clients and the threads. -/
structure TargetRecovery where
  /-- how many clients there are -/
  clients : ℕ
  client : ℕ → ReplayClient
  /-- all requests that were ever sent -/
  sent : List ReplayReq
  /-- service threads that execute a request at once -/
  immediate : List ReplayReq
  /-- service threads that have decided to queue a request -/
  passed : List ReplayReq
  /-- service threads that have noted it on the list of the client -/
  enqueued : List ReplayReq
  /-- `exp_req_replay_queue` of each client: the transaction numbers -/
  expQueue : ℕ → List ℕ
  /-- `obd_req_replay_queue` -/
  queue : List ReplayReq
  /-- `obd_requests_queued_for_recovery` -/
  queuedLen : ℕ
  /-- `obd_req_replay_clients` -/
  replayClients : ℕ
  /-- `obd_next_recovery_transno` -/
  nextTransno : ℕ
  /-- the recovery thread -/
  pc : RecoveryPc
  /-- the requests handed to `handle_recovery_req`, in that order -/
  handed : List ReplayReq
  /-- all requests that were ever put into the queue -/
  inserted : List ReplayReq

open Function (forall_update_iff update update_self update_of_ne)

variable (s : TargetRecovery) (req : ReplayReq)

/-- The state with another client. -/
def TargetRecovery.setClient (c : ℕ) (cl : ReplayClient) : TargetRecovery :=
  { s with client := update s.client c cl }

/-- The client gets an answer, if it still waits for that one and the answer is not lost. -/
def TargetRecovery.answered (lost : Bool) : TargetRecovery :=
  if (s.client req.client).outstanding = some req.transno ∧ lost = false then
    s.setClient req.client { s.client req.client with outstanding := none }
  else s

/-! ## Service threads -/

/-- The first section of `target_queue_recovery_request`. -/
def targetCheckTransno : TargetRecovery :=
  if req.transno < s.nextTransno then { s with immediate := req :: s.immediate }
  else { s with passed := req :: s.passed }

/-- `target_exp_enqueue_req_replay`, with the assertion before it. -/
def targetExpEnqueue : Option TargetRecovery :=
  if (s.client req.client).needed then
    let s := { s with passed := s.passed.erase req }
    -- dropping resent queued req
    if req.transno ∈ s.expQueue req.client then some s
    else some { s with
        expQueue := update s.expQueue req.client (s.expQueue req.client ++ [req.transno])
        enqueued := req :: s.enqueued }
  else none

/-- The loop over `obd_req_replay_queue`; `none` if the number is claimed by another client. -/
def replayInsert (req : ReplayReq) : List ReplayReq → Option (List ReplayReq)
  | [] => some [req]
  | q :: rest =>
    if req.transno < q.transno then some (req :: q :: rest)
    else if q.transno = req.transno then none
    else (replayInsert req rest).map (q :: ·)

/-- A request goes off the list of its client (`target_exp_dequeue_req_replay`). -/
def targetExpDequeue : TargetRecovery :=
  { s with
    expQueue := update s.expQueue req.client ((s.expQueue req.client).erase req.transno) }

/-- The last section of `target_queue_recovery_request`. -/
def targetInsert : TargetRecovery :=
  let s := { s with enqueued := s.enqueued.erase req }
  match replayInsert req s.queue with
  | none => targetExpDequeue s req
  | some queue =>
    { s with queue, queuedLen := s.queuedLen + 1, inserted := s.inserted ++ [req] }

/-! ## The recovery thread -/

def getNextReplayReqTransno : List ReplayReq → ℕ
  | [] => 0
  | req :: _ => req.transno

/-- `check_for_next_transno`, without updates, abort and timeout; `none` if the assertion on a gap
fails. -/
def checkForNextTransno : Option TargetRecovery :=
  let reqTransno := getNextReplayReqTransno s.queue
  if reqTransno = s.nextTransno then some { s with pc := .woken }
  else if 0 < s.queuedLen ∧ s.queuedLen = s.replayClients then
    -- handle gaps occured due to lost reply or VBR
    if s.nextTransno ≤ reqTransno then some { s with nextTransno := reqTransno, pc := .woken }
    else none
  else if s.replayClients = 0 then some { s with pc := .woken }
  else some s

/-- The recovery thread takes the first request, or is finished. -/
def replayTake : Option TargetRecovery :=
  match s.queue with
  | [] => if s.replayClients = 0 then some { s with pc := .finished } else none
  | req :: rest =>
    if req.transno ≠ 0 then
      some { s with queue := rest, queuedLen := s.queuedLen - 1, pc := .handling req,
                    handed := s.handed ++ [req] }
    else none

/-! ## Runs -/

/-- The steps of the clients, the service threads and the recovery thread. -/
inductive RecoveryOp where
  /-- a client sends its next request -/
  | send (req : ReplayReq)
  /-- a request or a copy of it arrives -/
  | check (req : ReplayReq)
  /-- a service thread has executed a request -/
  | answer (req : ReplayReq) (lost : Bool)
  /-- a service thread notes a request on the list of the client -/
  | enqueue (req : ReplayReq)
  /-- and puts it into the queue -/
  | insert (req : ReplayReq)
  /-- a client has replayed its requests: the flag -/
  | replayDone (c : ℕ)
  /-- and the counter -/
  | countDown (c : ℕ)
  /-- the recovery thread looks for something to do -/
  | wake
  /-- takes a request off the queue -/
  | take
  | reply (req : ReplayReq) (lost : Bool)
  /-- increases `obd_next_recovery_transno` -/
  | advance (req : ReplayReq)
  /-- and takes the request off the list of the client -/
  | dequeue (req : ReplayReq)
  deriving DecidableEq

/-- One step; `none` if an assertion fails. -/
def recoveryStep : RecoveryOp → Option TargetRecovery
  | .send req =>
    some { s.setClient req.client { s.client req.client with
        outstanding := some req.transno, last := req.transno } with sent := req :: s.sent }
  | .check req => some (targetCheckTransno s req)
  | .answer req lost => some ({ s with immediate := s.immediate.erase req }.answered req lost)
  | .enqueue req => targetExpEnqueue s req
  | .insert req => some (targetInsert s req)
  | .replayDone c => some (s.setClient c { s.client c with needed := false })
  | .countDown c =>
    if 0 < s.replayClients then
      some { s.setClient c { s.client c with counted := false } with
        replayClients := s.replayClients - 1 }
    else none
  | .wake => checkForNextTransno s
  | .take => replayTake s
  | .reply req lost => some ({ s with pc := .replied req }.answered req lost)
  | .advance req => some { s with nextTransno := s.nextTransno + 1, pc := .advanced req }
  | .dequeue req => some { targetExpDequeue s req with pc := .waiting }

/-- Who may do a step: a client sends a request when the one before is answered, with a greater
transaction number, and says that it is done when all are answered; the request of a service thread
or of the recovery thread is where the step starts. Copies of a request arrive at any time. -/
def RecoveryEnabled : RecoveryOp → Prop
  | .send req => req.client < s.clients ∧ (s.client req.client).outstanding = none ∧
      (s.client req.client).last < req.transno ∧ (s.client req.client).needed = true
  | .check req => req ∈ s.sent
  | .answer req _ => req ∈ s.immediate
  | .enqueue req => req ∈ s.passed
  | .insert req => req ∈ s.enqueued
  | .replayDone c => c < s.clients ∧ (s.client c).outstanding = none
  | .countDown c => c < s.clients ∧ (s.client c).needed = false ∧ (s.client c).counted = true
  | .wake => s.pc = .waiting
  | .take => s.pc = .woken
  | .reply req _ => s.pc = .handling req
  | .advance req => s.pc = .replied req
  | .dequeue req => s.pc = .advanced req

instance (op : RecoveryOp) : Decidable (RecoveryEnabled s op) := by
  cases op <;> dsimp only [RecoveryEnabled] <;> infer_instance

/-- Two clients do not use the same transaction number, and when a service thread notes a request
on the list of its client, what it has decided before still holds. -/
def ReplayOk (op : RecoveryOp) : Prop :=
  RecoveryEnabled s op ∧ match op with
    | .send req => ∀ r ∈ s.sent, r.client ≠ req.client → r.transno ≠ req.transno
    | .enqueue req => s.nextTransno ≤ req.transno
    | _ => True

instance (op : RecoveryOp) : Decidable (ReplayOk s op) := by
  cases op <;> dsimp only [ReplayOk] <;> infer_instance

/-- The start of recovery: all clients replay, and nothing has been sent. -/
structure TargetRecovery.New : Prop where
  client : ∀ c, (s.client c).outstanding = none ∧ (s.client c).needed = true ∧
    (s.client c).counted = true
  sent : s.sent = []
  immediate : s.immediate = []
  passed : s.passed = []
  enqueued : s.enqueued = []
  expQueue : ∀ c, s.expQueue c = []
  queue : s.queue = []
  queuedLen : s.queuedLen = 0
  replayClients : s.replayClients = s.clients
  nextTransno : 0 < s.nextTransno
  pc : s.pc = .waiting
  handed : s.handed = []
  inserted : s.inserted = []

/-! ## Why the order is right -/

/-- Order by transaction number. -/
def ReplayLt (a b : ReplayReq) : Prop := a.transno < b.transno

/-- The requests that are on the list of their client. -/
def TargetRecovery.owned : List ReplayReq :=
  s.enqueued ++ s.queue ++ s.pc.current

/-- What is known of the requests that were sent. -/
structure TargetRecovery.Sent : Prop where
  client : ∀ r ∈ s.sent, r.client < s.clients
  last : ∀ r ∈ s.sent, r.transno ≤ (s.client r.client).last
  apart : ∀ r ∈ s.sent, ∀ r' ∈ s.sent, r.transno = r'.transno → r = r'
  /-- the client waits for one, or it has been executed, or it is being executed -/
  answered : ∀ r ∈ s.sent, (s.client r.client).outstanding = some r.transno ∨
    r.transno < s.nextTransno ∨ s.pc = .replied r
  needed : ∀ c, (s.client c).outstanding ≠ none → (s.client c).needed = true
  immediate : ∀ r ∈ s.immediate, r ∈ s.sent ∧ r.transno < s.nextTransno
  passed : ∀ r ∈ s.passed, r ∈ s.sent
  owned : ∀ r ∈ s.owned, r ∈ s.sent

/-- The clients that are counted. -/
def TargetRecovery.counted : Finset ℕ :=
  holders (Finset.range s.clients) (fun cl => cl.counted = true) s.client

/-- What the recovery thread knows. -/
def TargetRecovery.PcOk : Prop :=
  match s.pc with
  | .waiting | .finished => True
  | .woken => (∃ r rest, s.queue = r :: rest ∧ r.transno = s.nextTransno) ∨ s.replayClients = 0
  | .handling req | .replied req => req.transno = s.nextTransno
  | .advanced req => req.transno < s.nextTransno

/-- What holds in every state. -/
structure TargetRecovery.Inv : Prop where
  sent : s.Sent
  /-- no request is on the list of its client twice -/
  nodup : s.owned.Nodup
  expNodup : ∀ c, (s.expQueue c).Nodup
  exp : ∀ r : ReplayReq, r.transno ∈ s.expQueue r.client ↔ r ∈ s.owned
  /-- its client waits for a request on the way into the queue, and it is not too late for it -/
  live : ∀ r ∈ s.enqueued ++ s.queue,
    (s.client r.client).outstanding = some r.transno ∧ s.nextTransno ≤ r.transno
  sorted : s.queue.Pairwise ReplayLt
  queuedLen : s.queuedLen = s.queue.length
  needed : ∀ c, (s.client c).needed = true → (s.client c).counted = true
  count : s.replayClients = s.counted.card
  pc : s.PcOk
  positive : 0 < s.nextTransno
  /-- what has been handed over is in order and comes before all that is expected -/
  handed : s.handed.Pairwise ReplayLt
  before : ∀ r ∈ s.handed, r.transno < s.nextTransno ∨ r ∈ s.pc.current
  inserted : s.inserted.Perm (s.handed ++ s.queue)

variable {s s' : TargetRecovery} {req r : ReplayReq} {c : ℕ} {lost : Bool}

open List

/-- What the recovery thread knows stays, if what it has seen before it takes a request does. -/
theorem TargetRecovery.PcOk.mono (h : s.PcOk) (hpc : s'.pc = s.pc)
    (hnext : s'.nextTransno = s.nextTransno) (hwoken : s.pc = .woken → s.PcOk → s'.PcOk) :
    s'.PcOk := by
  cases hs : s.pc with
  | woken => exact hwoken hs h
  | waiting | finished | handling req | replied req | advanced req =>
    rw [PcOk, hs] at h
    rw [PcOk, hpc, hs, hnext]
    exact h

theorem TargetRecovery.mem_owned_of_live (h : r ∈ s.enqueued ++ s.queue) : r ∈ s.owned :=
  mem_append_left _ h

namespace TargetRecovery.Inv

section

variable (h : s.Inv)
include h

/-- A request on the way into the queue keeps its client counted. -/
theorem live_counted (hr : r ∈ s.enqueued ++ s.queue) : r.client ∈ s.counted := by
  have hsent := h.sent.owned r (mem_owned_of_live hr)
  have hout : (s.client r.client).outstanding ≠ none := by
    rw [(h.live r hr).1]
    exact Option.some_ne_none _
  exact mem_holders.mpr ⟨Finset.mem_range.mpr (h.sent.client r hsent),
    h.needed _ (h.sent.needed _ hout)⟩

/-- Two such requests of one client are one. -/
theorem live_unique {r' : ReplayReq}
    (hr : r ∈ s.enqueued ++ s.queue) (hr' : r' ∈ s.enqueued ++ s.queue)
    (hclient : r.client = r'.client) : r = r' := by
  have hout := (h.live r hr).1
  rw [hclient, (h.live r' hr').1] at hout
  refine h.sent.apart r (h.sent.owned r (mem_owned_of_live hr)) r'
    (h.sent.owned r' (mem_owned_of_live hr')) ?_
  exact (Option.some.inj hout).symm

/-- The clients that have a request in the queue, each once. -/
theorem queue_clients : (s.queue.map ReplayReq.client).Nodup := by
  have hnodup : s.queue.Nodup :=
    (nodup_append.mp (nodup_append.mp h.nodup).1).2.1
  refine hnodup.map_on ?_
  intro r hr r' hr' hclient
  exact h.live_unique (mem_append_right _ hr) (mem_append_right _ hr') hclient

/-- The counting argument: the queue is as long as there are clients that are counted only if
nothing is on the way into it. -/
theorem enqueued_nil (hlen : s.queuedLen = s.replayClients) : s.enqueued = [] := by
  -- the clients of the queue are all that are counted
  have hsub : (s.queue.map ReplayReq.client).toFinset ⊆ s.counted := by
    intro c hc
    obtain ⟨r, hr, rfl⟩ := mem_map.mp (mem_toFinset.mp hc)
    exact h.live_counted (mem_append_right _ hr)
  have hcard : (s.queue.map ReplayReq.client).toFinset.card = s.counted.card := by
    rw [toFinset_card_of_nodup h.queue_clients, length_map, ← h.queuedLen, hlen, h.count]
  have heq : (s.queue.map ReplayReq.client).toFinset = s.counted :=
    Finset.eq_of_subset_of_card_le hsub hcard.symm.le
  cases hen : s.enqueued with
  | nil => rfl
  | cons r rest =>
    have hr : r ∈ s.enqueued := by
      rw [hen]
      exact mem_cons_self
    have hclient := h.live_counted (mem_append_left _ hr)
    rw [← heq] at hclient
    obtain ⟨q, hq, hqc⟩ := mem_map.mp (mem_toFinset.mp hclient)
    have hqr := h.live_unique (mem_append_right _ hq) (mem_append_left _ hr) hqc
    have hdisj := (nodup_append.mp (nodup_append.mp h.nodup).1).2.2
    exact absurd hqr.symm (hdisj r hr q hq)

/-- Nobody is counted: nothing is in the queue or on the way into it. -/
theorem nothing_live (hzero : s.replayClients = 0) : s.enqueued ++ s.queue = [] := by
  refine eq_nil_iff_forall_not_mem.mpr ?_
  intro r hr
  have hmem := h.live_counted hr
  rw [h.count, Finset.card_eq_zero] at hzero
  rw [hzero] at hmem
  exact Finset.notMem_empty _ hmem

/-! ### Clients -/

attribute [local simp] TargetRecovery.setClient

/-- One client changes, and with it perhaps the counter. -/
theorem setClient {cl : ReplayClient} {n : ℕ} (hlast : (s.client c).last ≤ cl.last)
    (hlive : ∀ r ∈ s.enqueued ++ s.queue, r.client = c → cl.outstanding = some r.transno)
    (hanswered : ∀ r ∈ s.sent, r.client = c → cl.outstanding = some r.transno ∨
      r.transno < s.nextTransno ∨ s.pc = .replied r)
    (hneeded : cl.outstanding ≠ none → cl.needed = true)
    (hcounted : cl.needed = true → cl.counted = true) (hcount : n = (s.setClient c cl).counted.card)
    (hzero : s.replayClients = 0 → n = 0) :
    TargetRecovery.Inv { s.setClient c cl with replayClients := n } := by
  refine { h with
    sent := { h.sent with last := ?_, answered := ?_, needed := ?_ }
    live := ?_, needed := ?_, count := hcount, pc := ?_ }
  · intro r hr
    have hle := h.sent.last r hr
    by_cases hc : r.client = c
    · rw [hc] at hle
      simpa [hc] using hle.trans hlast
    · simpa [hc] using hle
  · intro r hr
    by_cases hc : r.client = c
    · simpa [hc] using hanswered r hr hc
    · simpa [hc] using h.sent.answered r hr
  · exact (forall_update_iff _ fun _ (x : ReplayClient) => x.outstanding ≠ none →
      x.needed = true).mpr ⟨hneeded, fun c' _ => h.sent.needed c'⟩
  · intro r hr
    have hlive' := h.live r hr
    by_cases hc : r.client = c
    · simpa [hc] using ⟨hlive r hr hc, hlive'.2⟩
    · simpa [hc] using hlive'
  · exact (forall_update_iff _ fun _ (x : ReplayClient) => x.needed = true →
      x.counted = true).mpr ⟨hcounted, fun c' _ => h.needed c'⟩
  · refine h.pc.mono rfl rfl fun hs hpc => ?_
    rw [PcOk] at hpc ⊢
    simp only [TargetRecovery.setClient, hs] at hpc ⊢
    exact hpc.imp_right hzero

/-- The counter, when a client is counted as before. -/
theorem count_setClient {cl : ReplayClient} (hcl : cl.counted = (s.client c).counted) :
    s.replayClients = (s.setClient c cl).counted.card := by
  refine h.count.trans (congrArg Finset.card ?_)
  refine (holders_update_iff ?_).symm
  rw [hcl]

/-- A request of a client that does not wait is not on the way into the queue. -/
theorem not_live (hout : (s.client c).outstanding = none) :
    ∀ r ∈ s.enqueued ++ s.queue, r.client ≠ c := by
  rintro r hr rfl
  have hr' := (h.live r hr).1
  rw [hout] at hr'
  cases hr'

theorem addSent (hclient : req.client < s.clients)
    (hlast : req.transno ≤ (s.client req.client).last)
    (hout : (s.client req.client).outstanding = some req.transno)
    (hnew : ∀ r ∈ s.sent, r.transno ≠ req.transno) : Inv { s with sent := req :: s.sent } := by
  refine { h with sent := ⟨?_, ?_, ?_, ?_, h.sent.needed, ?_, ?_, ?_⟩ }
  · exact forall_mem_cons.mpr ⟨hclient, h.sent.client⟩
  · exact forall_mem_cons.mpr ⟨hlast, h.sent.last⟩
  · refine forall_mem_cons.mpr ⟨forall_mem_cons.mpr ⟨fun _ => rfl, ?_⟩, fun r hr => ?_⟩
    · exact fun r' hr' heq => absurd heq.symm (hnew r' hr')
    · exact forall_mem_cons.mpr ⟨fun heq => absurd heq (hnew r hr), h.sent.apart r hr⟩
  · exact forall_mem_cons.mpr ⟨.inl hout, h.sent.answered⟩
  · intro r hr
    exact ⟨mem_cons_of_mem _ (h.sent.immediate r hr).1, (h.sent.immediate r hr).2⟩
  · intro r hr
    exact mem_cons_of_mem _ (h.sent.passed r hr)
  · intro r hr
    exact mem_cons_of_mem _ (h.sent.owned r hr)

theorem send (hok : ReplayOk s (.send req)) :
    Inv { s.setClient req.client { s.client req.client with
      outstanding := some req.transno, last := req.transno } with sent := req :: s.sent } := by
  obtain ⟨⟨hclient, hout, hlast, hneeded⟩, hapart⟩ := hok
  have hset : (s.setClient req.client { s.client req.client with
      outstanding := some req.transno, last := req.transno }).Inv := by
    refine h.setClient hlast.le ?_ ?_ (fun _ => hneeded) (h.needed _)
      (h.count_setClient rfl) (fun hz => hz)
    · intro r hr hc
      exact absurd hc (h.not_live hout r hr)
    · intro r hr hc
      -- the client did not wait, so this one was answered
      refine .inr ((h.sent.answered r hr).resolve_left ?_)
      rw [hc, hout]
      exact fun heq => Option.some_ne_none _ heq.symm
  refine hset.addSent hclient ?_ ?_ ?_
  · simp
  · simp
  · intro r hr heq
    by_cases hc : r.client = req.client
    · have hle := h.sent.last r hr
      rw [hc, heq] at hle
      exact not_lt.mpr hle hlast
    · exact hapart r hr hc heq

/-- The client of a request that has been executed gets its answer. -/
theorem answered (hsent : req ∈ s.sent)
    (hdone : req.transno < s.nextTransno ∨ s.pc = .replied req) : (s.answered req lost).Inv := by
  rw [TargetRecovery.answered]
  split
  · next hout =>
    refine h.setClient le_rfl ?_ ?_ (fun hne => absurd rfl hne) (h.needed _)
      (h.count_setClient rfl) (fun hz => hz)
    · intro r hr hc
      obtain ⟨hr', hle⟩ := h.live r hr
      rw [hc, hout.1] at hr'
      have hreq : req = r := h.sent.apart req hsent r
        (h.sent.owned r (mem_owned_of_live hr)) (Option.some.inj hr')
      rcases hdone with hlt | hpc
      · rw [hreq] at hlt
        exact absurd hlt (not_lt.mpr hle)
      · -- it is not on the list of its client twice
        have hdisj := (nodup_append.mp h.nodup).2.2
        rw [hpc] at hdisj
        exact absurd hreq.symm (hdisj r hr req mem_cons_self)
    · intro r hr hc
      refine .inr ?_
      rcases h.sent.answered r hr with heq | hor
      · rw [hc, hout.1] at heq
        rw [← h.sent.apart req hsent r hr (Option.some.inj heq)]
        exact hdone
      · exact hor
  · exact h

theorem replayDone (hout : (s.client c).outstanding = none) :
    (s.setClient c { s.client c with needed := false }).Inv := by
  refine h.setClient le_rfl ?_ ?_ (fun hne => absurd hout hne) (fun hn => by cases hn)
    (h.count_setClient rfl) (fun hz => hz)
  · intro r hr hc
    exact absurd hc (h.not_live hout r hr)
  · intro r hr hc
    rw [← hc]
    exact h.sent.answered r hr

/-- A client that is done is not counted any longer. -/
theorem countDown (hc : c < s.clients)
    (hneeded : (s.client c).needed = false) (hcounted : (s.client c).counted = true) :
    Inv { s.setClient c { s.client c with counted := false } with
      replayClients := s.replayClients - 1 } := by
  have hmem : c ∈ s.counted := mem_holders.mpr ⟨Finset.mem_range.mpr hc, hcounted⟩
  have herase : (s.setClient c { s.client c with counted := false }).counted = s.counted.erase c :=
    holders_update_neg Bool.false_ne_true
  refine h.setClient le_rfl ?_ ?_ (h.sent.needed c) ?_ ?_ ?_
  · rintro r hr rfl
    exact (h.live r hr).1
  · rintro r hr rfl
    exact h.sent.answered r hr
  · intro hn
    exact absurd (hneeded.symm.trans hn) Bool.false_ne_true
  · rw [herase, Finset.card_erase_of_mem hmem, h.count]
  · intro hz
    rw [hz]

/-! ### Service threads -/

theorem check (hsent : req ∈ s.sent) : (targetCheckTransno s req).Inv := by
  rw [targetCheckTransno]
  split
  · next hlt =>
    exact { h with sent := { h.sent with
      immediate := forall_mem_cons.mpr ⟨⟨hsent, hlt⟩, h.sent.immediate⟩ } }
  · exact { h with sent := { h.sent with
      passed := forall_mem_cons.mpr ⟨hsent, h.sent.passed⟩ } }

theorem answer (hmem : req ∈ s.immediate) :
    ({ s with immediate := s.immediate.erase req }.answered req lost).Inv := by
  obtain ⟨hsent, hlt⟩ := h.sent.immediate req hmem
  have hset : Inv { s with immediate := s.immediate.erase req } :=
    { h with sent := { h.sent with
        immediate := fun r hr => h.sent.immediate r (mem_of_mem_erase hr) } }
  exact hset.answered hsent (.inl hlt)

theorem dropPassed : Inv { s with passed := s.passed.erase req } :=
  { h with sent := { h.sent with
      passed := fun r hr => h.sent.passed r (mem_of_mem_erase hr) } }

/-- A request gets on the list of its client, if it is not there. -/
theorem addEnqueued (hsent : req ∈ s.sent)
    (hnext : s.nextTransno ≤ req.transno) (hnot : req.transno ∉ s.expQueue req.client) :
    Inv { s with
      expQueue := update s.expQueue req.client (s.expQueue req.client ++ [req.transno])
      enqueued := req :: s.enqueued } := by
  have howned : req ∉ s.owned := fun hmem => hnot ((h.exp req).mpr hmem)
  have hout : (s.client req.client).outstanding = some req.transno := by
    rcases h.sent.answered req hsent with hout | hlt | hpc
    · exact hout
    · exact absurd hlt (not_lt.mpr hnext)
    · -- a request that is being executed is on the list
      refine absurd (mem_append_right _ ?_) howned
      rw [hpc]
      exact mem_cons_self
  refine { h with
    sent := { h.sent with owned := forall_mem_cons.mpr ⟨hsent, h.sent.owned⟩ }
    nodup := nodup_cons.mpr ⟨howned, h.nodup⟩, expNodup := ?_, exp := ?_
    live := forall_mem_cons.mpr ⟨⟨hout, hnext⟩, h.live⟩ }
  · refine (forall_update_iff _ fun _ => Nodup).mpr ⟨?_, fun c _ => h.expNodup c⟩
    refine nodup_append.mpr ⟨h.expNodup _, nodup_singleton _, ?_⟩
    intro a ha b hb hab
    rw [mem_singleton] at hb
    exact hnot (hb ▸ hab ▸ ha)
  · intro r
    have howned' : owned { s with
        expQueue := update s.expQueue req.client (s.expQueue req.client ++ [req.transno])
        enqueued := req :: s.enqueued } = req :: s.owned := rfl
    rw [howned', mem_cons, ← h.exp r]
    by_cases hc : r.client = req.client
    · simp only [hc, update_self, mem_append, mem_singleton]
      rw [or_comm]
      refine or_congr_left ?_
      constructor
      · cases r
        cases req
        simp_all
      · rintro rfl
        rfl
    · simp only [update_of_ne hc]
      refine ⟨.inr, fun hor => hor.resolve_left ?_⟩
      rintro rfl
      exact hc rfl

theorem enqueue (hmem : req ∈ s.passed)
    (hnext : s.nextTransno ≤ req.transno) (hstep : targetExpEnqueue s req = some s') : s'.Inv := by
  rw [targetExpEnqueue] at hstep
  split at hstep
  · dsimp only at hstep
    split at hstep
    · cases hstep
      exact h.dropPassed
    · next hnot =>
      cases hstep
      exact h.dropPassed.addEnqueued (h.sent.passed req hmem) hnext hnot
  · cases hstep

end

end TargetRecovery.Inv

/-- What the insertion does, when no request has the number. -/
theorem replayInsert_spec {l : List ReplayReq} (h : ∀ q ∈ l, q.transno ≠ req.transno) :
    ∃ l', replayInsert req l = some l' ∧ l'.Perm (req :: l) ∧
      (l.Pairwise ReplayLt → l'.Pairwise ReplayLt) := by
  induction l with
  | nil => exact ⟨_, rfl, .refl _, fun _ => pairwise_singleton _ _⟩
  | cons q rest ih =>
    obtain ⟨hq, hrest⟩ := forall_mem_cons.mp h
    rw [replayInsert]
    split
    · next hlt =>
      refine ⟨_, rfl, .refl _, fun hs => pairwise_cons.mpr
        ⟨forall_mem_cons.mpr ⟨hlt, fun a ha => ?_⟩, hs⟩⟩
      exact hlt.trans ((pairwise_cons.mp hs).1 a ha)
    · next hlt =>
      obtain ⟨t, ht, hperm, hsorted⟩ := ih hrest
      rw [ht]
      refine ⟨_, rfl, (hperm.cons q).trans (.swap _ _ _), fun hs => pairwise_cons.mpr ⟨?_, ?_⟩⟩
      · intro a ha
        rcases mem_cons.mp (hperm.mem_iff.mp ha) with rfl | ha
        · exact lt_of_le_of_ne (not_lt.mp hlt) hq
        · exact (pairwise_cons.mp hs).1 a ha
      · exact hsorted (pairwise_cons.mp hs).2

namespace TargetRecovery.Inv

section

variable (h : s.Inv)
include h

theorem insert (hmem : req ∈ s.enqueued) : (targetInsert s req).Inv := by
  have hlive := h.live req (mem_append_left _ hmem)
  have hqueue : ∀ q ∈ s.queue, q.transno ≠ req.transno := by
    intro q hq heq
    have hqsent := h.sent.owned q (mem_owned_of_live (mem_append_right _ hq))
    have hrsent := h.sent.owned req (mem_owned_of_live (mem_append_left _ hmem))
    have hdisj := (nodup_append.mp (nodup_append.mp h.nodup).1).2.2
    exact hdisj req hmem q hq (h.sent.apart q hqsent req hrsent heq).symm
  obtain ⟨queue, hins, hperm, hsorted⟩ := replayInsert_spec hqueue
  rw [targetInsert, hins]
  have hlives : (s.enqueued.erase req ++ queue).Perm (s.enqueued ++ s.queue) :=
    (hperm.append_left _).trans (perm_middle.trans ((perm_cons_erase hmem).symm.append_right _))
  have howned := hlives.append_right s.pc.current
  refine { h with sent := { h.sent with owned := ?_ }, nodup := ?_, exp := ?_, live := ?_
                  sorted := hsorted h.sorted, queuedLen := ?_, pc := ?_, inserted := ?_ }
  · intro r hr
    exact h.sent.owned r (howned.mem_iff.mp hr)
  · exact howned.nodup_iff.mpr h.nodup
  · intro r
    exact (h.exp r).trans howned.mem_iff.symm
  · intro r hr
    exact h.live r (hlives.mem_iff.mp hr)
  · rw [hperm.length_eq, length_cons, h.queuedLen]
  · refine h.pc.mono rfl rfl fun hs hpc => ?_
    rw [PcOk] at hpc ⊢
    simp only [hs] at hpc ⊢
    rcases hpc with ⟨q, rest, hq, hqnext⟩ | hzero
    · -- it comes behind the request that the recovery thread has seen
      have hne := hqueue q (by rw [hq]; exact mem_cons_self)
      have hlt : q.transno < req.transno := lt_of_le_of_ne (hqnext ▸ hlive.2) hne
      rw [hq, replayInsert, if_neg (not_lt.mpr hlt.le), if_neg hlt.ne] at hins
      obtain ⟨rest', -, rfl⟩ := Option.map_eq_some_iff.mp hins
      exact .inl ⟨q, rest', rfl, hqnext⟩
    · exact .inr hzero
  · exact (h.inserted.append_right _).trans (by
      rw [append_assoc]
      exact ((perm_append_singleton req s.queue).trans hperm.symm).append_left _)

/-! ### The recovery thread -/

/-- A request is executed or the client waits for it, while none is being answered. -/
theorem answered_or (hpc : ∀ r, s.pc ≠ .replied r) (hr : r ∈ s.sent) :
    (s.client r.client).outstanding = some r.transno ∨ r.transno < s.nextTransno :=
  (h.sent.answered r hr).imp_right fun hor => hor.resolve_right (hpc r)

/-- The recovery thread moves on to `pc` and expects `n`, with the same request in hand. -/
theorem moved {pc : RecoveryPc} {n : ℕ} (hcurrent : pc.current = s.pc.current)
    (hle : s.nextTransno ≤ n) (hreplied : ∀ r, s.pc = .replied r → r.transno < n)
    (hlive : ∀ r ∈ s.enqueued ++ s.queue, n ≤ r.transno)
    (hpc : PcOk { s with nextTransno := n, pc }) : Inv { s with nextTransno := n, pc } := by
  have howned : owned { s with nextTransno := n, pc } = s.owned := by rw [owned, owned, hcurrent]
  refine { h with
    sent := { h.sent with answered := ?_, immediate := ?_, owned := howned ▸ h.sent.owned }
    nodup := howned ▸ h.nodup, exp := howned ▸ h.exp, live := ?_, pc := hpc
    positive := h.positive.trans_le hle, before := ?_ }
  · intro r hr
    rcases h.sent.answered r hr with hout | hlt | hpc
    · exact .inl hout
    · exact .inr (.inl (hlt.trans_le hle))
    · exact .inr (.inl (hreplied r hpc))
  · intro r hr
    obtain ⟨hsent, hlt⟩ := h.sent.immediate r hr
    exact ⟨hsent, hlt.trans_le hle⟩
  · intro r hr
    exact ⟨(h.live r hr).1, hlive r hr⟩
  · intro r hr
    rw [hcurrent]
    exact (h.before r hr).imp_left fun hlt => hlt.trans_le hle

theorem le_live (hr : r ∈ s.enqueued ++ s.queue) : s.nextTransno ≤ r.transno := (h.live r hr).2

/-- The recovery thread has found something to do, and perhaps goes past a gap. -/
theorem woken (hpc : s.pc = .waiting) {n : ℕ}
    (hle : s.nextTransno ≤ n) (hlive : ∀ r ∈ s.enqueued ++ s.queue, n ≤ r.transno)
    (hwoken : (∃ r rest, s.queue = r :: rest ∧ r.transno = n) ∨ s.replayClients = 0) :
    Inv { s with nextTransno := n, pc := .woken } :=
  h.moved (by rw [hpc]; rfl) hle (by simp [hpc]) hlive hwoken

/-- The assertion on a gap does not fail. -/
theorem wake (hpc : s.pc = .waiting) : ∃ s', checkForNextTransno s = some s' ∧ s'.Inv := by
  have hlive := fun r hr => (h.live r hr).2
  cases hqueue : s.queue with
  | nil =>
    have hreq : getNextReplayReqTransno s.queue = 0 := by
      rw [hqueue]
      rfl
    have hlen : ¬ (0 < s.queuedLen ∧ s.queuedLen = s.replayClients) := by
      rw [h.queuedLen, hqueue]
      exact fun hlt => lt_irrefl _ hlt.1
    rw [checkForNextTransno, hreq, if_neg h.positive.ne, if_neg hlen]
    split
    · next hclients => exact ⟨_, rfl, h.woken hpc le_rfl hlive (.inr hclients)⟩
    · exact ⟨_, rfl, h⟩
  | cons req rest =>
    have hle : s.nextTransno ≤ req.transno :=
      hlive req (mem_append_right _ (by rw [hqueue]; exact mem_cons_self))
    have hreq : getNextReplayReqTransno s.queue = req.transno := by
      rw [hqueue]
      rfl
    rw [checkForNextTransno, hreq]
    split
    · next heq =>
      exact ⟨_, rfl, h.woken hpc le_rfl hlive (.inl ⟨req, rest, hqueue, heq⟩)⟩
    · split
      · next hgap =>
        refine ⟨_, rfl, h.woken hpc hle ?_ (.inl ⟨req, rest, hqueue, rfl⟩)⟩
        -- nothing is on the way into the queue, and the first request is the smallest
        rw [h.enqueued_nil hgap.2, nil_append, hqueue]
        have hsorted := h.sorted
        rw [hqueue] at hsorted
        refine forall_mem_cons.mpr ⟨le_rfl, ?_⟩
        intro r hr
        exact le_of_lt ((pairwise_cons.mp hsorted).1 r hr)
      · split
        · next hclients => exact ⟨_, rfl, h.woken hpc le_rfl hlive (.inr hclients)⟩
        · exact ⟨_, rfl, h⟩

theorem finished (hpc : s.pc = .woken) : Inv { s with pc := .finished } :=
  h.moved (by rw [hpc]; rfl) le_rfl (by simp [hpc]) (fun _ => h.le_live) trivial

/-- The first request has the number that is expected. -/
theorem taken (hpc : s.pc = .woken) {rest : List ReplayReq}
    (hqueue : s.queue = req :: rest) (hnext : req.transno = s.nextTransno) :
    TargetRecovery.Inv { s with queue := rest, queuedLen := s.queuedLen - 1, pc := .handling req
                                handed := s.handed ++ [req] } := by
  have hcurrent : s.pc.current = [] := by
    rw [hpc]
    rfl
  have hsub : ∀ r ∈ s.enqueued ++ rest, r ∈ s.enqueued ++ s.queue := by
    rw [hqueue]
    exact ((List.Sublist.refl _).append (sublist_cons_self _ _)).subset
  have howned : (s.enqueued ++ rest ++ [req]).Perm s.owned := by
    rw [TargetRecovery.owned, hcurrent, hqueue, append_nil, append_assoc]
    exact (perm_append_singleton req rest).append_left _
  have hbefore : ∀ r ∈ s.handed, r.transno < s.nextTransno := by
    intro r hr
    have hor := h.before r hr
    rw [hcurrent] at hor
    exact hor.resolve_right not_mem_nil
  have hsorted := h.sorted
  rw [hqueue] at hsorted
  refine { h with
    sent := { h.sent with answered := ?_, owned := ?_ }
    nodup := howned.nodup_iff.mpr h.nodup, exp := ?_, live := fun r hr => h.live r (hsub r hr)
    sorted := (pairwise_cons.mp hsorted).2, queuedLen := ?_, pc := hnext, handed := ?_
    before := ?_, inserted := ?_ }
  · intro r hr
    exact (h.answered_or (by simp [hpc]) hr).imp_right .inl
  · intro r hr
    exact h.sent.owned r (howned.mem_iff.mp hr)
  · intro r
    exact (h.exp r).trans howned.mem_iff.symm
  · rw [h.queuedLen, hqueue]
    rfl
  · refine pairwise_append.mpr ⟨h.handed, pairwise_singleton _ _, ?_⟩
    intro r hr r' hr'
    rw [mem_singleton.mp hr', ReplayLt, hnext]
    exact hbefore r hr
  · exact fun r hr => (mem_append.mp hr).imp_left (hbefore r)
  · have hperm := h.inserted
    rw [hqueue] at hperm
    simpa using hperm

theorem take (hpc : s.pc = .woken) : ∃ s', replayTake s = some s' ∧ s'.Inv := by
  have hwoken := h.pc
  rw [PcOk, hpc] at hwoken
  cases hqueue : s.queue with
  | nil =>
    have hzero : s.replayClients = 0 := by
      refine hwoken.resolve_left ?_
      rintro ⟨r, rest, hq, -⟩
      rw [hqueue] at hq
      cases hq
    refine ⟨_, ?_, h.finished hpc⟩
    rw [replayTake, hqueue]
    exact if_pos hzero
  | cons req rest =>
    have hnext : req.transno = s.nextTransno := by
      rcases hwoken with ⟨r, rest', hq, hr⟩ | hzero
      · rw [hqueue] at hq
        rw [(cons.inj hq).1]
        exact hr
      · have hnil := h.nothing_live hzero
        rw [hqueue] at hnil
        simp at hnil
    have hne : req.transno ≠ 0 := by
      rw [hnext]
      exact Nat.pos_iff_ne_zero.mp h.positive
    refine ⟨_, ?_, h.taken hpc hqueue hnext⟩
    rw [replayTake, hqueue]
    exact if_pos hne

theorem reply (hpc : s.pc = .handling req) :
    ({ s with pc := .replied req }.answered req lost).Inv := by
  have hpcok := h.pc
  rw [PcOk, hpc] at hpcok
  have hset : Inv { s with pc := .replied req } :=
    h.moved (by rw [hpc]; rfl) le_rfl (by simp [hpc]) (fun _ => h.le_live) hpcok
  refine hset.answered (h.sent.owned req (mem_append_right _ ?_)) (.inr rfl)
  rw [hpc]
  exact mem_cons_self

/-- The request that the recovery thread has taken comes before all that are in the queue or on the
way into it. -/
theorem current_lt (hreq : req ∈ s.pc.current)
    (hr : r ∈ s.enqueued ++ s.queue) : req.transno < r.transno := by
  have hle : req.transno ≤ s.nextTransno := by
    have hpc := h.pc
    rw [PcOk] at hpc
    cases hs : s.pc with
    | waiting | woken | finished =>
      rw [hs] at hreq
      cases hreq
    | handling q | replied q | advanced q =>
      rw [hs] at hreq hpc
      rw [mem_singleton.mp hreq]
      exact hpc.le
  refine lt_of_le_of_ne (hle.trans (h.live r hr).2) ?_
  -- another request has another number
  intro heq
  have hrr := h.sent.apart r (h.sent.owned r (mem_owned_of_live hr)) req
    (h.sent.owned req (mem_append_right _ hreq)) heq.symm
  exact (nodup_append.mp h.nodup).2.2 r hr req hreq hrr

theorem advance (hpc : s.pc = .replied req) :
    Inv { s with nextTransno := s.nextTransno + 1, pc := .advanced req } := by
  have hnext := h.pc
  rw [PcOk, hpc] at hnext
  have hlt : req.transno < s.nextTransno + 1 := Nat.lt_succ_of_le hnext.le
  refine h.moved (by rw [hpc]; rfl) (Nat.le_succ _) (fun r hr => ?_) (fun r hr => ?_) hlt
  · rw [hpc] at hr
    rwa [← RecoveryPc.replied.inj hr]
  · have hlater := h.current_lt (by rw [hpc]; exact mem_cons_self) hr
    rwa [hnext] at hlater

theorem dequeue (hpc : s.pc = .advanced req) :
    Inv { targetExpDequeue s req with pc := .waiting } := by
  have hcurrent : s.pc.current = [req] := by
    rw [hpc]
    rfl
  have hnodup := h.nodup
  rw [owned, hcurrent] at hnodup
  obtain ⟨hlive, -, hdisj⟩ := nodup_append.mp hnodup
  have howned : ∀ r, r ∈ s.owned ↔ r ∈ s.enqueued ++ s.queue ∨ r = req := by
    intro r
    rw [owned, hcurrent, mem_append, mem_singleton]
  have hnew : owned { targetExpDequeue s req with pc := .waiting } =
      s.enqueued ++ s.queue := append_nil _
  have hnext := h.pc
  rw [PcOk, hpc] at hnext
  refine { h with
    sent := { h.sent with answered := ?_, owned := ?_ }
    nodup := hnew ▸ hlive, expNodup := ?_, exp := ?_, pc := trivial, before := ?_ }
  · intro r hr
    exact (h.answered_or (by simp [hpc]) hr).imp_right .inl
  · rw [hnew]
    intro r hr
    exact h.sent.owned r ((howned r).mpr (.inl hr))
  · exact (forall_update_iff _ fun _ => Nodup).mpr
      ⟨(h.expNodup _).erase _, fun c _ => h.expNodup c⟩
  · intro r
    rw [hnew]
    have hexp := (h.exp r).trans (howned r)
    by_cases hc : r.client = req.client
    · simp only [targetExpDequeue, hc, update_self]
      rw [(h.expNodup _).mem_erase_iff, ← hc, hexp]
      constructor
      · rintro ⟨hne, hr | rfl⟩
        · exact hr
        · exact absurd rfl hne
      · intro hr
        refine ⟨?_, .inl hr⟩
        intro heq
        refine hdisj r hr req mem_cons_self ?_
        cases r
        cases req
        simp_all
    · simp only [targetExpDequeue, update_of_ne hc]
      rw [hexp]
      refine or_iff_left ?_
      rintro rfl
      exact hc rfl
  · intro r hr
    have hbefore := h.before r hr
    rw [hcurrent, mem_singleton] at hbefore
    rcases hbefore with hlt | rfl
    · exact .inl hlt
    · exact .inl hnext

/-! ### Every run -/

theorem step {op : RecoveryOp} (hok : ReplayOk s op)
    (hstep : recoveryStep s op = some s') : s'.Inv := by
  have henabled := hok.1
  cases op with
  | send req =>
    cases hstep
    exact h.send hok
  | check req =>
    cases hstep
    exact h.check henabled
  | answer req lost =>
    cases hstep
    exact h.answer henabled
  | enqueue req => exact h.enqueue henabled hok.2 hstep
  | insert req =>
    cases hstep
    exact h.insert henabled
  | replayDone c =>
    cases hstep
    exact h.replayDone henabled.2
  | countDown c =>
    obtain ⟨-, rfl⟩ := of_guard hstep
    exact h.countDown henabled.1 henabled.2.1 henabled.2.2
  | wake =>
    obtain ⟨t, ht, hinv⟩ := h.wake henabled
    cases hstep.symm.trans ht
    exact hinv
  | take =>
    obtain ⟨t, ht, hinv⟩ := h.take henabled
    cases hstep.symm.trans ht
    exact hinv
  | reply req lost =>
    cases hstep
    exact h.reply henabled
  | advance req =>
    cases hstep
    exact h.advance henabled
  | dequeue req =>
    cases hstep
    exact h.dequeue henabled

end

end TargetRecovery.Inv

theorem TargetRecovery.New.inv (h : s.New) : s.Inv := by
  have howned : s.owned = [] := by
    rw [owned, h.enqueued, h.queue, h.pc]
    rfl
  have hcounted : s.counted = Finset.range s.clients := by
    refine Finset.filter_true_of_mem ?_
    intro c _
    exact (h.client c).2.2
  refine ⟨⟨?_, ?_, ?_, ?_, ?_, ?_, ?_, ?_⟩, ?_, ?_, ?_, ?_, ?_, ?_, ?_, ?_, ?_, h.nextTransno, ?_, ?_,
    ?_⟩
  · simp [h.sent]
  · simp [h.sent]
  · simp [h.sent]
  · simp [h.sent]
  · intro c hc
    exact absurd (h.client c).1 hc
  · simp [h.immediate]
  · simp [h.passed]
  · simp [howned]
  · simp [howned]
  · simp [h.expQueue]
  · simp [h.expQueue, howned]
  · simp [h.enqueued, h.queue]
  · simp [h.queue]
  · simp [h.queue, h.queuedLen]
  · intro c _
    exact (h.client c).2.2
  · rw [hcounted, Finset.card_range]
    exact h.replayClients
  · rw [PcOk, h.pc]
    trivial
  · simp [h.handed]
  · simp [h.handed]
  · simp [h.inserted, h.handed, h.queue]

/-- In every run that meets the condition, the requests are handed over in strictly increasing
order; every request that was put into the queue was handed over or is in the queue, and is so
once; the length is right, and the assertion on a gap does not fail. -/
theorem replay_in_order {s0 : TargetRecovery} (hnew : s0.New)
    (h : Reach recoveryStep ReplayOk s0 s) :
    s.handed.Pairwise ReplayLt ∧ s.inserted.Perm (s.handed ++ s.queue) ∧
      (s.handed ++ s.queue).Pairwise ReplayLt ∧ s.queuedLen = s.queue.length ∧
      (s.pc = .waiting → (checkForNextTransno s).isSome) := by
  have hinv : s.Inv :=
    h.invariant TargetRecovery.Inv hnew.inv (fun _ _ _ hs hok hstep => hs.step hok hstep)
  refine ⟨hinv.handed, hinv.inserted, ?_, hinv.queuedLen, ?_⟩
  · refine pairwise_append.mpr ⟨hinv.handed, hinv.sorted, ?_⟩
    intro r hr q hq
    have hq' := mem_append_right s.enqueued hq
    rcases hinv.before r hr with hlt | hcurrent
    · exact hlt.trans_le (hinv.live q hq').2
    · exact hinv.current_lt hcurrent hq'
  · intro hpc
    obtain ⟨t, ht, -⟩ := hinv.wake hpc
    rw [ht]
    rfl

/-- Some clients, and the server expects number 5. -/
def targetRecoveryNew (clients : ℕ) : TargetRecovery :=
  { clients, client := fun _ => ⟨none, 0, true, true⟩, sent := [], immediate := [], passed := []
    enqueued := [], expQueue := fun _ => [], queue := [], queuedLen := 0, replayClients := clients
    nextTransno := 5, pc := .waiting, handed := [], inserted := [] }

theorem targetRecoveryNew_new (clients : ℕ) : (targetRecoveryNew clients).New :=
  ⟨fun _ => ⟨rfl, rfl, rfl⟩, rfl, rfl, rfl, rfl, fun _ => rfl, rfl, rfl, rfl, Nat.succ_pos 4, rfl,
    rfl, rfl⟩

/-- Two clients replay 8 and 6; the first one sends its request twice, and the second copy is
dropped. When both are in the queue the recovery thread goes past the gap. -/
theorem replay_in_order_two : ∃ s : TargetRecovery,
    (s.handed.Pairwise ReplayLt ∧ s.inserted.Perm (s.handed ++ s.queue) ∧
      (s.handed ++ s.queue).Pairwise ReplayLt ∧ s.queuedLen = s.queue.length ∧
      (s.pc = .waiting → (checkForNextTransno s).isSome)) ∧
      s.handed = [⟨1, 6⟩] ∧ s.queue = [⟨0, 8⟩] := by
  obtain ⟨s, hreach, hs⟩ : ∃ s, Reach recoveryStep ReplayOk (targetRecoveryNew 2) s ∧
      s.handed = [⟨1, 6⟩] ∧ s.queue = [⟨0, 8⟩] := exists_reach
    [.send ⟨0, 8⟩, .check ⟨0, 8⟩, .enqueue ⟨0, 8⟩, .check ⟨0, 8⟩, .insert ⟨0, 8⟩, .enqueue ⟨0, 8⟩,
      .wake, .send ⟨1, 6⟩, .check ⟨1, 6⟩, .enqueue ⟨1, 6⟩, .insert ⟨1, 6⟩, .wake, .take]
    (by decide +kernel)
  exact ⟨s, replay_in_order (targetRecoveryNew_new 2) hreach, hs⟩

/-- A copy of a request, sent again, passes the first section just before the recovery thread
executes the request; then it gets into the queue, and the assertion on a gap fails. -/
theorem replay_resend_fails : ∃ s : TargetRecovery,
    Reach recoveryStep RecoveryEnabled (targetRecoveryNew 1) s ∧
      s.pc = .waiting ∧ checkForNextTransno s = none ∧ s.handed = [⟨0, 5⟩] ∧
      s.queue = [⟨0, 5⟩] := by
  obtain ⟨s, hreach, hpc, hnone, hs⟩ : ∃ s,
      Reach recoveryStep RecoveryEnabled (targetRecoveryNew 1) s ∧ s.pc = .waiting ∧
      (checkForNextTransno s).isNone ∧ s.handed = [⟨0, 5⟩] ∧ s.queue = [⟨0, 5⟩] := exists_reach
    [.send ⟨0, 5⟩, .check ⟨0, 5⟩, .enqueue ⟨0, 5⟩, .insert ⟨0, 5⟩, .check ⟨0, 5⟩, .wake, .take,
      .reply ⟨0, 5⟩ true, .advance ⟨0, 5⟩, .dequeue ⟨0, 5⟩, .enqueue ⟨0, 5⟩, .insert ⟨0, 5⟩]
    (by decide +kernel)
  exact ⟨s, hreach, hpc, Option.isNone_iff_eq_none.mp hnone, hs⟩

end Lustre
