import Lustre.FlockPosix
import Lustre.Run

/-!
# Flocks on a server: no lost wake-up

A server holds flock resources; each operation is an enqueue, processed to its
end together with the scan of the waiting queue that it may start. The wait of a
request is justified by a conflicting granted lock (`NoLostWakeup`). Two things
can take the justification away without waking the request: an owner that
replaces its own write lock by a read lock, and a scan that stops half-way
because a split finds no memory. In all other runs every waiting request is
blocked in every state.

Conflicts are followed through the byte-wise meaning of the granted list
(`blockedBy_iff`), so that nothing here depends on how the merge loop arranges
the locks. The step and run lemmas are stated for a relation `B` between a
waiting request and the owner that blocks it; the deadlock check uses them again
with the recorded blocker for `B`.
-/

namespace Lustre

open List FlockFlags

/-! ## The server -/

/-- The flock resources of a server. -/
structure FlockServer where
  /-- `lr_granted` of each resource -/
  lrGranted : ℕ → List FlockLock
  /-- `lr_waiting` of each resource -/
  lrWaiting : ℕ → List FlockLock
  /-- the blocked requests in the hashes `exp_flock_hash` of all exports -/
  flockHash : List FlockLock
  /-- next unused identity -/
  nextId : ℕ

namespace FlockServer

/-- No lock. -/
def start : FlockServer := ⟨fun _ => [], fun _ => [], [], 0⟩

/-- The resource `r`. -/
def view (s : FlockServer) (r : ℕ) : FlockView :=
  ⟨s.lrGranted r, s.lrWaiting r, s.flockHash, s.nextId⟩

/-- The resource `r` is left as `v`. -/
def put (s : FlockServer) (r : ℕ) (v : FlockView) : FlockServer where
  lrGranted r' := if r' = r then v.lrGranted else s.lrGranted r'
  lrWaiting r' := if r' = r then v.lrWaiting else s.lrWaiting r'
  flockHash := v.flockHash
  nextId := v.nextId

section Put

variable {s : FlockServer} {r r' : ℕ} {v v' : FlockView}

theorem put_granted_self : (s.put r v).lrGranted r = v.lrGranted := if_pos rfl

theorem put_granted_other (h : r' ≠ r) : (s.put r v).lrGranted r' = s.lrGranted r' := if_neg h

theorem put_waiting_self : (s.put r v).lrWaiting r = v.lrWaiting := if_pos rfl

theorem put_waiting_other (h : r' ≠ r) : (s.put r v).lrWaiting r' = s.lrWaiting r' := if_neg h

theorem put_put : (s.put r v).put r v' = s.put r v' := by
  simp only [put, mk.injEq, and_true]
  constructor <;> funext r' <;> split <;> rfl

end Put

end FlockServer

/-- An enqueue. -/
structure FlockOp where
  rid : ℕ
  lExport : ℕ
  owner : ℕ
  pid : ℕ
  /-- `l_req_mode` -/
  mode : LdlmMode
  start : ℕ
  /-- `l_flock.end` -/
  stop : ℕ
  /-- the flags of the request -/
  flags : FlockFlags
  /-- for which requests the second half of a split can be allocated -/
  alloc : ℕ → Bool

/-- A request without flags, while memory lasts. -/
def FlockOp.plain (rid lExport owner : ℕ) (mode : LdlmMode) (start stop : ℕ) : FlockOp :=
  ⟨rid, lExport, owner, owner, mode, start, stop, zero, fun _ => true⟩

/-- The lock created for the request. -/
def FlockOp.req (op : FlockOp) (id : ℕ) : FlockLock :=
  newFlock id op.lExport op.owner op.pid op.mode op.start op.stop

/-- The resource as the call for the request finds it. -/
def FlockServer.viewAt (s : FlockServer) (op : FlockOp) : FlockView :=
  { s.view op.rid with nextId := s.nextId + 1 }

/-- Process the request. -/
def flockEnqueue (env : FlockEnv) (s : FlockServer) (op : FlockOp) : Option FlockOut :=
  ldlmEnqueueFlock env op.alloc (s.viewAt op) (op.req s.nextId) op.flags

/-- One operation of the server. -/
def flockStep (env : FlockEnv) (s : FlockServer) (op : FlockOp) : Option FlockServer :=
  (flockEnqueue env s op).map fun out => s.put op.rid out.view

/-- What a request to a server is. -/
structure FlockOp.Proper (op : FlockOp) : Prop where
  /-- a read, write or unlock request over a range -/
  request : (op.req 0).Request
  /-- not a client's replay of what the server granted -/
  server : op.flags.isWaitNoreproc = false

variable {op : FlockOp}

theorem FlockOp.Proper.req (h : op.Proper) (id : ℕ) : (op.req id).Request :=
  ⟨h.request.ranged, h.request.mode⟩

/-- Every waiting request conflicts with a granted lock. -/
def NoLostWakeup (s : FlockServer) : Prop :=
  ∀ r, ∀ w ∈ s.lrWaiting r, ∃ g ∈ s.lrGranted r, Conflicts g w

/-! ## Conflicts, byte by byte -/

/-- A lock of the owner `k` keeps `w` from being granted. -/
def BlockedBy (l : List FlockLock) (w : FlockLock) (k : ℕ × Option ℕ) : Prop :=
  ∃ g ∈ l, Conflicts g w ∧ g.key = k

variable {l : List FlockLock}

theorem Conflicts.blockedBy {g w : FlockLock} (h : Conflicts g w)
    (hg : g ∈ l) : BlockedBy l w g.key := ⟨g, hg, h, rfl⟩

variable {k : ℕ × Option ℕ}

/-- In a list of disjoint locks the lock that covers a byte says what is held. -/
theorem OwnList.modeAt_of_mem (h : OwnList k l)
    {g : FlockLock} (hg : g ∈ l) {b : ℕ} (hb : g.Covers b) : modeAt l b = some g.lGrantedMode := by
  induction l with
  | nil => cases hg
  | cons f l ih =>
    obtain ⟨-, -, hfit, hl⟩ := ownList_cons.mp h
    rw [modeAt_cons]
    rcases mem_cons.mp hg with rfl | hg
    · rw [if_pos hb]
    · rw [if_neg fun hf => absurd (hfit g hg).1 (by have := hb.1; have := hf.2; omega)]
      exact ih hl hg

theorem FlockWf.heldAt_of_mem (h : FlockWf l) {g : FlockLock} (hg : g ∈ l)
    {b : ℕ} (hb : g.Covers b) : heldAt l g.key b = some g.lGrantedMode := by
  obtain ⟨pre, own, post, hfocus⟩ := h.focus g.key
  have hown : g ∈ own := by
    rw [hfocus.split, mem_append, mem_append] at hg
    rcases hg with (hg | hg) | hg
    · exact absurd rfl (hfocus.before g hg)
    · exact hg
    · exact absurd rfl (hfocus.after g hg)
  rw [hfocus.split, hfocus.heldAt_self hfocus.ownList]
  exact hfocus.ownList.modeAt_of_mem hown hb

theorem mem_of_heldAt {b : ℕ} {m : LdlmMode}
    (h : heldAt l k b = some m) : ∃ g ∈ l, g.key = k ∧ g.Covers b ∧ g.lGrantedMode = m := by
  obtain ⟨g, hg, hb, hm⟩ := mem_of_modeAt h
  obtain ⟨hmem, hk⟩ := mem_filter.mp hg
  exact ⟨g, hmem, of_decide_eq_true hk, hb, hm⟩

theorem ldlmFlocksOverlap_iff {g w : FlockLock} (hg : g.Ranged) (hw : w.Ranged) :
    ldlmFlocksOverlap g w = true ↔ ∃ b, g.Covers b ∧ w.Covers b := by
  obtain ⟨hg, -⟩ := hg
  obtain ⟨hw, -⟩ := hw
  simp only [ldlmFlocksOverlap, Bool.and_eq_true, decide_eq_true_eq, FlockLock.Covers]
  constructor
  · intro h
    exact ⟨max g.flockStart w.flockStart, by omega⟩
  · rintro ⟨b, hb⟩
    omega

/-- What blocks a request is a matter of the modes held at its bytes. -/
theorem blockedBy_iff {w : FlockLock} (hwf : FlockWf l) (hw : w.Ranged) :
    BlockedBy l w k ↔ k ≠ w.key ∧ ∃ b m, w.Covers b ∧ heldAt l k b = some m ∧
      lockmodeCompat m w.lReqMode = false := by
  constructor
  · rintro ⟨g, hg, hc, rfl⟩
    obtain ⟨b, hgb, hwb⟩ := (ldlmFlocksOverlap_iff (hwf.valid g hg).ranged hw).mp hc.overlap
    exact ⟨hc.key, b, _, hwb, hwf.heldAt_of_mem hg hgb, hc.mode⟩
  · rintro ⟨hk, b, m, hwb, hheld, hmode⟩
    obtain ⟨g, hg, rfl, hgb, rfl⟩ := mem_of_heldAt hheld
    exact ⟨g, hg, ⟨hk, hmode, (ldlmFlocksOverlap_iff (hwf.valid g hg).ranged hw).mpr
      ⟨b, hgb, hwb⟩⟩, rfl⟩

/-- A request that can wait: a read or a write request. -/
structure FlockLock.Waiter (w : FlockLock) : Prop where
  /-- a proper request -/
  request : w.Request
  /-- no unlock -/
  mode : w.lReqMode ≠ .nl

/-- Only readers are compatible with each other. -/
theorem FlockLock.Waiter.incompat {req w : FlockLock} (hreq : req.Waiter) (hw : w.Waiter)
    (h : req.lReqMode = .pr → w.lReqMode ≠ .pr) :
    lockmodeCompat req.lReqMode w.lReqMode = false := by
  obtain ⟨hreq, hrn⟩ := hreq
  obtain ⟨hw, hwn⟩ := hw
  rcases hreq.mode with hr | hr | hr
  · rcases hw.mode with hm | hm | hm
    · exact absurd hm (h hr)
    · rw [hr, hm]
      rfl
    · exact absurd hm hwn
  · rcases hw.mode with hm | hm | hm
    · rw [hr, hm]
      rfl
    · rw [hr, hm]
      rfl
    · exact absurd hm hwn
  · exact absurd hr hrn

/-- Granting `req` takes no write lock of its owner from under a waiting reader. -/
def KeepsReaders (v : FlockView) (req : FlockLock) : Prop :=
  req.lReqMode = .pr → ∀ w ∈ v.lrWaiting, w.lReqMode = .pr → w.key ≠ req.key →
    ∀ g ∈ v.lrGranted, g.key = req.key → g.lGrantedMode = .pw →
      ∀ b, req.Covers b → w.Covers b → ¬ g.Covers b

section Grant

variable {v v1 : FlockView} {req w : FlockLock} {k : ℕ × Option ℕ}

section

variable (hwf : FlockWf v.lrGranted) (h : Granted v req v1)
include hwf h

/-- Owners other than the requester block as before. -/
theorem Granted.blockedBy_other (hw : w.Ranged) (hk : k ≠ req.key) :
    BlockedBy v1.lrGranted w k ↔ BlockedBy v.lrGranted w k := by
  rw [blockedBy_iff h.wf hw, blockedBy_iff hwf hw, h.held]
  simp only [posixWrite, hk, false_and, if_false]

/-- A granted read or write request goes on blocking whom its owner blocked. -/
theorem Granted.blockedBy (hreq : req.Waiter) (hkeeps : KeepsReaders v req)
    (hmem : w ∈ v.lrWaiting) (hw : w.Waiter) (hb : BlockedBy v.lrGranted w k) :
    BlockedBy v1.lrGranted w k := by
  by_cases hk : k = req.key
  · subst hk
    obtain ⟨hne, b, m, hwb, hheld, hmode⟩ := (blockedBy_iff hwf hw.request.ranged).mp hb
    refine (blockedBy_iff h.wf hw.request.ranged).mpr ⟨hne, b, ?_⟩
    rw [h.held]
    by_cases hin : req.Covers b
    · refine ⟨req.lReqMode, hwb, by simp [posixWrite, hin, heldMode, hreq.mode],
        hreq.incompat hw fun hr hwr => ?_⟩
      -- two readers, so that the owner held a write lock
      obtain ⟨g, hg, hgk, hgb, rfl⟩ := mem_of_heldAt hheld
      rcases (hwf.valid g hg).mode with hv | hv
      · rw [hv, hwr] at hmode
        cases hmode
      · exact hkeeps hr w hmem hwr (Ne.symm hne) g hg hgk hv b hin hwb hgb
    · exact ⟨m, hwb, by simpa [posixWrite, hin] using hheld, hmode⟩
  · exact (h.blockedBy_other hwf hw.request.ranged hk).mpr hb

end

end Grant

/-! ## The scan of the waiting queue -/

variable {env : FlockEnv}

/-- The rule for scans: an invariant of the resource and the rest of the queue
that every call of the scan keeps holds at the end, and held at each call. -/
theorem ldlmReprocessQueue_rule {alloc : ℕ → Bool}
    (P : FlockView → List FlockLock → Prop) (Good : FlockCall → Prop)
    (hstep : ∀ v w queue out, P v (w :: queue) → Good ⟨v, w, out.granted, out.deadlock⟩ →
      ldlmProcessFlockLock env (fun v => some ⟨v, [], []⟩) (alloc w.id) v w zero
        .rescan = some out → out.rc = .continue ∧ P out.view queue) (queue : List FlockLock) :
    ∀ v r, P v queue → ldlmReprocessQueue env alloc v queue = some r → (∀ c ∈ r.calls, Good c) →
      P r.view [] ∧ ∀ c ∈ r.calls, ∃ rest out, P c.view (c.req :: rest) ∧
        c.deadlock = out.deadlock ∧
        ldlmProcessFlockLock env (fun v => some ⟨v, [], []⟩) (alloc c.req.id) c.view c.req
          zero .rescan = some out := by
  induction queue with
  | nil =>
    intro v r hP h _
    cases h
    exact ⟨hP, fun c hc => absurd hc not_mem_nil⟩
  | cons w queue ih =>
    intro v r hP h hgood
    rw [ldlmReprocessQueue] at h
    obtain ⟨out, hout, h⟩ := Option.bind_eq_some_iff.mp h
    have hfirst : ⟨v, w, out.granted, out.deadlock⟩ ∈ r.calls := by
      split at h
      · obtain ⟨r', -, h⟩ := Option.bind_eq_some_iff.mp h
        cases h
        exact mem_cons_self
      · cases h
        exact mem_cons_self
    obtain ⟨hrc, hP'⟩ := hstep v w queue out hP (hgood _ hfirst) hout
    rw [if_pos hrc] at h
    obtain ⟨r', hr', h⟩ := Option.bind_eq_some_iff.mp h
    cases h
    obtain ⟨hend, hcalls⟩ := ih out.view r' hP' hr' (forall_mem_cons.mp hgood).2
    exact ⟨hend, forall_mem_cons.mpr ⟨⟨queue, out, hP, rfl, hout⟩, hcalls⟩⟩

/-- What a call of a scan can do while memory lasts. -/
inductive ScanCase (v : FlockView) (w : FlockLock) (out : FlockOut) : Prop where
  /-- the request goes on waiting -/
  | stays (lock : FlockLock) : lock ∈ v.lrGranted → Conflicts lock w → out.view = v →
      ScanCase v w out
  /-- the request is cancelled to break a deadlock -/
  | dropped : Dropped v w out.view →
      out.view.flockHash = ldlmFlockBlockingUnlink v.flockHash w → ScanCase v w out
  /-- the request is granted -/
  | granted : out.granted = true → Granted v w out.view → ScanCase v w out

variable {out : FlockOut}

theorem flockRescan_cases {alloc : Bool} {v : FlockView} {w : FlockLock}
    (hwf : FlockWf v.lrGranted) (hreq : w.Request) (halloc : alloc = true)
    (hout : ldlmProcessFlockLock env (fun v => some ⟨v, [], []⟩) alloc v w zero
      .rescan = some out) :
    out.rc = .continue ∧ ScanCase v w out ∧ ∀ lock, out.deadlock = some lock →
      lock ∈ v.lrGranted ∧ Conflicts lock w ∧
        ldlmFlockDeadlock env v.flockHash w lock = some true := by
  have hcase := flockProcess_cases hwf hreq hout
  cases hcase with
  | rejected _ _ _ _ hwhy =>
    rcases hwhy with ⟨hno, -⟩ | hflag | hflag
    · rw [halloc] at hno
      cases hno
    · cases hflag
    · cases hflag
  | refused _ _ _ _ _ _ _ hint | queued _ _ _ _ _ _ hint => cases hint
  | stillBlocked lock _ hd _ hrc _ hmem hc hview =>
    exact ⟨hrc, .stays lock hmem hc hview, by rw [hd]; exact nofun⟩
  | cancelled lock _ hd _ hrc _ hmem hc hdead hdrop =>
    refine ⟨hrc, ?_, fun lock' h' => ?_⟩
    · rcases hdrop with ⟨hdrop, hhash⟩ | ⟨hview, -⟩
      · exact .dropped hdrop hhash
      · exact .stays lock hmem hc hview
    · cases hd.symm.trans h'
      exact ⟨hmem, hc, hdead⟩
  | granted hg hd hrc _ hend =>
    refine ⟨hrc, ?_, by rw [hd]; exact nofun⟩
    cases hend with
    | quiet hgr => exact .granted hg hgr
    | rescan _ _ _ hint => cases hint

variable (B : FlockLock → ℕ × Option ℕ → Prop)

/-- The resource in the middle of a scan: a waiting request that is not in the
rest of the queue is blocked, by an owner that `B` allows. -/
structure Scanned (v : FlockView) (queue : List FlockLock) :
    Prop where
  /-- the granted list is well formed -/
  wf : FlockWf v.lrGranted
  /-- unlocks do not wait -/
  waiter : ∀ w ∈ v.lrWaiting, w.Waiter
  /-- nor are they scanned -/
  pending : ∀ w ∈ queue, w.Waiter
  /-- who has been scanned is blocked -/
  blocked : ∀ w ∈ v.lrWaiting, w ∈ queue ∨ ∃ k, B w k ∧ BlockedBy v.lrGranted w k

/-- What a call of a scan must meet: it can allocate, it keeps waiting readers
blocked, and a request that has to go on waiting is blocked as `B` says. -/
structure SparedCall (alloc : ℕ → Bool) (c : FlockCall) :
    Prop where
  alloc : alloc c.req.id = true
  keeps : c.granted = true → KeepsReaders c.view c.req
  blocker : (∃ k, BlockedBy c.view.lrGranted c.req k) →
    ∃ k, B c.req k ∧ BlockedBy c.view.lrGranted c.req k

section Scan

variable {B : FlockLock → ℕ × Option ℕ → Prop} {v v' : FlockView} {w : FlockLock}
  {queue : List FlockLock}

section

variable (h : Scanned B v (w :: queue))
include h

/-- The request leaves the waiting list, and who is blocked stays so. -/
theorem Scanned.leave (hwf : FlockWf v'.lrGranted)
    (hw : v'.lrWaiting = v.lrWaiting.filter fun l => l.id ≠ w.id)
    (hstill : ∀ x ∈ v.lrWaiting, ∀ k, BlockedBy v.lrGranted x k → BlockedBy v'.lrGranted x k) :
    Scanned B v' queue where
  wf := hwf
  waiter x hx := h.waiter x (mem_of_mem_filter (hw ▸ hx))
  pending x hx := h.pending x (mem_cons_of_mem _ hx)
  blocked x hx := by
    rw [hw, mem_filter] at hx
    obtain ⟨hx, hid⟩ := hx
    rcases h.blocked x hx with hin | ⟨k, hB, hb⟩
    · rcases mem_cons.mp hin with rfl | hin
      · exact absurd rfl (of_decide_eq_true hid)
      · exact .inl hin
    · exact .inr ⟨k, hB, hstill x hx k hb⟩

/-- The request stays, blocked as `B` says. -/
theorem Scanned.stay (hb : ∃ k, B w k ∧ BlockedBy v.lrGranted w k) : Scanned B v queue where
  __ := h
  pending x hx := h.pending x (mem_cons_of_mem _ hx)
  blocked x hx := by
    rcases h.blocked x hx with hin | hb'
    · rcases mem_cons.mp hin with rfl | hin
      · exact .inr hb
      · exact .inl hin
    · exact .inr hb'

theorem Scanned.call {alloc : ℕ → Bool}
    (hgood : SparedCall B alloc ⟨v, w, out.granted, out.deadlock⟩) (hcase : ScanCase v w out) :
    Scanned B out.view queue := by
  cases hcase with
  | stays lock hmem hc hview => exact hview ▸ h.stay (hgood.blocker ⟨_, hc.blockedBy hmem⟩)
  | dropped hdrop =>
    refine h.leave (hdrop.granted ▸ h.wf) hdrop.waiting fun x _ k hb => ?_
    rw [hdrop.granted]
    exact hb
  | granted hg hgr =>
    refine h.leave hgr.wf hgr.waiting fun x hx k hb => ?_
    exact hgr.blockedBy h.wf (h.pending w mem_cons_self) (hgood.keeps hg) hx (h.waiter x hx) hb

end

end Scan

/-! ## One operation -/

/-- What an operation must meet: no grant takes a write lock from under a waiting
reader, and the calls of its scan meet `SparedCall`. -/
def SparedBy (env : FlockEnv) (s : FlockServer) (op : FlockOp) : Prop :=
  ∀ out, flockEnqueue env s op = some out →
    (out.granted = true → KeepsReaders (s.viewAt op) (op.req s.nextId)) ∧
    ∀ c ∈ out.calls, SparedCall B op.alloc c

variable {s : FlockServer}

section Step

variable {B : FlockLock → ℕ × Option ℕ → Prop} {env : FlockEnv} {v : FlockView}
  {req : FlockLock} {queue : List FlockLock}

section

variable {v1 : FlockView} (h : Scanned B v [])
include h

/-- The request is granted, and nobody is woken. -/
theorem Scanned.grant_quiet (hreq : req.Request) (hkeeps : KeepsReaders v req)
    (hg : Granted v req v1)
    (hidle : req.lReqMode = .nl → heldAt v1.lrGranted = heldAt v.lrGranted) : Scanned B v1 [] where
  wf := hg.wf
  waiter x hx := h.waiter x (mem_of_mem_filter (hg.waiting ▸ hx))
  pending := forall_mem_nil _
  blocked x hx := by
    rw [hg.waiting, mem_filter] at hx
    obtain ⟨k, hB, hb⟩ := (h.blocked x hx.1).resolve_left not_mem_nil
    refine .inr ⟨k, hB, ?_⟩
    by_cases hnl : req.lReqMode = .nl
    · -- an unlock that frees nothing changes no conflict
      have hx' := (h.waiter x hx.1).request.ranged
      rw [blockedBy_iff hg.wf hx', hidle hnl, ← blockedBy_iff h.wf hx']
      exact hb
    · exact hg.blockedBy h.wf ⟨hreq, hnl⟩ hkeeps hx.1 (h.waiter x hx.1) hb

/-- After an unlock everybody is scanned. -/
theorem Scanned.unlock (hg : Granted v req v1) : Scanned B v1 v1.lrWaiting :=
  have hw : ∀ x ∈ v1.lrWaiting, x.Waiter := fun x hx =>
    h.waiter x (mem_of_mem_filter (hg.waiting ▸ hx))
  ⟨hg.wf, hw, hw, fun _ hx => .inl hx⟩

/-- A request that has to wait is blocked. -/
theorem Scanned.queue_up {lock req' : FlockLock} {hash hash' : List FlockLock} (hreq : req.Waiter)
    (hmem : lock ∈ v.lrGranted) (hc : Conflicts lock req)
    (hlink : ldlmFlockBlockingLink hash req lock = some (req', hash')) (hB : B req' lock.key) :
    Scanned B { v with flockHash := hash', lrWaiting := v.lrWaiting ++ [req'] } [] := by
  -- the record changes nothing that a conflict depends on
  have hreq' : req'.Waiter ∧ Conflicts lock req' := by
    rw [ldlmFlockBlockingLink] at hlink
    split at hlink
    · obtain rfl := (Prod.mk.inj (Option.some.inj hlink)).1
      exact ⟨hreq, hc⟩
    · split at hlink
      · cases hlink
      · obtain rfl := (Prod.mk.inj (Option.some.inj hlink)).1
        exact ⟨⟨⟨hreq.request.ranged, hreq.request.mode⟩, hreq.mode⟩, hc.key, hc.mode, hc.overlap⟩
  refine ⟨h.wf, forall_mem_append.mpr ⟨h.waiter, forall_mem_singleton.mpr hreq'.1⟩,
    forall_mem_nil _, forall_mem_append.mpr ⟨h.blocked, forall_mem_singleton.mpr ?_⟩⟩
  exact .inr ⟨lock.key, hB, hreq'.2.blockedBy hmem⟩

/-- A request that is not granted leaves the others as they were. -/
theorem Scanned.dropped {v' : FlockView} {i : ℕ} (hg : v'.lrGranted = v.lrGranted)
    (hw : v'.lrWaiting = v.lrWaiting.filter fun l => l.id ≠ i) :
    Scanned B v' [] where
  wf := hg ▸ h.wf
  waiter x hx := h.waiter x (mem_of_mem_filter (hw ▸ hx))
  pending := forall_mem_nil _
  blocked x hx := hg ▸ h.blocked x (mem_of_mem_filter (hw ▸ hx))

end

/-- The step lemma. `hB` says that `B` allows a blocker once it is recorded. -/
theorem Scanned.enqueue
    (h : Scanned B (s.viewAt op) []) (hop : op.Proper) (hspared : SparedBy B env s op)
    (hB : ∀ hash lock req' hash',
      ldlmFlockBlockingLink hash (op.req s.nextId) lock = some (req', hash') → B req' lock.key)
    (hout : flockEnqueue env s op = some out) : Scanned B out.view [] := by
  obtain ⟨hkeeps, hcalls⟩ := hspared out hout
  have hreq := hop.req s.nextId
  have hcase := flockProcess_cases h.wf hreq hout
  cases hcase with
  | rejected _ _ _ hdrop | refused _ _ _ _ _ _ _ _ _ _ _ _ hdrop _ =>
    exact h.dropped hdrop.granted hdrop.waiting
  | queued lock req' hash _ _ _ _ hmem hc hlink _ hview =>
    have hmode : (op.req s.nextId).lReqMode ≠ .nl := fun hnl => by
      have := hc.mode
      rw [hnl] at this
      revert this
      rcases ((h.wf.valid lock hmem)).mode with hm | hm <;> rw [hm] <;> decide
    exact hview ▸ h.queue_up ⟨hreq, hmode⟩ hmem hc hlink (hB _ _ _ _ hlink)
  | stillBlocked _ _ _ _ _ hint | cancelled _ _ _ _ _ hint => exact absurd rfl hint
  | granted hg _ _ _ hend =>
    cases hend with
    | quiet hgr _ hidle =>
      exact h.grant_quiet hreq (hkeeps hg) hgr fun hnl => hidle rfl hnl hop.server
    | rescan v1 r hgr _ _ hrep hview hcalls' =>
      have hscan := ldlmReprocessQueue_rule (Scanned B) (SparedCall B op.alloc)
        (fun v w queue out hP hgood hrun =>
          have hcase := flockRescan_cases hP.wf (hP.pending w mem_cons_self).request
            hgood.alloc hrun
          ⟨hcase.1, hP.call hgood hcase.2.1⟩) v1.lrWaiting v1 r
        (h.unlock hgr) hrep (hcalls' ▸ hcalls)
      exact hview ▸ hscan.1

end Step

/-! ## Runs -/

/-- Every resource is well formed, and every waiting request is blocked as `B`
says. -/
def Settled (s : FlockServer) : Prop :=
  ∀ r, Scanned B (s.view r) []

theorem settled_start (B : FlockLock → ℕ × Option ℕ → Prop) : Settled B .start :=
  fun _ => ⟨flockWf_nil, forall_mem_nil _, forall_mem_nil _, nofun⟩

theorem Scanned.congr {B : FlockLock → ℕ × Option ℕ → Prop} {v v' : FlockView}
    {queue : List FlockLock} (h : Scanned B v queue) (hg : v'.lrGranted = v.lrGranted)
    (hw : v'.lrWaiting = v.lrWaiting) : Scanned B v' queue :=
  ⟨hg ▸ h.wf, hw ▸ h.waiter, h.pending, hg ▸ hw ▸ h.blocked⟩

open FlockServer

/-- The run lemma's step: a spared operation keeps every resource settled. -/
theorem Settled.step {B : FlockLock → ℕ × Option ℕ → Prop} {s s' : FlockServer}
    (h : Settled B s) (hop : op.Proper) (hspared : SparedBy B env s op)
    (hB : ∀ hash lock req' hash',
      ldlmFlockBlockingLink hash (op.req s.nextId) lock = some (req', hash') → B req' lock.key)
    (hstep : flockStep env s op = some s') : Settled B s' := by
  obtain ⟨out, hout, rfl⟩ := Option.map_eq_some_iff.mp hstep
  have henq := Scanned.enqueue ((h op.rid).congr rfl rfl) hop hspared hB hout
  intro r
  by_cases hr : r = op.rid
  · subst hr
    exact henq.congr put_granted_self put_waiting_self
  · exact (h r).congr (put_granted_other hr) (put_waiting_other hr)

/-- What a spared operation must meet. No grant, of the request or inside the
scan that it starts, replaces a write lock of its owner by a read lock over a
byte that another owner waits to read, and the scan never runs out of memory. -/
def FlockSpared (env : FlockEnv) (s : FlockServer) (op : FlockOp) : Prop :=
  ∀ out, flockEnqueue env s op = some out →
    (out.granted = true → KeepsReaders (s.viewAt op) (op.req s.nextId)) ∧
    ∀ c ∈ out.calls, op.alloc c.req.id = true ∧ (c.granted = true → KeepsReaders c.view c.req)

theorem FlockSpared.sparedBy (h : FlockSpared env s op) : SparedBy (fun _ _ => True) env s op := by
  intro out hout
  obtain ⟨hkeeps, hcalls⟩ := h out hout
  refine ⟨hkeeps, fun c hc => ⟨(hcalls c hc).1, (hcalls c hc).2, fun hb => ?_⟩⟩
  obtain ⟨k, hb⟩ := hb
  exact ⟨k, trivial, hb⟩

/-- Without readers every operation that finds memory is spared. -/
theorem flockSpared_of_writers (h : flockEnqueue env s op = some out) (hmode : op.mode ≠ .pr)
    (hcalls : ∀ c ∈ out.calls, op.alloc c.req.id = true ∧ c.req.lReqMode ≠ .pr) :
    FlockSpared env s op := by
  intro out' hout'
  cases h.symm.trans hout'
  exact ⟨fun _ hpr => absurd hpr hmode, fun c hc =>
    ⟨(hcalls c hc).1, fun _ hpr => absurd hpr (hcalls c hc).2⟩⟩

/-- In every state of every run of spared operations, every waiting request
conflicts with a granted lock. -/
theorem flock_noLostWakeup (env : FlockEnv) (s : FlockServer)
    (h : Reach (flockStep env) (fun s op => op.Proper ∧ FlockSpared env s op) .start s) :
    NoLostWakeup s := by
  have hinv : Settled (fun _ _ => True) s :=
    h.invariant (Settled fun _ _ => True) (settled_start _) fun t op t' ht hok hstep =>
      ht.step hok.1 hok.2.sparedBy (fun _ _ _ _ _ => trivial) hstep
  intro r w hw
  obtain ⟨k, -, g, hg, hc, -⟩ := ((hinv r).blocked w hw).resolve_left not_mem_nil
  exact ⟨g, hg, hc⟩

/-- A partial unlock scans the waiting writer, which goes on waiting for the rest. -/
theorem flock_noLostWakeup_partial :
    ∃ s, Reach (flockStep (liveClients 2)) (fun s op => op.Proper ∧ FlockSpared (liveClients 2) s op)
        .start s ∧ (s.lrWaiting 0).map FlockLock.key = [(8, some 1)] ∧ NoLostWakeup s := by
  have hrun : Reach (flockStep (liveClients 2))
      (fun s op => op.Proper ∧ FlockSpared (liveClients 2) s op) .start _ :=
    .step (.plain 0 0 7 .nl 0 4) (.step (.plain 0 1 8 .pw 0 9) (.step (.plain 0 0 7 .pw 0 9) .start
          ⟨⟨⟨by decide, .inr (.inl rfl)⟩, rfl⟩,
            flockSpared_of_writers rfl (by decide) (by decide)⟩ rfl)
        ⟨⟨⟨by decide, .inr (.inl rfl)⟩, rfl⟩,
          flockSpared_of_writers rfl (by decide) (by decide)⟩ rfl)
      ⟨⟨⟨by decide, .inr (.inr rfl)⟩, rfl⟩, flockSpared_of_writers rfl (by decide) (by decide)⟩ rfl
  exact ⟨_, hrun, by decide, flock_noLostWakeup (liveClients 2) _ hrun⟩

/-- An owner that turns its write lock into a read lock wakes nobody: the waiting
reader conflicts with nothing any more. -/
theorem flock_downgrade_wakesNobody : ¬ ∀ (env : FlockEnv) (s : FlockServer),
      Reach (flockStep env) (fun _ op => op.Proper) .start s → NoLostWakeup s := by
  intro hall
  have hrun : Reach (flockStep (liveClients 2)) (fun _ op => op.Proper) .start _ :=
    .step (.plain 0 0 7 .pr 0 9) (.step (.plain 0 1 8 .pr 0 9)
        (.step (.plain 0 0 7 .pw 0 9) .start ⟨⟨by decide, .inr (.inl rfl)⟩, rfl⟩ rfl)
        ⟨⟨by decide, .inl rfl⟩, rfl⟩ rfl) ⟨⟨by decide, .inl rfl⟩, rfl⟩ rfl
  have hlost := hall _ _ hrun 0
  revert hlost
  decide

end Lustre
