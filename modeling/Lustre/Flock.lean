import Lustre.LdlmMode
import Lustre.Word

/-!
# POSIX locks on the server (`ldlm_flock.c`)

A resource has a list of granted and a list of waiting flocks. A request is
checked against the granted locks of other owners; if none conflicts, the locks
of its own owner are merged, trimmed and split around it. A request that has to
wait records one of the owners that block it in a hash, and
`ldlm_flock_deadlock` follows these records to look for a cycle. Unlocking scans
the waiting list again.

Lists of locks are linked through `l_res_link`; a position in `lr_granted` is an
index. Requests carry an identity, which stands for their address. A failed
`LASSERT` is `none`. `ldlm_process_flock_lock` drops the resource lock while it
allocates the second half of a split; here nothing else happens meanwhile.
-/

namespace Lustre

/-! ## Locks -/

/-- `struct ldlm_lock` of a flock. -/
structure FlockLock where
  id : ℕ
  lReqMode : LdlmMode
  lGrantedMode : LdlmMode
  /-- `l_export`, `none` on a client -/
  lExport : Option ℕ
  /-- `l_flock.owner` -/
  flockOwner : ℕ
  /-- `l_flock.pid` -/
  flockPid : ℕ
  /-- `l_flock.start` -/
  flockStart : ℕ
  /-- `l_flock.end`, the last byte -/
  flockEnd : ℕ
  blockingOwner : ℕ
  blockingExport : Option ℕ
  deriving DecidableEq

/-- The lock that the server creates for a request. -/
def newFlock (id lExport owner pid : ℕ) (mode : LdlmMode) (start stop : ℕ) : FlockLock :=
  ⟨id, mode, .minmode, some lExport, owner, pid, start, stop, 0, none⟩

def ldlmSameFlockOwner (lock new : FlockLock) : Bool :=
  new.flockOwner = lock.flockOwner && new.lExport = lock.lExport

def ldlmFlocksOverlap (lock new : FlockLock) : Bool :=
  new.flockStart ≤ lock.flockEnd && new.flockEnd ≥ lock.flockStart

/-- Move a lock to another range. -/
def FlockLock.setRange (l : FlockLock) (start stop : ℕ) : FlockLock :=
  { l with flockStart := start, flockEnd := stop }

/-- The flags that `ldlm_process_flock_lock` reads and sets. -/
structure FlockFlags where
  /-- `LDLM_FL_WAIT_NOREPROC` -/
  waitNoreproc : Bool
  /-- `LDLM_FL_BLOCK_NOWAIT` -/
  blockNowait : Bool
  /-- `LDLM_FL_TEST_LOCK` -/
  testLock : Bool
  /-- `LDLM_FL_LOCK_CHANGED` -/
  lockChanged : Bool
  /-- `LDLM_FL_BLOCK_GRANTED` -/
  blockGranted : Bool
  deriving DecidableEq

/-- No flag. -/
def FlockFlags.zero : FlockFlags := ⟨false, false, false, false, false⟩

/-- `*flags == LDLM_FL_WAIT_NOREPROC`: a client replays what the server granted. -/
def FlockFlags.isWaitNoreproc (flags : FlockFlags) : Bool :=
  flags = ⟨true, false, false, false, false⟩

/-- What the deadlock check reads of an export. -/
structure ObdExport where
  nid : ℕ
  /-- `exp_flock_hash != NULL` -/
  hasFlockHash : Bool
  /-- `exp_failed` -/
  failed : Bool
  /-- `OBD_CONNECT_FLOCK_DEAD` is negotiated -/
  flockDead : Bool
  deriving DecidableEq

/-- The exports, and the order in which `obd_nid_hash` lists them. -/
structure FlockEnv where
  obdExport : ℕ → ObdExport
  obdNidHash : List ℕ

/-- The clients `0` to `n - 1`, all alive, each at a nid of its own. -/
def liveClients (n : ℕ) : FlockEnv := ⟨fun e => ⟨e, true, false, true⟩, List.range n⟩

/-- A resource as `ldlm_process_flock_lock` sees it. -/
structure FlockView where
  lrGranted : List FlockLock
  lrWaiting : List FlockLock
  /-- the blocked requests in the hashes `exp_flock_hash` of all exports, latest
  first; they may wait on any resource -/
  flockHash : List FlockLock
  /-- next unused identity -/
  nextId : ℕ
  deriving DecidableEq

/-! ## Blocked requests -/

/-- `ldlm_flock_blocking_link`: record that `lock` blocks `req`. Returns the
request with the record, and the hash. -/
def ldlmFlockBlockingLink (hash : List FlockLock) (req lock : FlockLock) :
    Option (FlockLock × List FlockLock) :=
  if req.lExport = none then some (req, hash)
  else if hash.any fun l => l.id = req.id then none
  else
    let req := { req with blockingOwner := lock.flockOwner, blockingExport := lock.lExport }
    some (req, req :: hash)

def ldlmFlockBlockingUnlink (hash : List FlockLock) (req : FlockLock) : List FlockLock :=
  if req.lExport = none then hash else hash.filter fun l => l.id ≠ req.id

variable (env : FlockEnv) (reprocess : FlockView → Option FlockRescan) (v : FlockView)
  (st : FlockMerge)
  (hash : List FlockLock) (req : FlockLock) (flags : FlockFlags) (lock : FlockLock)

/-- `ldlm_flock_lookup_cb` over the exports of one nid: the first blocked request
of the owner. -/
def ldlmFlockLookup (blOwner nid : ℕ) : Option FlockLock :=
  (env.obdNidHash.filter fun e => (env.obdExport e).nid = nid).findSome? fun e =>
    hash.find? fun l => l.lExport = some e && l.flockOwner = blOwner

/-- The loop of `ldlm_flock_deadlock`, from the owner `blOwner` at `blExp`. -/
def ldlmFlockDeadlockLoop (env : FlockEnv) (hash : List FlockLock) (req : FlockLock)
    (reqExp : ℕ) : ℕ → ℕ → ℕ → Option Bool
  | 0, _, _ => none
  | fuel + 1, blOwner, blExp =>
    if ¬ (env.obdExport blExp).hasFlockHash then some false
    else
      match ldlmFlockLookup env hash blOwner (env.obdExport blExp).nid with
      | none => some false
      | some lock =>
        if lock.id = req.id then none
        else
          match lock.blockingExport with
          | none => none
          | some blExp =>
            if (env.obdExport blExp).failed then some false
            else if lock.blockingOwner = req.flockOwner ∧
                (env.obdExport blExp).nid = (env.obdExport reqExp).nid then some true
            else ldlmFlockDeadlockLoop env hash req reqExp fuel lock.blockingOwner blExp

/-- `ldlm_flock_deadlock`. Each round of its loop looks at another blocked
request, so there are at most as many as the hash holds. -/
def ldlmFlockDeadlock (req blLock : FlockLock) : Option Bool :=
  match req.lExport, blLock.lExport with
  | none, _ => some false
  | some _, none => none
  | some reqExp, some blExp =>
    ldlmFlockDeadlockLoop env hash req reqExp (hash.length + 1) blLock.flockOwner blExp

/-! ## The conflict scan -/

/-- What the scan of `lr_granted` for conflicts comes to. -/
inductive FlockScan where
  /-- no conflict; the position of the first lock of the owner -/
  | clear (ownlocks : Option ℕ)
  /-- a new request conflicts with `lock` -/
  | blocked (lock : FlockLock)
  /-- a waiting request still conflicts -/
  | stillBlocked
  /-- a waiting request conflicts with `lock`, and waiting for it is a deadlock -/
  | deadlock (lock : FlockLock)
  deriving DecidableEq

/-- The conflict scan of `ldlm_process_flock_lock`, standing at index `i`. -/
def flockConflictScan (env : FlockEnv) (hash : List FlockLock) (req : FlockLock)
    (intention : LdlmProcessIntention) : ℕ → Option ℕ → Bool → List FlockLock → Option FlockScan
  | _, ownlocks, reprocessFailed, [] =>
    some (if reprocessFailed then .stillBlocked else .clear ownlocks)
  | i, ownlocks, reprocessFailed, lock :: rest =>
    if ldlmSameFlockOwner lock req then
      flockConflictScan env hash req intention (i + 1) (ownlocks.or (some i)) reprocessFailed rest
    else if lockmodeCompat lock.lGrantedMode req.lReqMode then
      flockConflictScan env hash req intention (i + 1) ownlocks reprocessFailed rest
    else if ¬ ldlmFlocksOverlap lock req then
      flockConflictScan env hash req intention (i + 1) ownlocks reprocessFailed rest
    else if intention = .enqueue then some (.blocked lock)
    else
      match ldlmFlockDeadlock env hash req lock with
      | none => none
      | some true => some (.deadlock lock)
      | some false => flockConflictScan env hash req intention (i + 1) ownlocks true rest

/-- The scan for the owner's first lock only, for unlocks and on clients. -/
def flockOwnScan (granted : List FlockLock) (req : FlockLock) (ownlocks : Option ℕ) : Option ℕ :=
  (granted.findIdx? fun lock => ldlmSameFlockOwner lock req).or ownlocks

/-! ## Merging with the owner's locks -/

/-- The loop that merges a request with its owner's locks. `new` is the request
or, once `linked`, the granted lock that has absorbed it; that lock stands in the
list between `left` and `mid`. -/
structure FlockMerge where
  /-- the request, which the reply reads -/
  req : FlockLock
  /-- locks passed before `new` is linked -/
  left : List FlockLock
  new : FlockLock
  /-- `new` is a granted lock -/
  linked : Bool
  /-- locks passed since -/
  mid : List FlockLock
  /-- `added`: the request itself need not be linked -/
  added : Bool
  /-- `overlaps`: locks of another mode that the request overlaps -/
  overlaps : ℕ
  /-- the locks destroyed -/
  destroyed : List ℕ
  deriving DecidableEq

namespace FlockMerge

/-- The start of the loop. -/
def init : FlockMerge :=
  ⟨req, [], req, false, [], decide (req.lReqMode = .nl), 0, []⟩

/-- The loop goes on to the next lock, leaving `lock` in the list. -/
def pass : FlockMerge :=
  if st.linked then { st with mid := st.mid ++ [lock] } else { st with left := st.left ++ [lock] }

/-- `ldlm_flock_destroy` on a lock of the list. -/
def destroy : FlockMerge :=
  { st with destroyed := st.destroyed ++ [lock.id] }

/-- `new` takes the range of the union with a lock, which then goes. -/
def extend (start stop : ℕ) : FlockMerge :=
  { st with new := st.new.setRange start stop }

/-- The request and `lock` take the range of their union, and `lock` becomes `new`. -/
def link (start stop : ℕ) : FlockMerge :=
  { st with
    req := st.new.setRange start stop
    new := lock.setRange start stop
    linked := true
    added := true }

/-- `++overlaps`. -/
def overlap : FlockMerge :=
  { st with overlaps := st.overlaps + 1 }

/-- The part of the list that has been passed. -/
def passed : List FlockLock :=
  st.left ++ (if st.linked then st.new :: st.mid else [])

end FlockMerge

/-- How the merge loop ends. In each case the list from `ownlocks` on is given. -/
inductive FlockMergeEnd where
  /-- the loop is through, or stops at the head of `rest` -/
  | done (st : FlockMerge) (rest : List FlockLock)
  /-- the lock at the head of `rest` has been split, `new2` is its first half -/
  | splitted (st : FlockMerge) (new2 : FlockLock) (rest : List FlockLock)
  /-- the lock at the head of `rest` has to be split, and there is no `new2` yet -/
  | needNew2 (st : FlockMerge) (rest : List FlockLock)
  deriving DecidableEq

/-- The first half of a split: the part of `lock` before `new`. -/
def flockNew2 (id : ℕ) (new lock : FlockLock) : FlockLock :=
  { id := id, lReqMode := lock.lGrantedMode, lGrantedMode := lock.lGrantedMode
    lExport := lock.lExport, flockOwner := new.flockOwner, flockPid := new.flockPid
    flockStart := lock.flockStart, flockEnd := sub64 new.flockStart 1
    blockingOwner := 0, blockingExport := none }

/-- The merge loop of `ldlm_process_flock_lock`; `new2` is the identity of the
lock allocated for a split. -/
def flockMergeLoop (mode : LdlmMode) (new2 : Option ℕ) : FlockMerge → List FlockLock → FlockMergeEnd
  | st, [] => .done st []
  | st, lock :: rest =>
    let new := st.new
    if ¬ ldlmSameFlockOwner lock new then .done st (lock :: rest)
    else if lock.lGrantedMode = mode then
      -- locks that overlap or adjoin, minding overflow and underflow
      if new.flockStart > u64 (lock.flockEnd + 1) ∧ lock.flockEnd ≠ obdObjectEof then
        flockMergeLoop mode new2 (st.pass lock) rest
      else if new.flockEnd < sub64 lock.flockStart 1 ∧ lock.flockStart ≠ 0 then
        .done st (lock :: rest)
      else
        let start := if new.flockStart < lock.flockStart then new.flockStart else lock.flockStart
        let stop := if new.flockEnd > lock.flockEnd then new.flockEnd else lock.flockEnd
        if st.added then
          flockMergeLoop mode new2 ((st.extend start stop).destroy lock) rest
        else flockMergeLoop mode new2 (st.link lock start stop) rest
    else if new.flockStart > lock.flockEnd then flockMergeLoop mode new2 (st.pass lock) rest
    else if new.flockEnd < lock.flockStart then .done st (lock :: rest)
    else
      let st := st.overlap
      if new.flockStart ≤ lock.flockStart then
        if new.flockEnd < lock.flockEnd then
          .done st (lock.setRange (u64 (new.flockEnd + 1)) lock.flockEnd :: rest)
        else flockMergeLoop mode new2 (st.destroy lock) rest
      else if new.flockEnd ≥ lock.flockEnd then
        flockMergeLoop mode new2
          (st.pass (lock.setRange lock.flockStart (sub64 new.flockStart 1))) rest
      else
        match new2 with
        | none => .needNew2 st (lock :: rest)
        | some id =>
          .splitted st (flockNew2 id new lock)
            (lock.setRange (u64 (new.flockEnd + 1)) lock.flockEnd :: rest)

/-! ## Processing a request -/

/-- One call of `ldlm_process_flock_lock`, for the record of a scan. -/
structure FlockCall where
  /-- the resource at the call -/
  view : FlockView
  req : FlockLock
  /-- the call granted it -/
  granted : Bool
  /-- the lock for which the call reported a deadlock -/
  deadlock : Option FlockLock
  deriving DecidableEq

/-- What `ldlm_process_flock_lock` leaves. -/
structure FlockOut where
  /-- the return value -/
  rc : LdlmIter
  /-- `*err` -/
  err : ℤ
  /-- `*flags` -/
  flags : FlockFlags
  /-- the request, with what the reply reads of it -/
  req : FlockLock
  view : FlockView
  /-- the request has been granted -/
  granted : Bool
  /-- the lock for which a deadlock was reported -/
  deadlock : Option FlockLock
  /-- the requests put on the work list for a completion AST -/
  work : List ℕ
  /-- the calls made by the scan of the waiting queue that an unlock starts -/
  calls : List FlockCall
  deriving DecidableEq

/-- `-EAGAIN`. -/
def errAgain : ℤ := -11
/-- `-ENOMEM`, the error of a failed allocation. -/
def errNomem : ℤ := -12
/-- `-EDEADLK`. -/
def errDeadlk : ℤ := -35

/-- `ldlm_flock_destroy` on locks that must not be in the hash: take them off
their list. -/
def ldlmFlockDestroy (ids : List ℕ) : Option Unit :=
  if hash.any fun l => l.id ∈ ids then none else some ()

/-- `list_del_init` on the link of a request that may be waiting. -/
def FlockView.unlinkWaiting : FlockView :=
  { v with lrWaiting := v.lrWaiting.filter fun l => l.id ≠ req.id }

/-- The request leaves without being granted. -/
def flockReject (err : ℤ) : Option FlockOut := do
  ldlmFlockDestroy v.flockHash [req.id]
  return { rc := .stop, err := err, flags := flags, req := req, view := v.unlinkWaiting req
           granted := false, deadlock := none, work := [], calls := [] }

/-- A new request conflicts with `lock`. -/
def flockBlocked : Option FlockOut :=
  if flags.blockNowait then flockReject v req flags errAgain
  else if flags.testLock then
    flockReject v { req with
      lReqMode := lock.lGrantedMode
      flockPid := lock.flockPid
      flockStart := lock.flockStart
      flockEnd := lock.flockEnd } { flags with lockChanged := true } 0
  else do
    let (req, hash) ← ldlmFlockBlockingLink v.flockHash req lock
    if ← ldlmFlockDeadlock env hash req lock then
      let out ← flockReject { v with flockHash := ldlmFlockBlockingUnlink hash req } req flags
        errDeadlk
      return { out with deadlock := some lock }
    else
      return { rc := .stop, err := 0, flags := { flags with blockGranted := true }, req := req
               view := { v with flockHash := hash, lrWaiting := v.lrWaiting ++ [req] }
               granted := false, deadlock := none, work := [], calls := [] }

/-- A waiting request still conflicts. -/
def flockStillBlocked : FlockOut :=
  { rc := .continue, err := 0, flags := flags, req := req, view := v, granted := false
    deadlock := none, work := [], calls := [] }

/-- `ldlm_flock_cancel_on_deadlock`, and the return after it. -/
def ldlmFlockCancelOnDeadlock : FlockOut :=
  if (req.lExport.map fun e => (env.obdExport e).flockDead) = some true then
    { rc := .continue, err := 0, flags := flags, req := req
      view := { v with flockHash := ldlmFlockBlockingUnlink v.flockHash req }.unlinkWaiting req
      granted := false, deadlock := some lock, work := [req.id], calls := [] }
  else { flockStillBlocked v req flags with deadlock := some lock }

/-- The scan of the waiting queue that an unlock starts. -/
structure FlockRescan where
  view : FlockView
  /-- the requests put on the work list -/
  work : List ℕ
  calls : List FlockCall
  deriving DecidableEq

/-- The granted list after the merge loop, with the request linked before
`ownlocks` if it still has to be. -/
def FlockMerge.granted (new2 rest : List FlockLock) : List FlockLock :=
  st.passed ++ new2 ++ (if st.added then [] else [req]) ++ rest

/-- The request is granted: the end of `ldlm_process_flock_lock`. `reprocess` is
the scan of the waiting queue. -/
def flockGrant (intention : LdlmProcessIntention) (pre : List FlockLock) (st : FlockMerge)
    (new2 rest : List FlockLock) : Option FlockOut := do
  let req := { st.req with lGrantedMode := st.req.lReqMode }
  ldlmFlockDestroy v.flockHash (st.destroyed ++ if st.added then [req.id] else [])
  let v := { v with lrGranted := pre ++ st.granted req new2 rest }.unlinkWaiting req
  let out : FlockOut :=
    { rc := .continue, err := 0, flags := flags, req := req, view := v, granted := true
      deadlock := none, work := [], calls := [] }
  if flags.isWaitNoreproc then return out
  else if intention = .enqueue then
    if req.lReqMode = .nl ∧ st.overlaps ≠ 0 then
      let r ← reprocess v
      return { out with view := r.view, work := r.work, calls := r.calls }
    else return out
  else return { out with work := [req.id] }

/-- The part of `ldlm_process_flock_lock` from the end of the conflict scan to its
return, or to `goto reprocess`, for which the position of `ownlocks` is given. -/
def flockMergeAndGrant (intention : LdlmProcessIntention) (new2 : Option ℕ) (ownlocks : Option ℕ) :
    Option (FlockOut ⊕ ℕ) :=
  let v := { v with flockHash := ldlmFlockBlockingUnlink v.flockHash req }
  let own := ownlocks.getD v.lrGranted.length
  let pre := v.lrGranted.take own
  match flockMergeLoop req.lReqMode new2 (.init req) (v.lrGranted.drop own) with
  | .done st rest => (flockGrant reprocess v flags intention pre st [] rest).map .inl
  | .splitted st new2 rest =>
    (flockGrant reprocess v flags intention pre st [new2] rest).map .inl
  | .needNew2 st _ => some (.inr (own + st.passed.length))

/-- From the label `reprocess` on. -/
def flockReprocess (intention : LdlmProcessIntention) (new2 : Option ℕ) (ownlocks : Option ℕ) :
    Option (FlockOut ⊕ ℕ) :=
  let go (ownlocks : Option ℕ) :=
    if flags.testLock then
      (flockReject v { req with lReqMode := .nl } { flags with lockChanged := true } 0).map .inl
    else flockMergeAndGrant reprocess v req flags intention new2 ownlocks
  if flags.isWaitNoreproc ∨ req.lReqMode = .nl then go (flockOwnScan v.lrGranted req ownlocks)
  else if req.lReqMode = .minmode then none
  else do
    match ← flockConflictScan env v.flockHash req intention 0 ownlocks false v.lrGranted with
    | .clear ownlocks => go ownlocks
    | .blocked lock => (flockBlocked env v req flags lock).map .inl
    | .stillBlocked => return .inl (flockStillBlocked v req flags)
    | .deadlock lock => return .inl (ldlmFlockCancelOnDeadlock env v req flags lock)

/-- `ldlm_process_flock_lock`. `alloc` says whether the second half of a split
could be allocated. The completion ASTs of the scan do not return `-ERESTART`: the
`goto restart` for a client that fails to answer one is left out. -/
def ldlmProcessFlockLock (alloc : Bool) (v : FlockView) (req : FlockLock) (flags : FlockFlags)
    (intention : LdlmProcessIntention) : Option FlockOut := do
  match ← flockReprocess env reprocess v req flags intention none none with
  | .inl out => return out
  | .inr ownlocks =>
    let v := { v with flockHash := ldlmFlockBlockingUnlink v.flockHash req }
    if ¬ alloc then flockReject v req flags errNomem
    else
      let new2 := v.nextId
      let v := { v with nextId := v.nextId + 1 }
      match ← flockReprocess env reprocess v req flags intention (some new2) (some ownlocks) with
      | .inl out => return out
      | .inr _ => none

/-- The loop of `ldlm_reprocess_queue`. A call from here never scans the queue
itself. `alloc` says for which requests the second half of a split can be
allocated. -/
def ldlmReprocessQueue (env : FlockEnv) (alloc : ℕ → Bool) :
    FlockView → List FlockLock → Option FlockRescan
  | v, [] => some ⟨v, [], []⟩
  | v, pending :: queue => do
    let out ← ldlmProcessFlockLock env (fun v => some ⟨v, [], []⟩) (alloc pending.id) v pending
      FlockFlags.zero .rescan
    let call : FlockCall := ⟨v, pending, out.granted, out.deadlock⟩
    if out.rc = .continue then
      let r ← ldlmReprocessQueue env alloc out.view queue
      return ⟨r.view, out.work ++ r.work, call :: r.calls⟩
    else return ⟨out.view, out.work, [call]⟩

/-- A call of `ldlm_process_flock_lock` for a new request on the server. -/
def ldlmEnqueueFlock (alloc : ℕ → Bool) (v : FlockView) (req : FlockLock) (flags : FlockFlags) :
    Option FlockOut :=
  ldlmProcessFlockLock env (fun v => ldlmReprocessQueue env alloc v v.lrWaiting) (alloc req.id) v
    req flags .enqueue

end Lustre
