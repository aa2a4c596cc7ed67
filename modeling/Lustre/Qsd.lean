import Lustre.Qmt

/-!
# The quota slave

A slave keeps for an identifier the quota space it was granted, what is used on disk and
what is about to be written. A writer is admitted by `qsd_acquire_local` when its space
fits into the grant without what is being released, `lqe_granted - lqe_pending_rel`. One
request to the master can be in flight; `qsd_req_completion` takes its reply in two
sections of the lock, the first of which changes `lqe_granted`, the second clears
`lqe_pending_rel`.

Between the two sections of a release the difference wraps. In every run in which no
writer asks in that window, and no sum of the counters overflows, a writer that is admitted
fits into what the slave owns (`qsd_acquireLocal_owned`).
-/

namespace Lustre

/-! ## The entry of an identifier -/

/-- `struct lquota_entry` on a slave -/
structure QsdLqe where
  lqeEnforced : Bool
  lqeEdquot : Bool
  lqeNopreacq : Bool
  /-- whether `lqe_lockh` is in use -/
  lqeLockh : Bool
  lqeGranted : U64
  lqeUsage : U64
  lqePendingWrite : U64
  lqeWaitingWrite : U64
  lqePendingRel : U64
  lqePendingReq : ℕ
  lqeQunit : U64
  lqeQtune : U64
  lqeEdquotTime : ℤ
  lqeAcqRc : ℤ
  lqeAcqTime : ℤ

/-- `struct quota_body` of a request -/
structure QuotaBody where
  /-- `QUOTA_DQACQ_FL_ACQ` -/
  acq : Bool
  /-- `QUOTA_DQACQ_FL_PREACQ` -/
  preacq : Bool
  /-- `QUOTA_DQACQ_FL_REL` -/
  rel : Bool
  /-- `QUOTA_DQACQ_FL_REPORT` -/
  rep : Bool
  qbCount : U64
  qbUsage : U64

/-- A request that releases `count`. -/
def QuotaBody.release (count : U64) : QuotaBody := ⟨false, false, true, false, count, 0⟩

variable (s : QsdState) (lqe : QsdLqe) (req : QuotaBody) (rep : QsdReply)

/-- `qsd_request_enter`: `none` is its `LBUG`, the inner `none` is `-EBUSY` -/
def qsdRequestEnter : Option (Option QsdLqe) :=
  if lqe.lqePendingReq ≠ 0 then some none
  else if lqe.lqePendingRel ≠ 0 then none
  else some (some { lqe with lqePendingReq := lqe.lqePendingReq + 1 })

/-- `qsd_request_exit`, `none` for its `LBUG` -/
def qsdRequestExit : Option QsdLqe :=
  if lqe.lqePendingReq ≠ 1 then none
  else some { lqe with lqePendingReq := lqe.lqePendingReq - 1, lqePendingRel := 0 }

/-- What the writers use and wait for, as `qsd_calc_adjust` adds it up. -/
def QsdLqe.wanted : U64 :=
  lqe.lqeUsage + (lqe.lqePendingWrite + lqe.lqeWaitingWrite)

/-- How much `qsd_calc_adjust` releases when it owns a unit more than is used. -/
def qsdSpare : U64 :=
  if lqe.wanted = 0 then lqe.lqeGranted - lqe.wanted
  else
    let count := lqe.lqeGranted - lqe.wanted - lqe.lqeQunit
    if count < lqe.lqeQtune then lqe.lqeQtune else count

/-- `qsd_calc_adjust` with the per-ID lock: report an overrun, pre-acquire, or both -/
def qsdCalcPreacq : Option QuotaBody :=
  let overuse := decide (lqe.lqeGranted < lqe.lqeUsage)
  let granted := if overuse then lqe.lqeUsage else lqe.lqeGranted
  let usage := if overuse then lqe.lqeUsage else 0
  if !lqe.lqeEdquot && !lqe.lqeNopreacq && 0 < lqe.wanted && lqe.lqeQunit != 0 &&
      granted < lqe.wanted + lqe.lqeQtune then
    some ⟨false, true, false, overuse, if granted ≤ lqe.wanted then 0 else granted - lqe.wanted, usage⟩
  else if overuse then some ⟨false, false, false, true, 0, usage⟩
  else none

/-- `qsd_calc_adjust`: the request, if there is something to adjust -/
def qsdCalcAdjust : Option QuotaBody :=
  if !lqe.lqeEnforced then
    if lqe.lqeGranted ≠ 0 then some (.release lqe.lqeGranted) else none
  else if !lqe.lqeLockh then
    if lqe.wanted = 0 then
      if lqe.lqeGranted ≠ 0 then some (.release lqe.lqeGranted) else none
    else if lqe.lqeUsage < lqe.lqeGranted then some ⟨true, false, false, false, 0, 0⟩
    else if lqe.lqeGranted < lqe.lqeUsage then some ⟨false, false, false, true, 0, lqe.lqeUsage⟩
    else none
  else if lqe.wanted + lqe.lqeQunit < lqe.lqeGranted then some (.release (qsdSpare lqe))
  else qsdCalcPreacq lqe

def qsdCalcAcquire : Option QuotaBody :=
  let overuse := decide (lqe.lqeGranted < lqe.lqeUsage)
  let granted := if overuse then lqe.lqeUsage else lqe.lqeGranted
  let usage := if overuse then lqe.lqeUsage else 0
  if granted < lqe.wanted then some ⟨true, false, false, overuse, lqe.wanted - granted, usage⟩
  else if overuse then some ⟨false, false, false, true, 0, usage⟩
  else none

/-- `-EAGAIN` -/
def eagain : ℤ := -11

/-- `qsd_acquire_local`, `now` is `ktime_get_seconds` -/
def qsdAcquireLocal (space : U64) (now : ℤ) : ℤ × QsdLqe :=
  if !lqe.lqeEnforced then (esrch, lqe)
  else
    let usage := lqe.lqeUsage + lqe.lqePendingWrite
    if space + usage ≤ lqe.lqeGranted - lqe.lqePendingRel then
      (0, { lqe with
        lqePendingWrite := lqe.lqePendingWrite + space
        lqeWaitingWrite := lqe.lqeWaitingWrite - space })
    else if lqe.lqeEdquot && now - 5 < lqe.lqeEdquotTime then (edquot, lqe)
    else (eagain, lqe)

/-- The quarter, the eighth or the cap that `qsd_set_qunit` takes for `lqe_qtune`. -/
def qsdQtune (qunit : U64) : U64 :=
  if qunit = 0 then 0
  else if qunit = 1024 then qunit >>> 1
  else if qunit ≤ 1024 * 1024 then qunit >>> 2
  else if qunit ≤ 4 * 1024 * 1024 then qunit >>> 3
  else 1024 * 1024

def qsdSetQunit (qunit : U64) : QsdLqe :=
  if lqe.lqeQunit = qunit then lqe
  else { lqe with lqeQunit := qunit, lqeQtune := qsdQtune qunit, lqeNopreacq := false }

def qsdSetEdquot (exceeded : Bool) (now : ℤ) : QsdLqe :=
  { lqe with lqeEdquot := exceeded, lqeEdquotTime := if exceeded then now else lqe.lqeEdquotTime }

/-! ## The completion of a request -/

/-- What the completion of a request is called with. -/
structure QsdReply where
  /-- the return code -/
  ret : ℤ
  /-- `qb_count` and `qb_qunit` of the reply, if there is one -/
  body : Option (U64 × U64)
  /-- `lvb_id_qunit` and the `LQUOTA_FL_EDQUOT` of the lock value block, if there is one -/
  lvb : Option (U64 × Bool)
  /-- whether `lockh` is in use -/
  lockh : Bool
  /-- `ktime_get_seconds` -/
  now : ℤ

/-- `qb_count` of the reply, `0` without one -/
def QsdReply.count : U64 := rep.body.elim 0 fun b => b.1

/-- Whether the master may have changed the grant, for all the return code says. -/
def QsdReply.served : Bool :=
  rep.ret == 0 || rep.ret == edquot || rep.ret == einprogress

/-- The grant after a reply, in the first section of `qsd_req_completion`. -/
def qsdUpdateGranted (count : U64) : QsdLqe :=
  if req.rel then
    if lqe.lqeGranted < count then { lqe with lqeGranted := 0 }
    else { lqe with lqeGranted := lqe.lqeGranted - count }
  else { lqe with lqeGranted := lqe.lqeGranted + count }

/-- The unit and the flag that the reply brings. -/
def qsdExtract : QsdLqe :=
  match rep.ret == 0, rep.lvb, rep.body with
  | true, some lvb, _ =>
    qsdSetEdquot (if lvb.1 ≠ 0 then qsdSetQunit lqe lvb.1 else lqe) lvb.2 rep.now
  | _, _, some body => if body.2 ≠ 0 then qsdSetQunit lqe body.2 else lqe
  | _, _, none => lqe

/-- `qsd_req_completion` from `out` on -/
def qsdOut : Option QsdLqe :=
  qsdRequestExit (if req.acq && rep.ret != edquot then
    { lqe with lqeAcqRc := rep.ret, lqeAcqTime := rep.now } else lqe)

/-- `qsd_req_completion` after the update of the grant -/
def qsdFinish : Option QsdLqe :=
  let lqe := qsdExtract lqe rep
  qsdOut (if req.preacq && rep.ret == edquot then { lqe with lqeNopreacq := true } else lqe) req rep

/-! ## Runs -/

/-- Where the request in flight is. -/
inductive QsdPhase where
  | idle
  | inFlight (req : QuotaBody)
  /-- its completion has changed the grant and dropped the lock -/
  | window (req : QuotaBody) (rep : QsdReply)

/-- An entry and its request. -/
structure QsdState where
  lqe : QsdLqe
  phase : QsdPhase

/-- A section of the lock. -/
inductive QsdOp where
  /-- a writer starts to wait, in `qsd_op_begin0` -/
  | wait (space : U64)
  /-- `qsd_acquire_local` -/
  | acquireLocal (space : U64) (now : ℤ)
  /-- a writer gives up, in `qsd_op_begin0` -/
  | giveUp (space : U64)
  /-- `qsd_refresh_usage` -/
  | refresh (usage : U64)
  /-- a writer has finished, in `qsd_op_end0` -/
  | opEnd (space : U64)
  /-- `qsd_adjust`; `noLock` says that no per-ID lock was found -/
  | adjust (noLock : Bool)
  /-- `qsd_acquire_remote` -/
  | acquireRemote (now : ℤ)
  /-- the first section of `qsd_req_completion` -/
  | completion (rep : QsdReply)
  /-- `qsd_req_completion` without an environment -/
  | noEnv
  /-- the second section of `qsd_req_completion` -/
  | finish

/-- `qsd_adjust` and `qsd_acquire_remote` send a request, unless one is in flight. -/
def qsdSend (pendingRel : U64) : Option QsdState :=
  (qsdRequestEnter s.lqe).map fun entered => match entered with
    | none => s
    | some lqe => ⟨{ lqe with lqePendingRel := pendingRel }, .inFlight req⟩

/-- A pre-acquisition without a lock only reports. -/
def QuotaBody.withoutLock (noLock : Bool) : QuotaBody :=
  if noLock && req.preacq && req.rep then { req with preacq := false } else req

/-- The sections of the lock, one at a time. -/
def qsdStep : QsdOp → Option QsdState
  | .wait space =>
    some { s with lqe := { s.lqe with lqeWaitingWrite := s.lqe.lqeWaitingWrite + space } }
  | .acquireLocal space now => some { s with lqe := (qsdAcquireLocal s.lqe space now).2 }
  | .giveUp space =>
    some { s with lqe := { s.lqe with lqeWaitingWrite := s.lqe.lqeWaitingWrite - space } }
  | .refresh usage => some { s with lqe := { s.lqe with lqeUsage := usage } }
  | .opEnd space =>
    some { s with lqe := { s.lqe with lqePendingWrite := s.lqe.lqePendingWrite - space } }
  | .adjust noLock => match qsdCalcAdjust s.lqe with
    | none => some s
    | some req => qsdSend s (req.withoutLock noLock)
        (if req.rel then req.qbCount else s.lqe.lqePendingRel)
  | .acquireRemote now =>
    if !s.lqe.lqeEnforced then some s
    else match qsdCalcAcquire s.lqe with
      | none => some s
      | some req =>
        if s.lqe.lqeAcqRc ≠ 0 ∧ now - 1 < s.lqe.lqeAcqTime then some s
        else qsdSend s req s.lqe.lqePendingRel
  | .completion rep => match s.phase with
    | .inFlight req =>
      if !rep.served then (qsdOut s.lqe req rep).map fun lqe => ⟨lqe, .idle⟩
      else
        let lqe := { s.lqe with lqeLockh := s.lqe.lqeLockh || rep.lockh }
        if rep.count ≠ 0 then some ⟨qsdUpdateGranted lqe req rep.count, .window req rep⟩
        else (qsdFinish lqe req rep).map fun lqe => ⟨lqe, .idle⟩
    | _ => none
  | .noEnv => match s.phase with
    | .inFlight _ => (qsdRequestExit s.lqe).map fun lqe => ⟨lqe, .idle⟩
    | _ => none
  | .finish => match s.phase with
    | .window req rep => (qsdFinish s.lqe req rep).map fun lqe => ⟨lqe, .idle⟩
    | _ => none

/-- Whether the completion of a release has dropped the lock. -/
def QsdPhase.releasing : QsdPhase → Bool
  | .window req _ => req.rel
  | _ => false

/-- No writer asks while the completion of a release has dropped the lock, and the counters that
are added up stay below `2 ^ 64`. -/
def QsdSpared : QsdOp → Prop
  | .acquireLocal space _ => s.phase.releasing = false ∧
      space.toNat + s.lqe.lqeUsage.toNat + s.lqe.lqePendingWrite.toNat < 2 ^ 64
  | .adjust _ => s.lqe.lqeUsage.toNat + s.lqe.lqePendingWrite.toNat + s.lqe.lqeWaitingWrite.toNat +
      s.lqe.lqeQunit.toNat < 2 ^ 64
  | _ => True

instance (op : QsdOp) : Decidable (QsdSpared s op) := by
  cases op <;> dsimp only [QsdSpared] <;> infer_instance

/-! ## What is being released is owned -/

theorem qsdQtune_le (qunit : U64) : qsdQtune qunit ≤ qunit := by
  have hshift : ∀ n : ℕ, qunit >>> n ≤ qunit := by
    intro n
    exact Nat.shiftRight_le _ _
  rw [qsdQtune]
  split_ifs with h0 h1 h2 h3
  · rw [h0]
    exact BitVec.le_refl _
  · exact hshift _
  · exact hshift _
  · exact hshift _
  · bv_omega

variable {lqe : QsdLqe}

/-- The unit is at least the quantum, also after a change. -/
theorem qsdSetQunit_tune (h : lqe.lqeQtune ≤ lqe.lqeQunit) (qunit : U64) :
    (qsdSetQunit lqe qunit).lqeQtune ≤ (qsdSetQunit lqe qunit).lqeQunit := by
  rw [qsdSetQunit]
  split
  · exact h
  · exact qsdQtune_le qunit

variable {req : QuotaBody}

theorem qsdCalcPreacq_rel (h : qsdCalcPreacq lqe = some req) : req.rel = false := by
  rw [qsdCalcPreacq] at h
  split_ifs at h <;> obtain rfl := Option.some.inj h <;> rfl

/-- A request to release asks for what is owned. -/
theorem qsdCalcAdjust_rel_le (htune : lqe.lqeQtune ≤ lqe.lqeQunit)
    (hsum : lqe.lqeUsage.toNat + lqe.lqePendingWrite.toNat + lqe.lqeWaitingWrite.toNat +
      lqe.lqeQunit.toNat < 2 ^ 64) (h : qsdCalcAdjust lqe = some req)
    (hrel : req.rel = true) : req.qbCount ≤ lqe.lqeGranted := by
  rw [qsdCalcAdjust] at h
  split_ifs at h with _ _ _ _ _ _ _ hover
  · cases h
    exact BitVec.le_refl _
  · cases h
    exact BitVec.le_refl _
  · cases h
    cases hrel
  · cases h
    cases hrel
  · cases h
    have hwanted : lqe.wanted.toNat =
        lqe.lqeUsage.toNat + lqe.lqePendingWrite.toNat + lqe.lqeWaitingWrite.toNat := by
      rw [QsdLqe.wanted, BitVec.toNat_add, BitVec.toNat_add]
      omega
    show qsdSpare lqe ≤ lqe.lqeGranted
    rw [qsdSpare]
    dsimp only
    split_ifs
    · bv_omega
    · bv_omega
    · bv_omega
  · rw [qsdCalcPreacq_rel h] at hrel
    cases hrel

/-! ## The invariant -/

/-- What is accounted for the request in flight. -/
def QsdPhase.Accounted (lqe : QsdLqe) : QsdPhase → Prop
  | .idle => lqe.lqePendingReq = 0 ∧ lqe.lqePendingRel = 0
  | .inFlight req => lqe.lqePendingReq = 1 ∧ lqe.lqePendingRel ≤ lqe.lqeGranted ∧
      (req.rel = false → lqe.lqePendingRel = 0)
  | .window req _ => lqe.lqePendingReq = 1 ∧ (req.rel = false → lqe.lqePendingRel = 0)

/-- The invariant of a run. -/
structure QsdInv (s : QsdState) : Prop where
  /-- the quantum is at most the unit -/
  tune : s.lqe.lqeQtune ≤ s.lqe.lqeQunit
  /-- the request -/
  accounted : s.phase.Accounted s.lqe

/-- Outside of the window what is being released is owned. -/
theorem QsdInv.rel_le {s : QsdState} (h : QsdInv s) (hphase : s.phase.releasing = false) :
    s.lqe.lqePendingRel ≤ s.lqe.lqeGranted := by
  have hacc := h.accounted
  cases hp : s.phase with
  | idle =>
    rw [hp] at hacc
    rw [hacc.2]
    bv_omega
  | inFlight req =>
    rw [hp] at hacc
    exact hacc.2.1
  | window req rep =>
    rw [hp] at hacc hphase
    rw [hacc.2 hphase]
    bv_omega

variable {lqe lqe' : QsdLqe}

/-- The counters that the accounting of a request does not read. -/
theorem QsdPhase.Accounted.congr {phase : QsdPhase}
    (h : phase.Accounted lqe) (hreq : lqe'.lqePendingReq = lqe.lqePendingReq)
    (hrel : lqe'.lqePendingRel = lqe.lqePendingRel) (hgranted : lqe'.lqeGranted = lqe.lqeGranted) :
    phase.Accounted lqe' := by
  cases phase with
  | idle => exact ⟨hreq.trans h.1, hrel.trans h.2⟩
  | inFlight req =>
    refine ⟨hreq.trans h.1, ?_, fun hr => hrel.trans (h.2.2 hr)⟩
    rw [hrel, hgranted]
    exact h.2.1
  | window req rep => exact ⟨hreq.trans h.1, fun hr => hrel.trans (h.2 hr)⟩

variable {s s' : QsdState}

theorem QsdInv.send (h : QsdInv s) {pendingRel : U64} (hrel : pendingRel ≤ s.lqe.lqeGranted)
    (hzero : s.lqe.lqePendingRel = 0 → req.rel = false → pendingRel = 0)
    (hs : qsdSend s req pendingRel = some s') : QsdInv s' := by
  obtain ⟨entered, henter, rfl⟩ := Option.map_eq_some_iff.mp hs
  rw [qsdRequestEnter] at henter
  split_ifs at henter with hreq hpending
  · cases henter
    exact h
  · cases henter
    refine ⟨h.tune, ?_, hrel, hzero (not_not.mp hpending)⟩
    show s.lqe.lqePendingReq + 1 = 1
    omega

/-- A request that releases nothing is sent. -/
theorem QsdInv.sendSame (h : QsdInv s)
    (hs : qsdSend s req s.lqe.lqePendingRel = some s') : QsdInv s' := by
  by_cases hzero : s.lqe.lqePendingRel = 0
  · refine h.send ?_ (fun _ _ => hzero) hs
    bv_omega
  · -- something is being released: there is a request in flight, and this one is not sent
    obtain ⟨entered, henter, rfl⟩ := Option.map_eq_some_iff.mp hs
    rw [qsdRequestEnter] at henter
    split_ifs at henter
    cases henter
    exact h

theorem qsdRequestExit_inv (htune : lqe.lqeQtune ≤ lqe.lqeQunit)
    (h : qsdRequestExit lqe = some lqe') : QsdInv ⟨lqe', .idle⟩ := by
  rw [qsdRequestExit] at h
  split_ifs at h with hreq
  cases h
  refine ⟨htune, ?_, rfl⟩
  show lqe.lqePendingReq - 1 = 0
  omega

variable {rep : QsdReply}

section

variable (htune : lqe.lqeQtune ≤ lqe.lqeQunit)
include htune

theorem qsdOut_inv (h : qsdOut lqe req rep = some lqe') : QsdInv ⟨lqe', .idle⟩ := by
  refine qsdRequestExit_inv ?_ h
  split <;> exact htune

theorem qsdExtract_tune : (qsdExtract lqe rep).lqeQtune ≤ (qsdExtract lqe rep).lqeQunit := by
  rw [qsdExtract]
  split
  · split_ifs
    · exact qsdSetQunit_tune htune _
    · exact htune
  · split_ifs
    · exact qsdSetQunit_tune htune _
    · exact htune
  · exact htune

theorem qsdFinish_inv (h : qsdFinish lqe req rep = some lqe') : QsdInv ⟨lqe', .idle⟩ := by
  refine qsdOut_inv ?_ h
  split <;> exact qsdExtract_tune htune

end

theorem QsdInv.completion (h : QsdInv s)
    (hs : qsdStep s (.completion rep) = some s') : QsdInv s' := by
  rw [qsdStep] at hs
  split at hs
  · next req hphase =>
    have hacc := h.accounted
    rw [hphase] at hacc
    split_ifs at hs
    · obtain ⟨lqe, hout, rfl⟩ := Option.map_eq_some_iff.mp hs
      exact qsdOut_inv h.tune hout
    · cases hs
      dsimp only [qsdUpdateGranted]
      split_ifs <;> exact ⟨h.tune, hacc.1, hacc.2.2⟩
    · obtain ⟨lqe, hfinish, rfl⟩ := Option.map_eq_some_iff.mp hs
      refine qsdFinish_inv ?_ hfinish
      exact h.tune
  · cases hs

theorem QsdInv.adjust (h : QsdInv s) {noLock : Bool}
    (hspared : QsdSpared s (.adjust noLock)) (hs : qsdStep s (.adjust noLock) = some s') :
    QsdInv s' := by
  rw [qsdStep] at hs
  split at hs
  · cases hs
    exact h
  · next req hreq =>
    have hflag : (req.withoutLock noLock).rel = req.rel := by
      rw [QuotaBody.withoutLock]
      split <;> rfl
    cases hrel : req.rel with
    | true =>
      rw [hrel, if_pos rfl] at hs
      refine h.send (qsdCalcAdjust_rel_le h.tune hspared hreq hrel) (fun _ hr => ?_) hs
      rw [hflag, hrel] at hr
      cases hr
    | false =>
      rw [hrel, if_neg Bool.false_ne_true] at hs
      exact h.sendSame hs

theorem QsdInv.step (h : QsdInv s) {op : QsdOp} (hspared : QsdSpared s op)
    (hs : qsdStep s op = some s') : QsdInv s' := by
  have hsame : ∀ lqe' : QsdLqe, lqe'.lqeQtune = s.lqe.lqeQtune → lqe'.lqeQunit = s.lqe.lqeQunit →
      lqe'.lqePendingReq = s.lqe.lqePendingReq → lqe'.lqePendingRel = s.lqe.lqePendingRel →
      lqe'.lqeGranted = s.lqe.lqeGranted → QsdInv { s with lqe := lqe' } :=
    fun lqe' htune hunit hreq hrel hgranted =>
      ⟨by rw [htune, hunit]; exact h.tune, h.accounted.congr hreq hrel hgranted⟩
  cases op with
  | wait space | giveUp space | refresh usage | opEnd space =>
    cases hs
    exact hsame _ rfl rfl rfl rfl rfl
  | acquireLocal space now =>
    cases hs
    dsimp only [qsdAcquireLocal]
    split_ifs
    all_goals exact hsame _ rfl rfl rfl rfl rfl
  | adjust noLock => exact h.adjust hspared hs
  | acquireRemote now =>
    rw [qsdStep] at hs
    split at hs
    · cases hs
      exact h
    split at hs
    · cases hs
      exact h
    · split at hs
      · cases hs
        exact h
      · exact h.sendSame hs
  | completion rep => exact h.completion hs
  | noEnv =>
    rw [qsdStep] at hs
    split at hs
    · obtain ⟨lqe, hexit, rfl⟩ := Option.map_eq_some_iff.mp hs
      exact qsdRequestExit_inv h.tune hexit
    · cases hs
  | finish =>
    rw [qsdStep] at hs
    split at hs
    · obtain ⟨lqe, hfinish, rfl⟩ := Option.map_eq_some_iff.mp hs
      exact qsdFinish_inv h.tune hfinish
    · cases hs

/-- An admitted writer fits into what the slave owns. -/
theorem QsdInv.acquireLocal {s : QsdState} (h : QsdInv s) {space : U64} {now : ℤ} {lqe' : QsdLqe}
    (hspared : QsdSpared s (.acquireLocal space now))
    (hret : qsdAcquireLocal s.lqe space now = (0, lqe')) :
    lqe'.lqePendingRel ≤ lqe'.lqeGranted ∧ lqe'.lqeUsage.toNat + lqe'.lqePendingWrite.toNat ≤
      lqe'.lqeGranted.toNat - lqe'.lqePendingRel.toNat := by
  obtain ⟨hphase, hsum⟩ := hspared
  have hrel := h.rel_le hphase
  rw [qsdAcquireLocal] at hret
  dsimp only at hret
  split at hret
  · cases congrArg Prod.fst hret
  split at hret
  · next hfits =>
    cases hret
    refine ⟨hrel, ?_⟩
    bv_omega
  split at hret
  · cases congrArg Prod.fst hret
  · cases congrArg Prod.fst hret

/-- In every run of the slave's entry, in which no writer asks while the completion of a release
has dropped the lock and the counters do not overflow, a writer for which `qsd_acquire_local`
returns `0` fits into the grant without what is being released: `lqe_granted - lqe_pending_rel`
does not wrap. -/
theorem qsd_acquireLocal_owned {s₀ s : QsdState} (h₀ : QsdInv s₀)
    (hrun : Reach qsdStep QsdSpared s₀ s) {space : U64} {now : ℤ} {lqe' : QsdLqe}
    (hspared : QsdSpared s (.acquireLocal space now))
    (hret : qsdAcquireLocal s.lqe space now = (0, lqe')) :
    lqe'.lqePendingRel ≤ lqe'.lqeGranted ∧ lqe'.lqeUsage.toNat + lqe'.lqePendingWrite.toNat ≤
      lqe'.lqeGranted.toNat - lqe'.lqePendingRel.toNat :=
  (hrun.invariant QsdInv h₀ fun _ _ _ h hok hs => h.step hok hs).acquireLocal hspared hret

/-- An entry that owns `10`, with nothing used, the per-ID lock and a unit of `1`. -/
def exampleSlave : QsdState :=
  ⟨⟨true, false, false, true, 10, 0, 0, 0, 0, 0, 1, 0, 0, 0, 0⟩, .idle⟩

/-- The master has taken the release of `10`. -/
def exampleReleased : QsdReply := ⟨0, some (10, 0), none, false, 0⟩

/-- … of which `4` are being written and `5` are being released. -/
def exampleReleasing : QsdState :=
  ⟨⟨true, false, false, true, 10, 0, 4, 0, 5, 1, 1, 0, 0, 0, 0⟩, .inFlight (.release 5)⟩

/-- A writer of `1` is admitted there. -/
theorem qsd_acquireLocal_owned_one : ∃ lqe', qsdAcquireLocal exampleReleasing.lqe 1 0 = (0, lqe') ∧
    (lqe'.lqePendingRel ≤ lqe'.lqeGranted ∧ lqe'.lqeUsage.toNat + lqe'.lqePendingWrite.toNat ≤
      lqe'.lqeGranted.toNat - lqe'.lqePendingRel.toNat) := by
  have hinv : QsdInv exampleSlave := ⟨by decide, rfl, rfl⟩
  have hrun : Reach qsdStep QsdSpared exampleSlave exampleReleasing :=
    .step (.adjust false) (.step (.acquireLocal 4 0) (.step (.wait 4) .start trivial rfl)
      (by decide) rfl) (by decide) rfl
  have hspared : QsdSpared exampleReleasing (.acquireLocal 1 0) := by decide
  exact ⟨_, rfl, qsd_acquireLocal_owned hinv hrun hspared rfl⟩

/-- The release of everything is completed: before its `lqe_pending_rel` is cleared, a writer is
admitted although the slave owns nothing. -/
theorem qsd_acquireLocal_unowned : ¬ ∀ s, Reach qsdStep (fun _ _ => True) exampleSlave s →
    ∀ space now lqe', qsdAcquireLocal s.lqe space now = (0, lqe') →
      lqe'.lqePendingRel ≤ lqe'.lqeGranted ∧ lqe'.lqeUsage.toNat + lqe'.lqePendingWrite.toNat ≤
        lqe'.lqeGranted.toNat - lqe'.lqePendingRel.toNat := fun hall => by
  have hrun : Reach qsdStep (fun _ _ => True) exampleSlave _ :=
    .step (.completion exampleReleased) (.step (.adjust false) .start trivial rfl) trivial rfl
  exact absurd (hall _ hrun 4 0 _ rfl).1 (by decide)

end Lustre
