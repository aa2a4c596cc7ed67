import Lustre.Run
import Lustre.Ledger
import Mathlib.Algebra.BigOperators.Fin
import Mathlib.Data.BitVec

/-!
# The quota master

The master keeps for an identifier how much quota space it has granted in all
(`lqe_granted`), a record of it in the global index, and for every slave a record of what
this slave was granted in the slave's index. `qmt_dqacq0` serves a request of a slave: it
takes a snapshot of the settings when it starts its transaction, and under the write lock
of the entry it decides how much is granted or released and writes the two indexes. When a
write fails it puts the snapshot back.

The total is the sum of the slaves' records in every run in which a request whose write
fails finds `lqe_granted` under the lock as it was in its snapshot
(`qmt_granted_sum`); a request of another slave in between is lost from the total
(`qmt_granted_lost`).
-/

namespace Lustre

abbrev U64 := BitVec 64

/-! ## The entry of an identifier -/

/-- The constants of a pool, `struct qmt_pool_info`. -/
structure QmtPool where
  qpiLeastQunit : U64
  qpiSoftLeastQunit : U64
  /-- whether the pool is one of blocks, `LQUOTA_RES_DT` -/
  isDt : Bool
  /-- `qpi_slv_nr` of the quota type -/
  qpiSlvNr : ℕ
  /-- `qmt_lqe_grace` -/
  grace : U64

/-- `struct lquota_entry` on the master -/
structure Lqe where
  /-- whether the identifier is `0` -/
  isRoot : Bool
  lqeEnforced : Bool
  lqeEdquot : Bool
  lqeHardlimit : U64
  lqeSoftlimit : U64
  lqeGracetime : U64
  lqeGranted : U64
  lqeQunit : U64
  lqeRevokeTime : U64
  lqeMayRel : U64

/-- The clocks a request reads. -/
structure QmtClock where
  /-- `ktime_get_real_seconds` -/
  now : U64
  /-- `ktime_get_seconds` -/
  seconds : U64

section Entry

variable (pool : QmtPool) (lqe : Lqe) (clock : QmtClock)

def qmtHardExhausted : Bool :=
  lqe.lqeHardlimit != 0 && lqe.lqeHardlimit ≤ lqe.lqeGranted

def qmtSoftExhausted (now : U64) : Bool :=
  lqe.lqeSoftlimit != 0 && lqe.lqeSoftlimit < lqe.lqeGranted && lqe.lqeGracetime != 0 &&
    lqe.lqeGracetime ≤ now

def qmtSpaceExhausted (now : U64) : Bool :=
  qmtHardExhausted lqe || qmtSoftExhausted lqe now

/-- Whether `qmt_adjust_edquot` sets the flag of an entry that has no space left:
`QMT_REBA_TIMEOUT` is `2`, and `time64_t` is signed. -/
def qmtGiveUp : Bool :=
  if qmtHardExhausted lqe || !pool.isDt then
    lqe.lqeQunit == pool.qpiLeastQunit && lqe.lqeRevokeTime != 0 &&
      !(lqe.lqeMayRel != 0 && (clock.seconds - 2).slt lqe.lqeRevokeTime)
  else lqe.lqeQunit ≤ pool.qpiSoftLeastQunit

def qmtAdjustEdquot : Lqe :=
  if !lqe.lqeEnforced || lqe.isRoot then lqe
  else if !lqe.lqeEdquot then
    if qmtSpaceExhausted lqe clock.now && qmtGiveUp pool lqe clock then
      { lqe with lqeEdquot := true }
    else lqe
  else if qmtSpaceExhausted lqe clock.now ||
      (lqe.lqeHardlimit != 0 && lqe.lqeHardlimit < lqe.lqeGranted + pool.qpiLeastQunit) then lqe
  else { lqe with lqeEdquot := false }

/-- `qmt_calc_softlimit`: the limit, and whether it is over the soft limit -/
def qmtCalcSoftlimit : U64 × Bool :=
  if !pool.isDt then (lqe.lqeSoftlimit, false)
  else if lqe.lqeGranted ≤ lqe.lqeSoftlimit + pool.qpiSoftLeastQunit then (lqe.lqeSoftlimit, false)
  else if lqe.lqeHardlimit != 0 then (lqe.lqeHardlimit, true)
  else (0, true)

def minT (x y : U64) : U64 := if x < y then x else y

/-- `(slv_cnt * qunit) >> 1` -/
def qmtHalf (qunit : U64) : U64 := (BitVec.ofNat 64 pool.qpiSlvNr * qunit) >>> 1

/-- The loop of `qmt_alloc_expand`. Every round that goes on divides `qunit` by four, so after
`32` of them it is `0` and the loop has ended. -/
def qmtAllocExpandLoop (pool : QmtPool) (spare : U64) : ℕ → U64 → U64 → U64 → U64
  | 0, _, _, _ => 0
  | fuel + 1, qunit, granted, remaining =>
    if qunit ≤ spare then 0
    else
      let granted := granted &&& (qunit - 1)
      let fits := qmtHalf pool qunit < remaining
      if !fits && qunit != pool.qpiLeastQunit then
        let qunit := qunit >>> 2
        if pool.qpiLeastQunit ≤ qunit then
          qmtAllocExpandLoop pool spare fuel qunit granted remaining
        else 0
      else
        let remaining := if fits then remaining - qmtHalf pool qunit else remaining
        let granted := granted &&& (qunit - 1)
        if 0 < spare then minT (qunit - spare) remaining else minT (qunit - granted) remaining

/-- What `qmt_alloc_expand` may share out in all. -/
def qmtRemaining : U64 :=
  if lqe.lqeSoftlimit != 0 then
    let remaining := (qmtCalcSoftlimit pool lqe).1
    if remaining == 0 then lqe.lqeGranted + pool.qpiSoftLeastQunit else remaining
  else lqe.lqeHardlimit

/-- `qmt_alloc_expand`, `none` for its `LASSERT` -/
def qmtAllocExpand (granted spare : U64) : Option U64 :=
  if !lqe.lqeEnforced || lqe.lqeQunit == 0 then none
  else if qmtRemaining pool lqe ≤ lqe.lqeGranted then some 0
  else some (qmtAllocExpandLoop pool spare 33 lqe.lqeQunit granted
    (qmtRemaining pool lqe - lqe.lqeGranted))

/-- The loop of `qmt_adjust_qunit` that increases `qunit`; after `32` rounds it is `0`. -/
def qmtGrowQunit (pool : QmtPool) (limit granted : U64) : ℕ → U64 → U64
  | 0, qunit => qunit
  | fuel + 1, qunit =>
    if qunit != 0 && granted + 6 * qunit * BitVec.ofNat 64 pool.qpiSlvNr ≤ limit then
      qmtGrowQunit pool limit granted fuel (qunit <<< 2)
    else qunit

/-- The loop of `qmt_adjust_qunit` that decreases `qunit`; after `32` rounds it is `0`. -/
def qmtShrinkQunit (pool : QmtPool) (limit granted : U64) : ℕ → U64 → U64
  | 0, qunit => qunit
  | fuel + 1, qunit =>
    if pool.qpiLeastQunit < qunit && limit < granted + qmtHalf pool qunit then
      qmtShrinkQunit pool limit granted fuel (qunit >>> 2)
    else qunit

/-- The `qunit` that `qmt_adjust_qunit` computes for a limit. -/
def qmtComputeQunit (limit : U64) : U64 :=
  let qunit := if lqe.lqeQunit == 0 then pool.qpiLeastQunit else lqe.lqeQunit
  if qunit == pool.qpiLeastQunit || lqe.lqeGranted + qmtHalf pool qunit ≤ limit then
    let grown := qmtGrowQunit pool limit lqe.lqeGranted 32 qunit
    if grown == 0 then limit / BitVec.ofNat 64 (2 * pool.qpiSlvNr) else grown
  else qmtShrinkQunit pool limit lqe.lqeGranted 32 qunit

/-- `done` of `qmt_adjust_qunit` -/
def qmtSetQunit (qunit : U64) : Lqe :=
  if lqe.lqeQunit == qunit then lqe
  else { lqe with
    lqeQunit := qunit
    lqeRevokeTime :=
      if !(qunit < lqe.lqeQunit) && qunit == pool.qpiLeastQunit then clock.seconds else 0 }

def qmtAdjustQunit : Lqe :=
  if !lqe.lqeEnforced || lqe.isRoot || pool.qpiSlvNr == 0 then lqe
  else if lqe.lqeSoftlimit != 0 then
    let soft := qmtCalcSoftlimit pool lqe
    let qunit2 := if soft.2 then pool.qpiSoftLeastQunit else 0
    if soft.1 == 0 then qmtSetQunit pool lqe clock qunit2
    else
      let qunit := qmtComputeQunit pool lqe soft.1
      qmtSetQunit pool lqe clock (if qunit2 != 0 && qunit2 < qunit then qunit2 else qunit)
  else if lqe.lqeHardlimit != 0 then
    qmtSetQunit pool lqe clock (qmtComputeQunit pool lqe lqe.lqeHardlimit)
  else lqe

def qmtRevalidate : Lqe :=
  if lqe.lqeQunit == 0 then
    let lqe := qmtAdjustQunit pool lqe clock
    if lqe.lqeQunit != 0 then qmtAdjustEdquot pool lqe clock else lqe
  else lqe

/-! ## A request -/

/-- A request of a slave. -/
structure QmtRequest where
  /-- `QUOTA_DQACQ_FL_ACQ` -/
  acq : Bool
  /-- `QUOTA_DQACQ_FL_PREACQ` -/
  preacq : Bool
  /-- `QUOTA_DQACQ_FL_REL` -/
  rel : Bool
  /-- `QUOTA_DQACQ_FL_REPORT` -/
  rep : Bool
  qbCount : U64
  qbUsage : U64

/-- How the body of `qmt_dqacq0` goes on. -/
inductive QmtExit where
  /-- to `out_locked` -/
  | locked (rc : ℤ)
  /-- to `out_write`, with the new record of the slave and the count of the reply -/
  | write (rc : ℤ) (slvGranted repCount : U64)

/-- `-ESRCH` -/
def esrch : ℤ := -3

/-- `-EINVAL` -/
def einval : ℤ := -22

/-- `-EDQUOT` -/
def edquot : ℤ := -122

/-- `-EINPROGRESS` -/
def einprogress : ℤ := -115

/-- `QMT_GRANT` on the entry -/
def Lqe.grant (count : U64) : Lqe := { lqe with lqeGranted := lqe.lqeGranted + count }

/-- `QMT_REL` on the entry -/
def Lqe.release (count : U64) : Lqe :=
  { lqe with lqeGranted := lqe.lqeGranted - count }

/-- `qmt_dqacq0` from the check of the flags on; the slave has reported its usage. -/
def qmtAcquire (req : QmtRequest) (slvGranted repCount : U64) : Option (Lqe × QmtExit) :=
  if !req.acq && !req.preacq then some (lqe, .write 0 slvGranted repCount)
  else
    let lqe := qmtAdjustEdquot pool lqe clock
    if lqe.lqeEdquot then some (lqe, .write edquot slvGranted repCount)
    else if qmtSpaceExhausted lqe clock.now then
      some (lqe, .write (if req.acq then einprogress else edquot) slvGranted repCount)
    else if req.preacq then
      if lqe.lqeQunit ≤ req.qbCount then some (lqe, .write 0 slvGranted repCount)
      else
        (qmtAllocExpand pool lqe slvGranted req.qbCount).map fun count =>
          if count == 0 then (lqe, .write edquot slvGranted repCount)
          else (lqe.grant count, .write 0 (slvGranted + count) (repCount + count))
    else if lqe.lqeHardlimit != 0 && lqe.lqeHardlimit < lqe.lqeGranted + req.qbCount then
      let count := lqe.lqeHardlimit - lqe.lqeGranted
      some (lqe.grant count, .write 0 (slvGranted + count) (repCount + count))
    else
      let lqe := lqe.grant req.qbCount
      (qmtAllocExpand pool lqe (slvGranted + req.qbCount) 0).map fun count =>
        (lqe.grant count, .write 0 (slvGranted + req.qbCount + count)
          (repCount + req.qbCount + count))

/-- `qmt_dqacq0` under the lock, up to its writes; `slvRead` is what `qmt_slv_read` gives. -/
def qmtDecide (req : QmtRequest) (slvRead : Except ℤ U64) : Option (Lqe × QmtExit) :=
  if !lqe.lqeEnforced && !req.rel then some (lqe, .locked esrch)
  else
    let lqe := qmtRevalidate pool lqe clock
    if req.acq && req.qbCount == 0 then some (lqe, .locked 0)
    else match slvRead with
      | .error rc => some (lqe, .locked rc)
      | .ok slvGranted =>
        if req.rel then
          if slvGranted < req.qbCount || lqe.lqeGranted < req.qbCount then
            some (lqe, .locked einval)
          else some (lqe.release req.qbCount, .write 0 (slvGranted - req.qbCount) req.qbCount)
        else if req.rep && slvGranted < req.qbUsage then
          -- the slave uses more than it was granted: the difference is granted in any case
          let count := req.qbUsage - slvGranted
          qmtAcquire pool (lqe.grant count) clock req (slvGranted + count) count
        else qmtAcquire pool lqe clock req slvGranted 0

/-- `struct qmt_lqe_restore` -/
structure QmtRestore where
  qlrHardlimit : U64
  qlrSoftlimit : U64
  qlrGracetime : U64
  qlrGranted : U64
  qlrQunit : U64

/-- The snapshot of `qmt_trans_start_with_slv`. -/
def qmtTransStartWithSlv : QmtRestore :=
  ⟨lqe.lqeHardlimit, lqe.lqeSoftlimit, lqe.lqeGracetime, lqe.lqeGranted, lqe.lqeQunit⟩

def qmtRestore (restore : QmtRestore) : Lqe :=
  { lqe with
    lqeHardlimit := restore.qlrHardlimit
    lqeSoftlimit := restore.qlrSoftlimit
    lqeGracetime := restore.qlrGracetime
    lqeGranted := restore.qlrGranted
    lqeQunit := restore.qlrQunit }

/-- The grace timer of `out_write`. -/
def qmtGraceTimer (now : U64) : Lqe :=
  if lqe.lqeSoftlimit != 0 then
    if lqe.lqeSoftlimit < lqe.lqeGranted && lqe.lqeGracetime == 0 then
      { lqe with lqeGracetime := now + pool.grace }
    else if lqe.lqeGranted ≤ lqe.lqeSoftlimit && lqe.lqeGracetime != 0 then
      { lqe with lqeGracetime := 0 }
    else lqe
  else lqe

/-- How the reads and writes of a request end. -/
structure QmtIo where
  /-- the error of `qmt_slv_read`, if any -/
  slvRead : Option ℤ
  /-- whether the record of the slave is written -/
  slvWrite : Bool
  /-- whether the record of the global index is written -/
  glbWrite : Bool
  /-- whether the old record of the slave is written back -/
  slvRestore : Bool

/-- `out_write` of `qmt_dqacq0`: the entry, the record of the slave and the record of the global
index; `none` is its `LBUG`. -/
def qmtWrite (restore : QmtRestore) (slvGranted slvGrantedBck glbGranted : U64) (io : QmtIo) :
    Option (Lqe × U64 × U64) :=
  let lqe := qmtGraceTimer pool lqe clock.now
  if !io.slvWrite then some (qmtRestore lqe restore, slvGrantedBck, glbGranted)
  else if !io.glbWrite then
    if io.slvRestore then
      some (qmtAdjustEdquot pool (qmtRestore lqe restore) clock, slvGrantedBck, glbGranted)
    else none
  else
    some (qmtAdjustEdquot pool (qmtAdjustQunit pool lqe clock) clock, slvGranted, lqe.lqeGranted)

/-- `qmt_dqacq0` under the lock: the entry, the record of the slave and the record of the global
index. -/
def qmtDqacq0 (req : QmtRequest) (restore : QmtRestore) (slvGranted glbGranted : U64) (io : QmtIo) :
    Option (Lqe × U64 × U64) :=
  (qmtDecide pool lqe clock req (io.slvRead.elim (.ok slvGranted) .error)).bind fun r =>
    match r.2 with
    | .locked _ => some (r.1, slvGranted, glbGranted)
    | .write _ slvNew repCount =>
      if repCount == 0 then some (r.1, slvGranted, glbGranted)
      else qmtWrite pool r.1 clock restore slvNew slvGranted glbGranted io

/-! ## What a request changes -/

@[simp] theorem qmtAdjustEdquot_granted :
    (qmtAdjustEdquot pool lqe clock).lqeGranted = lqe.lqeGranted := by
  rw [qmtAdjustEdquot]
  split_ifs <;> rfl

@[simp] theorem qmtSetQunit_granted (qunit : U64) :
    (qmtSetQunit pool lqe clock qunit).lqeGranted = lqe.lqeGranted := by
  rw [qmtSetQunit]
  split_ifs <;> rfl

@[simp] theorem qmtAdjustQunit_granted :
    (qmtAdjustQunit pool lqe clock).lqeGranted = lqe.lqeGranted := by
  rw [qmtAdjustQunit]
  dsimp only
  split_ifs <;> simp

@[simp] theorem qmtRevalidate_granted :
    (qmtRevalidate pool lqe clock).lqeGranted = lqe.lqeGranted := by
  rw [qmtRevalidate]
  dsimp only
  split_ifs <;> simp

@[simp] theorem qmtGraceTimer_granted (now : U64) :
    (qmtGraceTimer pool lqe now).lqeGranted = lqe.lqeGranted := by
  rw [qmtGraceTimer]
  split_ifs <;> rfl

end Entry

/-- The decision moves `d` from the master to the slave, and says so in its reply. -/
def QmtMoves (granted slvGranted repCount d : U64) (r : Lqe × QmtExit) : Prop :=
  r.1.lqeGranted = granted + d ∧ ∃ rc, r.2 = .write rc (slvGranted + d) (repCount + d)

variable {clock : QmtClock} {pool : QmtPool} {req : QmtRequest}

/-- Whatever `qmtAcquire` grants goes to the entry, to the slave and into the reply. -/
theorem qmtAcquire_moves {lqe : Lqe} {slvGranted repCount : U64} {r : Lqe × QmtExit}
    (h : qmtAcquire pool lqe clock req slvGranted repCount = some r) :
    ∃ d, QmtMoves lqe.lqeGranted slvGranted repCount d r := by
  have hnone : ∀ lqe' rc, lqe'.lqeGranted = lqe.lqeGranted →
      ∃ d, QmtMoves lqe.lqeGranted slvGranted repCount d
        (lqe', .write rc slvGranted repCount) := fun lqe' rc hl => by
    refine ⟨0, by rw [hl, add_zero], rc, ?_⟩
    rw [add_zero, add_zero]
  rw [qmtAcquire] at h
  dsimp only at h
  split_ifs at h
  · cases h
    exact hnone _ _ rfl
  · cases h
    exact hnone _ _ (qmtAdjustEdquot_granted ..)
  · cases h
    exact hnone _ _ (qmtAdjustEdquot_granted ..)
  · cases h
    exact hnone _ _ (qmtAdjustEdquot_granted ..)
  · cases h
    exact hnone _ _ (qmtAdjustEdquot_granted ..)
  · -- a pre-acquisition
    obtain ⟨count, -, rfl⟩ := Option.map_eq_some_iff.mp h
    split_ifs
    · exact hnone _ _ (qmtAdjustEdquot_granted ..)
    · exact ⟨count, by rw [Lqe.grant, qmtAdjustEdquot_granted], _, rfl⟩
  · cases h
    exact ⟨_, by rw [Lqe.grant, qmtAdjustEdquot_granted], _, rfl⟩
  · obtain ⟨count, -, rfl⟩ := Option.map_eq_some_iff.mp h
    refine ⟨req.qbCount + count, ?_, 0, ?_⟩
    · simp only [Lqe.grant, qmtAdjustEdquot_granted, add_assoc]
    · rw [add_assoc, add_assoc]

/-- What `qmt_dqacq0` decides under the lock: nothing, a grant or a release. -/
inductive QmtDecided (granted slvGranted : U64) : Lqe × QmtExit → Prop where
  /-- nothing moves -/
  | locked (lqe : Lqe) (rc : ℤ) : lqe.lqeGranted = granted →
      QmtDecided granted slvGranted (lqe, .locked rc)
  /-- `d` is granted -/
  | grant (lqe : Lqe) (rc : ℤ) (d : U64) : lqe.lqeGranted = granted + d →
      QmtDecided granted slvGranted (lqe, .write rc (slvGranted + d) d)
  /-- `d` is released -/
  | release (lqe : Lqe) (rc : ℤ) (d : U64) : lqe.lqeGranted = granted - d →
      QmtDecided granted slvGranted (lqe, .write rc (slvGranted - d) d)

theorem qmtDecide_decided {lqe : Lqe}
    {slvRead : Except ℤ U64} {slvGranted : U64} (hread : ∀ g, slvRead = .ok g → g = slvGranted)
    {r : Lqe × QmtExit} (h : qmtDecide pool lqe clock req slvRead = some r) :
    QmtDecided lqe.lqeGranted slvGranted r := by
  rw [qmtDecide] at h
  split at h
  · cases h
    exact .locked _ _ rfl
  split at h
  · cases h
    exact .locked _ _ (qmtRevalidate_granted ..)
  cases slvRead with
  | error rc =>
    cases h
    exact .locked _ _ (qmtRevalidate_granted ..)
  | ok g =>
    obtain rfl := hread g rfl
    dsimp only at h
    split_ifs at h
    · cases h
      exact .locked _ _ (qmtRevalidate_granted ..)
    · cases h
      exact .release _ _ _ (by rw [Lqe.release, qmtRevalidate_granted])
    · -- the reported overrun, and what is acquired on top of it
      obtain ⟨d, hd, rc, hexit⟩ := qmtAcquire_moves h
      obtain ⟨lqe', exit⟩ := r
      obtain rfl : exit = _ := hexit
      rw [add_assoc]
      refine .grant _ _ _ (hd.trans ?_)
      rw [Lqe.grant, qmtRevalidate_granted, add_assoc]
    · obtain ⟨d, hd, rc, hexit⟩ := qmtAcquire_moves h
      obtain ⟨lqe', exit⟩ := r
      obtain rfl : exit = _ := hexit
      rw [zero_add]
      exact .grant _ _ _ (hd.trans (by rw [qmtRevalidate_granted]))

/-- The record of the slave and the total move by the same amount, and the global index follows,
if a failed write finds the total as it was in the snapshot. -/
theorem qmtDqacq0_moves {lqe lqe' : Lqe}
    {restore : QmtRestore} {slvGranted glbGranted slvNew glbNew : U64} {io : QmtIo}
    (h : qmtDqacq0 pool lqe clock req restore slvGranted glbGranted io = some (lqe', slvNew, glbNew))
    (hfail : io.slvWrite = false ∨ io.glbWrite = false → restore.qlrGranted = lqe.lqeGranted)
    (hglb : glbGranted = lqe.lqeGranted) :
    ∃ d, lqe'.lqeGranted = lqe.lqeGranted + d ∧ slvNew = slvGranted + d ∧
      glbNew = lqe'.lqeGranted := by
  obtain ⟨r, hr, h⟩ := Option.bind_eq_some_iff.mp h
  have hread : ∀ g, io.slvRead.elim (.ok slvGranted) Except.error = .ok g → g = slvGranted := by
    intro g hg
    cases hio : io.slvRead with
    | none =>
      rw [hio] at hg
      exact (Except.ok.inj hg).symm
    | some rc =>
      rw [hio] at hg
      cases hg
  subst hglb
  have hstill : ∀ lqe1 : Lqe, lqe1.lqeGranted = lqe.lqeGranted → ∃ d, lqe1.lqeGranted =
      lqe.lqeGranted + d ∧ slvGranted = slvGranted + d ∧ lqe.lqeGranted = lqe1.lqeGranted :=
    fun lqe1 hl => ⟨0, by rw [hl, add_zero], by rw [add_zero], hl.symm⟩
  -- a reply of nothing means that nothing has moved
  have hmoved : ∀ (lqe1 : Lqe) (slv1 cnt d : U64), lqe1.lqeGranted = lqe.lqeGranted + d →
      slv1 = slvGranted + d → (cnt = 0 → d = 0) → (if cnt == 0 then some (lqe1, slvGranted, lqe.lqeGranted)
        else qmtWrite pool lqe1 clock restore slv1 slvGranted lqe.lqeGranted io) =
          some (lqe', slvNew, glbNew) →
      ∃ d, lqe'.lqeGranted = lqe.lqeGranted + d ∧ slvNew = slvGranted + d ∧
        glbNew = lqe'.lqeGranted := by
    intro lqe1 slv1 cnt d hlqe hslv hcnt h
    split at h
    · next hzero =>
      cases h
      have hd := hcnt (beq_iff_eq.mp hzero)
      rw [hd, add_zero] at hlqe
      exact hstill _ hlqe
    · -- the writes put everything back, or write everything
      rw [qmtWrite] at h
      split_ifs at h with hslvOk hglbOk
      · cases h
        exact hstill _ (hfail (.inl (by simpa using hslvOk)))
      · cases h
        rw [qmtAdjustEdquot_granted]
        exact hstill { lqe1 with lqeGranted := _ } (hfail (.inr (by simpa using hglbOk)))
      · cases h
        exact ⟨d, by simpa using hlqe, hslv, by simp⟩
  cases qmtDecide_decided hread hr with
  | locked lqe1 rc hlqe =>
    cases h
    exact hstill lqe1 hlqe
  | grant lqe1 rc d hlqe => exact hmoved lqe1 _ d d hlqe rfl id h
  | release lqe1 rc d hlqe =>
    refine hmoved lqe1 _ d (-d) (hlqe.trans (sub_eq_add_neg _ _)) (sub_eq_add_neg _ _) ?_ h
    rintro rfl
    exact neg_zero

/-! ## Runs -/

universe u

variable {ι : Type u} [DecidableEq ι]

/-- The master and the indexes, for one identifier. -/
structure QmtState (ι : Type u) where
  lqe : Lqe
  /-- the record of the global index -/
  glbGranted : U64
  /-- the records of the slaves' indexes -/
  slvGranted : ι → U64
  /-- the snapshots of the requests that have started their transaction -/
  restore : ℕ → Option QmtRestore

/-- A request starts its transaction, or runs under the lock. -/
inductive QmtOp (ι : Type u) where
  /-- `qmt_trans_start_with_slv` -/
  | start (thread : ℕ)
  /-- the part under the lock -/
  | locked (thread : ℕ) (slave : ι) (req : QmtRequest) (clock : QmtClock) (io : QmtIo)

/-- One step of a request. -/
def qmtStep (pool : QmtPool) (s : QmtState ι) : QmtOp ι → Option (QmtState ι)
  | .start thread => some { s with
      restore := Function.update s.restore thread (some (qmtTransStartWithSlv s.lqe)) }
  | .locked thread slave req clock io =>
    (s.restore thread).bind fun restore =>
      (qmtDqacq0 pool s.lqe clock req restore (s.slvGranted slave) s.glbGranted io).map fun r =>
        ⟨r.1, r.2.2, Function.update s.slvGranted slave r.2.1,
          Function.update s.restore thread none⟩

/-- A request whose write fails finds `lqe_granted` as it is in its snapshot. -/
def QmtSpared (s : QmtState ι) : QmtOp ι → Prop
  | .start _ => True
  | .locked thread _ _ _ io => io.slvWrite = false ∨ io.glbWrite = false →
      ∀ restore, s.restore thread = some restore → restore.qlrGranted = s.lqe.lqeGranted

/-- The total, and its record, are the sum of the records of the slaves. -/
structure QmtSum [Fintype ι] (s : QmtState ι) : Prop where
  /-- the total -/
  granted : s.lqe.lqeGranted = ∑ i, s.slvGranted i
  /-- its record -/
  recorded : s.glbGranted = s.lqe.lqeGranted

variable [Fintype ι] {pool : QmtPool} {s s' s0 : QmtState ι}

theorem QmtSum.step (h : QmtSum s) {op : QmtOp ι} (hspared : QmtSpared s op)
    (hs : qmtStep pool s op = some s') : QmtSum s' := by
  cases op with
  | start thread =>
    cases hs
    exact ⟨h.granted, h.recorded⟩
  | locked thread slave req clock io =>
    obtain ⟨restore, hrestore, hs⟩ := Option.bind_eq_some_iff.mp hs
    obtain ⟨⟨lqe, slv, glb⟩, hr, rfl⟩ := Option.map_eq_some_iff.mp hs
    obtain ⟨d, hl, hslv, hglb⟩ := qmtDqacq0_moves hr (fun hf => hspared hf restore hrestore)
      h.recorded
    refine ⟨?_, hglb⟩
    have hsum := Ledger.sum_post s.slvGranted slave d
    rw [Ledger.post] at hsum
    rw [hl, hslv, hsum, h.granted]

end Lustre
