import Lustre.LdlmExtent

/-!
# Growing the extent of a granted lock (`ldlm_extent.c`)

Before a server grants an extent lock it makes the extent as large as it can. It grows the request
up to the granted locks of conflicting modes (`ldlm_extent_internal_policy_granted`), then cuts it
at the waiting ones (`ldlm_extent_internal_policy_waiting`). Each time
`ldlm_extent_internal_policy_fixup` rounds the result to what the request is aligned to, at
least to pages, and asserts that it still contains the request.

Growing and cutting keep the request inside (`Covers`). Rounding keeps it inside exactly if the
request is aligned, up to two corners where the rounding wraps around (`RoundsWell`).
The server checks no alignment, so other requests run into the assertions:
`ldlmExtentPolicy_covers` has the exact condition.
-/

namespace Lustre

open Option (bind_eq_bind bind_some)
open IntervalExtent List

/-! ## The model -/

def ldlmMaxGrownExtent : ℕ := 32 * 1024 * 1024 - 1

section Model

-- a page has `2 ^ pageShift` bytes
variable (pageShift : ℕ) (res : ExtentResource) (req : ExtentLock)

/-- The first part of `ldlm_extent_internal_policy_fixup`: no large extents on a contended
resource. -/
def fixupGrown (newEx : IntervalExtent) (conflicting : ℤ) : IntervalExtent :=
  let grown := u64 (req.lReqExtent.start + ldlmMaxGrownExtent)
  if 32 < conflicting ∧ (req.lReqMode = .pw ∨ req.lReqMode = .cw) ∧ req.lReqExtent.stop < grown then
    ⟨newEx.start, min grown newEx.stop⟩
  else newEx

/-- The loop of `ldlm_extent_internal_policy_fixup` for the mask. -/
def fixupMaskLoop (reqAlign : ℕ) : ℕ → ℕ → Option ℕ
  | 0, _ => none
  | fuel + 1, mask =>
    if reqAlign &&& mask = 0 then fixupMaskLoop reqAlign fuel (u64 (mask <<< 1)) else some mask

/-- The mask: what the request is aligned to, or a page if it is not aligned to one. -/
def fixupMask : Option ℕ :=
  let mask := 2 ^ pageShift
  let reqAlign := u64 (req.lReqExtent.stop + 1) ||| req.lReqExtent.start
  if reqAlign ≠ 0 ∧ reqAlign &&& (mask - 1) = 0 then (fixupMaskLoop reqAlign 64 mask).map (· - 1)
  else some (mask - 1)

/-- The start rounded up. -/
def fixupStart (mask start : ℕ) : ℕ := u64 ((sub64 start 1 ||| mask) + 1)

/-- The end rounded down. -/
def fixupStop (mask stop : ℕ) : ℕ := sub64 (u64 (stop + 1) &&& ((2 ^ 64 - 1) ^^^ mask)) 1

/-- The end of `ldlm_extent_internal_policy_fixup`: the extent is rounded, and still has to contain
the request. -/
def fixupRound (newEx : IntervalExtent) (mask : ℕ) : Option IntervalExtent :=
  lassert (fixupStart mask newEx.start ≤ req.lReqExtent.start) <|
    lassert (req.lReqExtent.stop ≤ fixupStop mask newEx.stop) <|
      some ⟨fixupStart mask newEx.start, fixupStop mask newEx.stop⟩

def ldlmExtentInternalPolicyFixup (newEx : IntervalExtent) (conflicting : ℤ) :
    Option IntervalExtent :=
  let newEx := fixupGrown req newEx conflicting
  if newEx.start = 0 ∧ newEx.stop = obdObjectEof then some newEx
  else (fixupMask pageShift req).bind (fixupRound req newEx)

/-- One tree of a conflicting mode in `ldlm_extent_internal_policy_granted`: the new limit. -/
def policyLimit (mode : LdlmMode) (limiter : IntervalExtent) (conflicting : ℤ) :
    Option IntervalExtent := do
  let root := (res.lrItree mode).litRoot
  let start := if 4 < conflicting then req.lReqExtent.start else limiter.start
  -- for a debug message only
  let _ ← intervalIsOverlapped res.fuel root req.lReqExtent.interval
  let ext ← intervalExpand res.fuel root req.lReqExtent.interval (some ⟨start, limiter.stop⟩)
  return ⟨max start ext.start, min limiter.stop ext.stop⟩

/-- The loop of `ldlm_extent_internal_policy_granted` over the trees. -/
def policyGrantedLoop (res : ExtentResource) (req : ExtentLock) :
    List LdlmMode → IntervalExtent → ℤ → Option (IntervalExtent × ℤ)
  | [], limiter, conflicting => some (limiter, conflicting)
  | mode :: modes, limiter, conflicting =>
    if lockmodeCompat mode req.lReqMode then policyGrantedLoop res req modes limiter conflicting
    else do
      let limiter ← policyLimit res req mode limiter (conflicting + (res.lrItree mode).litSize)
      if limiter = req.lReqExtent.interval then
        return (limiter, conflicting + (res.lrItree mode).litSize)
      policyGrantedLoop res req modes limiter (conflicting + (res.lrItree mode).litSize)

def ldlmExtentInternalPolicyGranted (newEx : IntervalExtent) : Option IntervalExtent := do
  let (limiter, conflicting) ← policyGrantedLoop res req itreeModes newEx 0
  lassert (limiter.start ≤ req.lReqExtent.start) <| lassert (req.lReqExtent.stop ≤ limiter.stop) <|
    ldlmExtentInternalPolicyFixup pageShift req limiter conflicting

/-- The new start in `ldlm_extent_internal_policy_waiting`, beside a waiting lock. -/
def waitingStart (req lock : ExtentLock) (start : ℕ) : ℕ :=
  let reqStart := req.lReqExtent.start
  if lock.lExtent.start < reqStart ∧ start ≠ reqStart then
    if reqStart ≤ lock.lExtent.stop then reqStart else min (u64 (lock.lExtent.stop + 1)) reqStart
  else start

/-- The new end in `ldlm_extent_internal_policy_waiting`, beside a waiting lock. -/
def waitingStop (req lock : ExtentLock) (stop : ℕ) : ℕ :=
  let reqEnd := req.lReqExtent.stop
  if reqEnd < lock.lExtent.stop then
    if lock.lExtent.start ≤ reqEnd then max (sub64 lock.lReqExtent.start 1) reqEnd
    else max (sub64 lock.lExtent.start 1) reqEnd
  else stop

/-- The loop of `ldlm_extent_internal_policy_waiting` over the queue; `none` for the number of
conflicts is its early return. -/
def policyWaitingLoop (res : ExtentResource) (l : ℕ) :
    List ℕ → IntervalExtent → ℤ → IntervalExtent × Option ℤ
  | [], newEx, conflicting => (newEx, some conflicting)
  | k :: ks, newEx, conflicting =>
    let req := res.lock l
    let lock := res.lock k
    if newEx = req.lReqExtent.interval then (newEx, none)
    else if k = l then policyWaitingLoop res l ks newEx conflicting
    else if lockmodeCompat lock.lReqMode req.lReqMode ∧ lock.lExport ≠ req.lExport then
      policyWaitingLoop res l ks newEx conflicting
    else
      let conflicting := conflicting + 1
      let newEx := ⟨if 4 < conflicting then req.lReqExtent.start else newEx.start, newEx.stop⟩
      if ¬extentOverlapped lock.lExtent.interval newEx then
        policyWaitingLoop res l ks newEx conflicting
      else if extentOverlapped lock.lReqExtent.interval req.lReqExtent.interval then
        policyWaitingLoop res l ks newEx conflicting
      else
        policyWaitingLoop res l ks
          ⟨waitingStart req lock newEx.start, waitingStop req lock newEx.stop⟩ conflicting

def ldlmExtentInternalPolicyWaiting (l : ℕ) (newEx : IntervalExtent) : Option IntervalExtent :=
  match policyWaitingLoop res l res.lrWaiting newEx 0 with
  | (newEx, none) => some newEx
  | (newEx, some conflicting) =>
    ldlmExtentInternalPolicyFixup pageShift (res.lock l) newEx conflicting

/-- The extent that `ldlm_extent_policy` comes to. -/
def policyExtent (l : ℕ) : Option IntervalExtent :=
  let lock := res.lock l
  if lock.noExpansion then
    ldlmExtentInternalPolicyFixup pageShift lock lock.lExtent.interval 0
  else do
    let newEx ← ldlmExtentInternalPolicyGranted pageShift res lock ⟨0, obdObjectEof⟩
    ldlmExtentInternalPolicyWaiting pageShift res l newEx

/-- The end of `ldlm_extent_policy`: the lock gets the new extent. -/
def policyStore (l : ℕ) (newEx : IntervalExtent) : Bool × ExtentResource :=
  if newEx = (res.lock l).lExtent.interval then (false, res)
  else (true, res.setLock l fun k => { k with lExtent := ⟨newEx.start, newEx.stop, k.lExtent.gid⟩ })

/-- `ldlm_extent_policy`: whether the extent was changed (`LDLM_FL_LOCK_CHANGED`), and the resource
afterwards. -/
def ldlmExtentPolicy (l : ℕ) : Option (Bool × ExtentResource) :=
  let lock := res.lock l
  -- a lock of the server itself, or one for the whole file
  if lock.lExport = none then some (false, res)
  else if lock.lExtent.start = 0 ∧ lock.lExtent.stop = obdObjectEof then some (false, res)
  else (policyExtent pageShift res l).map (policyStore res l)

end Model

/-! ## Rounding -/

/-- A request that rounding to `2 ^ k` bytes does not cut: it is aligned, or starts in the last
block or ends in the first one, where the rounding wraps around. -/
def RoundsWell (k start stop : ℕ) : Prop :=
  (2 ^ k ∣ start ∨ 2 ^ 64 - 2 ^ k < start) ∧ (2 ^ k ∣ stop + 1 ∨ stop + 1 < 2 ^ k)

/-- Rounding to `2 ^ k` bytes cuts an extent from `start` or to `stop`, where the request starts or
ends there. -/
def CutsAt (k : ℕ) (req : LdlmExtent) (start stop : ℕ) : Prop :=
  ¬(2 ^ k ∣ req.start ∨ 2 ^ 64 - 2 ^ k < req.start) ∧ start = req.start ∨
    ¬(2 ^ k ∣ req.stop + 1 ∨ req.stop + 1 < 2 ^ k) ∧ stop = req.stop

section Round

variable {k start stop reqStart reqEnd : ℕ}

/-- The end of the block of `b` bytes that `w` is in. -/
theorem lt_blockEnd {b : ℕ} (w : ℕ) (hb : 0 < b) : w < (w / b + 1) * b := by
  rw [Nat.mul_comm]
  exact Nat.lt_mul_div_succ w hb

theorem blockEnd_le {b w r : ℕ} (hr : b ∣ r) (hw : w < r) : (w / b + 1) * b ≤ r := by
  have hdiv : w / b < r / b := Nat.div_lt_div_of_lt_of_dvd hr hw
  exact Nat.le_trans (Nat.mul_le_mul_right b hdiv) (Nat.le_of_eq (Nat.div_mul_cancel hr))

theorem fixupStart_eq (start : ℕ) :
    fixupStart (2 ^ k - 1) start = u64 ((sub64 start 1 / 2 ^ k + 1) * 2 ^ k) := by
  rw [fixupStart, lor_mask, Nat.add_assoc, Nat.sub_add_cancel (Nat.two_pow_pos k), Nat.add_mul,
    one_mul]

theorem fixupStop_eq (stop : ℕ) :
    fixupStop (2 ^ k - 1) stop = sub64 (u64 (stop + 1) / 2 ^ k * 2 ^ k) 1 := by
  rw [fixupStop, land_mask (u64_lt _)]

theorem sub64_zero_one : sub64 0 1 = obdObjectEof := by decide

theorem sub64_one {x : ℕ} (hpos : x ≠ 0) (hlt : x < 2 ^ 64) : sub64 x 1 = x - 1 :=
  sub64_of_le hlt (Nat.one_le_iff_ne_zero.mpr hpos)

theorem fixupStart_zero (hk : k ≤ 64) : fixupStart (2 ^ k - 1) 0 = 0 := by
  have hdvd := Nat.pow_dvd_pow 2 hk
  have hle := blockEnd_le hdvd (show obdObjectEof < 2 ^ 64 by decide)
  have hlt := lt_blockEnd obdObjectEof (Nat.two_pow_pos k)
  have heq : (obdObjectEof / 2 ^ k + 1) * 2 ^ k = 2 ^ 64 := by
    rw [obdObjectEof] at hlt hle ⊢
    omega
  rw [fixupStart_eq, sub64_zero_one, heq]
  decide

/-- Rounding up stays below a start that rounds well. -/
theorem fixupStart_le (hk : k ≤ 64) (hlt : reqStart < 2 ^ 64) (hle : start ≤ reqStart)
    (h : 2 ^ k ∣ reqStart ∨ 2 ^ 64 - 2 ^ k < reqStart) : fixupStart (2 ^ k - 1) start ≤ reqStart := by
  by_cases hzero : start = 0
  · rw [hzero, fixupStart_zero hk]
    exact Nat.zero_le _
  have hdvd := Nat.pow_dvd_pow 2 hk
  have hend := blockEnd_le hdvd (show start - 1 < 2 ^ 64 by omega)
  rw [fixupStart_eq, sub64_one hzero (by omega)]
  rcases h with h | h
  · have hblock := blockEnd_le h (show start - 1 < reqStart by omega)
    rw [u64_of_lt (by omega)]
    exact hblock
  · -- the last block starts below the request, and behind it comes zero
    by_cases hwrap : ((start - 1) / 2 ^ k + 1) * 2 ^ k = 2 ^ 64
    · rw [hwrap]
      exact Nat.zero_le _
    · have hlast : 2 ^ k ≤ 2 ^ 64 - ((start - 1) / 2 ^ k + 1) * 2 ^ k :=
        Nat.le_of_dvd (by omega) (Nat.dvd_sub hdvd (Nat.dvd_mul_left ..))
      rw [u64_of_lt (by omega)]
      omega

theorem lt_fixupStart (hk : k ≤ 64) (hno : ¬2 ^ k ∣ start) (hle : start ≤ 2 ^ 64 - 2 ^ k) :
    start < fixupStart (2 ^ k - 1) start := by
  have hdvd := Nat.pow_dvd_pow 2 hk
  have hpos := Nat.two_pow_pos k
  have hstart : start ≠ 0 := fun heq => hno (heq ▸ Nat.dvd_zero _)
  have hlast : 2 ^ k ∣ 2 ^ 64 - 2 ^ k := Nat.dvd_sub hdvd (Nat.dvd_refl _)
  have hblock := blockEnd_le hlast (show start - 1 < 2 ^ 64 - 2 ^ k by omega)
  have hlt := lt_blockEnd (start - 1) hpos
  have hne : start ≠ ((start - 1) / 2 ^ k + 1) * 2 ^ k := fun heq => hno (heq ▸ Nat.dvd_mul_left ..)
  rw [fixupStart_eq, sub64_one hstart (by omega), u64_of_lt (by omega)]
  omega

/-- Rounding down stays above an end that rounds well. -/
theorem le_fixupStop (hle : reqEnd ≤ stop) (hstop : stop ≤ obdObjectEof)
    (h : 2 ^ k ∣ reqEnd + 1 ∨ reqEnd + 1 < 2 ^ k) : reqEnd ≤ fixupStop (2 ^ k - 1) stop := by
  rw [fixupStop_eq]
  by_cases hzero : u64 (stop + 1) / 2 ^ k * 2 ^ k = 0
  · rw [hzero, sub64_zero_one]
    exact hle.trans hstop
  have hdiv := Nat.div_mul_le_self (u64 (stop + 1)) (2 ^ k)
  have hsmall : stop + 1 < 2 ^ 64 := by
    by_contra hbig
    refine hzero ?_
    obtain rfl : stop = obdObjectEof := by
      rw [obdObjectEof] at hstop ⊢
      omega
    rw [show u64 (obdObjectEof + 1) = 0 by decide, Nat.zero_div, Nat.zero_mul]
  rw [u64_of_lt hsmall] at hdiv hzero ⊢
  rw [sub64_one hzero (by omega)]
  rcases h with h | h
  · have hmul : reqEnd + 1 ≤ (stop + 1) / 2 ^ k * 2 ^ k := by
      rw [← Nat.div_mul_cancel h]
      exact Nat.mul_le_mul_right _ (Nat.div_le_div_right (by omega))
    omega
  · have hmul := Nat.le_of_dvd (Nat.pos_of_ne_zero hzero) (Nat.dvd_mul_left ..)
    omega

theorem fixupStop_lt (hk : k ≤ 64) (hstop : stop ≤ obdObjectEof) (hno : ¬2 ^ k ∣ stop + 1)
    (hle : 2 ^ k ≤ stop + 1) : fixupStop (2 ^ k - 1) stop < stop := by
  have hpos := Nat.two_pow_pos k
  have hsmall : stop + 1 < 2 ^ 64 := by
    refine lt_of_le_of_ne ?_ fun heq => hno (heq ▸ Nat.pow_dvd_pow 2 hk)
    rw [obdObjectEof] at hstop
    omega
  have hdiv := Nat.div_mul_le_self (stop + 1) (2 ^ k)
  have hmul := Nat.le_mul_of_pos_left (2 ^ k) (Nat.div_pos hle hpos)
  have hne : (stop + 1) / 2 ^ k * 2 ^ k ≠ stop + 1 := fun heq => hno (heq ▸ Nat.dvd_mul_left ..)
  rw [fixupStop_eq, u64_of_lt hsmall, sub64_one (by omega) (by omega)]
  omega

end Round

/-! ## The mask -/

section Mask

variable {pageShift : ℕ} {req : ExtentLock}

theorem fixupMaskLoop_spec {reqAlign : ℕ} (hne : reqAlign ≠ 0) (hlt : reqAlign < 2 ^ 64) {fuel i : ℕ}
    (hi : i ≤ 63) (hfuel : 64 ≤ fuel + i) (hdvd : 2 ^ i ∣ reqAlign) :
    ∃ j, j ≤ 63 ∧ fixupMaskLoop reqAlign fuel (2 ^ i) = some (2 ^ j) ∧ 2 ^ j ∣ reqAlign := by
  induction fuel generalizing i with
  | zero => omega
  | succ fuel ih =>
    rw [fixupMaskLoop]
    split
    · next hbit =>
      -- the bit is not set, so one more bit is zero
      have hbit' : reqAlign.testBit i = false := by
        have hand := congrArg (Nat.testBit · i) hbit
        simpa [Nat.testBit_and, Nat.testBit_two_pow_self] using hand
      have hdvd' : 2 ^ (i + 1) ∣ reqAlign := by
        rw [Nat.testBit_eq_decide_div_mod_eq, decide_eq_false_iff_not] at hbit'
        rw [Nat.pow_succ]
        exact Nat.mul_dvd_of_dvd_div hdvd (Nat.dvd_of_mod_eq_zero (by omega))
      have hi' : i + 1 ≤ 63 := by
        by_contra hbig
        obtain rfl : i = 63 := by omega
        exact absurd (Nat.le_of_dvd (Nat.pos_of_ne_zero hne) hdvd') (not_le.mpr hlt)
      have hshift : u64 (2 ^ i <<< 1) = 2 ^ (i + 1) := by
        rw [Nat.shiftLeft_eq, Nat.pow_one, ← Nat.pow_succ]
        exact u64_of_lt (Nat.pow_lt_pow_right (by decide) (by omega))
      rw [hshift]
      exact ih hi' (by omega) hdvd'
    · exact ⟨i, hi, rfl, hdvd⟩

/-- The mask is what the request is aligned to, and a page if it is not aligned. -/
theorem fixupMask_spec (hp : pageShift ≤ 63) (hstart : req.lReqExtent.start < 2 ^ 64) :
    ∃ j, j ≤ 63 ∧ fixupMask pageShift req = some (2 ^ j - 1) ∧
      (2 ^ j ∣ req.lReqExtent.start ∧ 2 ^ j ∣ req.lReqExtent.stop + 1 ∨ j = pageShift) ∧
      (¬RoundsWell pageShift req.lReqExtent.start req.lReqExtent.stop → j = pageShift) := by
  rw [fixupMask]
  split
  · next halign =>
    obtain ⟨hne, hpage⟩ := halign
    rw [Nat.and_two_pow_sub_one_eq_mod] at hpage
    have hdvd := Nat.dvd_of_mod_eq_zero hpage
    have hlt : u64 (req.lReqExtent.stop + 1) ||| req.lReqExtent.start < 2 ^ 64 :=
      Nat.or_lt_two_pow (u64_lt _) hstart
    -- behind the last byte of the file comes zero, which is aligned to everything
    have hback : ∀ j ≤ 63, 2 ^ j ∣ u64 (req.lReqExtent.stop + 1) → 2 ^ j ∣ req.lReqExtent.stop + 1 := by
      intro j hj hd
      exact (Nat.dvd_mod_iff (Nat.pow_dvd_pow 2 (by omega))).mp hd
    obtain ⟨j, hj, hloop, hjd⟩ := fixupMaskLoop_spec hne hlt hp
      (show 64 ≤ 64 + pageShift by omega) hdvd
    obtain ⟨hd1, hd2⟩ := dvd_lor_iff.mp hjd
    obtain ⟨hp1, hp2⟩ := dvd_lor_iff.mp hdvd
    refine ⟨j, hj, by rw [hloop]; rfl, .inl ⟨hd2, hback j hj hd1⟩, fun hno => ?_⟩
    exact absurd ⟨.inl hp2, .inl (hback _ hp hp1)⟩ hno
  · exact ⟨pageShift, hp, rfl, .inr rfl, fun _ => rfl⟩

end Mask

/-! ## The request stays inside -/

/-- The extent contains the request. -/
structure Covers (ex : IntervalExtent) (req : LdlmExtent) : Prop where
  start_le : ex.start ≤ req.start
  le_stop : req.stop ≤ ex.stop
  stop_le : ex.stop ≤ obdObjectEof

section Fixup

variable {pageShift : ℕ} {req : ExtentLock} {ex : IntervalExtent}

theorem Covers.grown (h : Covers ex req.lReqExtent) (conflicting : ℤ) :
    Covers (fixupGrown req ex conflicting) req.lReqExtent := by
  rw [fixupGrown]
  split
  · next hgrown =>
    have hstop := h.le_stop
    have heof := h.stop_le
    exact ⟨h.start_le, by dsimp only; omega, by dsimp only; omega⟩
  · exact h

theorem fixupGrown_of_le {conflicting : ℤ} (hfew : conflicting ≤ 32) :
    fixupGrown req ex conflicting = ex := by
  have hno : ¬(32 < conflicting ∧ (req.lReqMode = .pw ∨ req.lReqMode = .cw) ∧
      req.lReqExtent.stop < u64 (req.lReqExtent.start + ldlmMaxGrownExtent)) := fun hc =>
    absurd hc.1 (Int.not_lt.mpr hfew)
  rw [fixupGrown, if_neg hno]

theorem fixup_eq {j : ℕ} (hmask : fixupMask pageShift req = some (2 ^ j - 1)) (conflicting : ℤ) :
    ldlmExtentInternalPolicyFixup pageShift req ex conflicting =
      if (fixupGrown req ex conflicting).start = 0 ∧
          (fixupGrown req ex conflicting).stop = obdObjectEof then
        some (fixupGrown req ex conflicting)
      else fixupRound req (fixupGrown req ex conflicting) (2 ^ j - 1) := by
  rw [ldlmExtentInternalPolicyFixup, hmask, bind_some]

theorem fixupStop_le (mask stop : ℕ) : fixupStop mask stop ≤ obdObjectEof := by
  rw [fixupStop, sub64, obdObjectEof]
  exact Nat.le_sub_one_of_lt (u64_lt _)

/-- A request that rounds well stays inside. -/
theorem Covers.fixup (hp : pageShift ≤ 63) (hstart : req.lReqExtent.start < 2 ^ 64)
    (hround : RoundsWell pageShift req.lReqExtent.start req.lReqExtent.stop)
    (h : Covers ex req.lReqExtent) (conflicting : ℤ) :
    ∃ ex', ldlmExtentInternalPolicyFixup pageShift req ex conflicting = some ex' ∧
      Covers ex' req.lReqExtent := by
  obtain ⟨j, hj, hmask, hcase, -⟩ := fixupMask_spec hp hstart
  have hround' : RoundsWell j req.lReqExtent.start req.lReqExtent.stop := by
    rcases hcase with ⟨hd1, hd2⟩ | rfl
    · exact ⟨.inl hd1, .inl hd2⟩
    · exact hround
  have hgrown := h.grown conflicting
  rw [fixup_eq hmask]
  split
  · exact ⟨_, rfl, hgrown⟩
  · have hle := fixupStart_le (by omega) hstart hgrown.start_le hround'.1
    have hge := le_fixupStop hgrown.le_stop hgrown.stop_le hround'.2
    rw [fixupRound, lassert_pos hle, lassert_pos hge]
    exact ⟨_, rfl, hle, hge, fixupStop_le _ _⟩

/-- Any other request is cut when the extent has not grown beyond it. -/
theorem fixup_eq_none (hp : pageShift ≤ 63) (hstart : req.lReqExtent.start < 2 ^ 64)
    (hstop : req.lReqExtent.stop ≤ obdObjectEof)
    (hno : CutsAt pageShift req.lReqExtent ex.start ex.stop) {conflicting : ℤ}
    (hfew : conflicting ≤ 32) :
    ldlmExtentInternalPolicyFixup pageShift req ex conflicting = none := by
  have hround : ¬RoundsWell pageShift req.lReqExtent.start req.lReqExtent.stop := by
    rintro ⟨h1, h2⟩
    rcases hno with ⟨hno, -⟩ | ⟨hno, -⟩
    · exact hno h1
    · exact hno h2
  obtain ⟨j, -, hmask, -, hpage⟩ := fixupMask_spec hp hstart
  obtain rfl := hpage hround
  rw [fixup_eq hmask, fixupGrown_of_le hfew]
  rcases hno with ⟨hno, hex⟩ | ⟨hno, hex⟩
  · -- the start is cut
    rw [not_or, not_lt] at hno
    have hcut := lt_fixupStart (by omega) hno.1 hno.2
    have hzero : ¬(ex.start = 0 ∧ ex.stop = obdObjectEof) := by
      rintro ⟨hz, -⟩
      rw [← hex, hz] at hno
      exact hno.1 (Nat.dvd_zero _)
    rw [if_neg hzero, fixupRound, hex]
    exact if_neg (not_le.mpr hcut)
  · rw [not_or, not_lt] at hno
    have hcut := fixupStop_lt (by omega) hstop hno.1 hno.2
    have heof : ¬(ex.start = 0 ∧ ex.stop = obdObjectEof) := by
      rintro ⟨-, he⟩
      rw [← hex, he] at hno
      exact hno.1 (Nat.pow_dvd_pow 2 (show j ≤ 64 by omega))
    have hlast : lassert (req.lReqExtent.stop ≤ fixupStop (2 ^ j - 1) req.lReqExtent.stop)
        (some (⟨fixupStart (2 ^ j - 1) ex.start,
          fixupStop (2 ^ j - 1) req.lReqExtent.stop⟩ : IntervalExtent)) = none :=
      if_neg (not_le.mpr hcut)
    rw [if_neg heof, fixupRound, hex, hlast]
    exact ite_self _

end Fixup

/-! ## Growing and cutting -/

/-- No granted lock of a conflicting mode overlaps the request. -/
def ExtentResource.Grantable (res : ExtentResource) (l : ℕ) : Prop :=
  ∀ k ∈ res.lrGranted, lockmodeCompat (res.lock k).lGrantedMode (res.lock l).lReqMode = false →
    extentOverlapped (res.lock l).lReqExtent.interval (res.lock k).lExtent.interval = false

variable {req lock : ExtentLock}

section Loops

variable {pageShift : ℕ} {res : ExtentResource} {trees : LdlmMode → CellTree} {l : ℕ}
  {ex : IntervalExtent}

section

variable (h : res.Inv trees) (hgr : res.Grantable l)
  (hstop : (res.lock l).lReqExtent.stop ≤ obdObjectEof)
include h hgr hstop

/-- A conflicting tree limits the growth, but not below the request. -/
theorem Covers.limit {mode : LdlmMode} (hmode : lockmodeCompat mode (res.lock l).lReqMode = false)
    (hex : Covers ex (res.lock l).lReqExtent) (conflicting : ℤ) :
    ∃ ex', policyLimit res (res.lock l) mode ex conflicting = some ex' ∧
      Covers ex' (res.lock l).lReqExtent := by
  have hfuel := Nat.lt_of_succ_lt (h.length_lt mode)
  have htr := h.tracks mode
  have hstart : (if 4 < conflicting then (res.lock l).lReqExtent.start else ex.start) ≤
      (res.lock l).lReqExtent.start := by
    split
    · exact le_rfl
    · exact hex.start_le
  rw [policyLimit, htr.isOverlapped _ hfuel]
  generalize (if 4 < conflicting then (res.lock l).lReqExtent.start else ex.start) = start at hstart ⊢
  have hsane : ∀ a ∈ (ids (trees mode)).map fun n =>
      (n, ((res.lrItree mode).litRoot.node n).inExtent), a.2.start ≤ a.2.stop ∧
        extentOverlapped (res.lock l).lReqExtent.interval a.2 = false := by
    refine forall_mem_map.mpr fun n hn => ?_
    obtain ⟨k, hk, rfl, hext, hle⟩ := h.exists_lock hn
    rw [hext]
    exact ⟨hle, hgr k hk hmode⟩
  obtain ⟨ext, hext, hle, hge, -⟩ := htr.expand (fun a ha => (hsane a ha).1) hfuel hstop
    (fun a ha => (hsane a ha).2) (some ⟨start, ex.stop⟩)
  rw [hext]
  refine ⟨_, rfl, ?_⟩
  exact ⟨Nat.max_le.mpr ⟨hstart, hle⟩, Nat.le_min.mpr ⟨hex.le_stop, hge⟩,
    le_trans (Nat.min_le_left ..) hex.stop_le⟩

theorem Covers.grantedLoop (modes : List LdlmMode) (hex : Covers ex (res.lock l).lReqExtent)
    (conflicting : ℤ) :
    ∃ ex' c', policyGrantedLoop res (res.lock l) modes ex conflicting = some (ex', c') ∧
      Covers ex' (res.lock l).lReqExtent := by
  induction modes generalizing ex conflicting with
  | nil => exact ⟨ex, conflicting, rfl, hex⟩
  | cons mode modes ih =>
    rw [policyGrantedLoop]
    split
    · exact ih hex conflicting
    · next hmode =>
      obtain ⟨ex', hlim, hex'⟩ := limit h hgr hstop (Bool.eq_false_of_not_eq_true hmode) hex
        (conflicting + (res.lrItree mode).litSize)
      rw [hlim]
      dsimp only [bind_eq_bind, bind_some]
      split
      · exact ⟨_, _, rfl, hex'⟩
      · exact ih hex' _

end

/-- A waiting lock cuts the extent, but not below the request. -/
theorem Covers.waiting (hstop : req.lReqExtent.stop ≤ obdObjectEof)
    (hex : Covers ex req.lReqExtent) :
    Covers ⟨waitingStart req lock ex.start, waitingStop req lock ex.stop⟩ req.lReqExtent := by
  have hstart := hex.start_le
  have hle := hex.le_stop
  have heof := hex.stop_le
  have hsub : ∀ x, sub64 x 1 ≤ obdObjectEof := fun x => Nat.le_sub_one_of_lt (u64_lt _)
  constructor
  case start_le =>
    rw [waitingStart]
    split
    · split
      · exact le_rfl
      · exact Nat.min_le_right ..
    · exact hstart
  case le_stop =>
    rw [waitingStop]
    split
    · split <;> exact Nat.le_max_right ..
    · exact hle
  case stop_le =>
    rw [waitingStop]
    split
    · split <;> exact Nat.max_le.mpr ⟨hsub _, hstop⟩
    · exact heof

theorem Covers.waitingLoop (hstop : (res.lock l).lReqExtent.stop ≤ obdObjectEof) (ks : List ℕ)
    (hex : Covers ex (res.lock l).lReqExtent) (conflicting : ℤ) :
    Covers (policyWaitingLoop res l ks ex conflicting).1 (res.lock l).lReqExtent := by
  induction ks generalizing ex conflicting with
  | nil => exact hex
  | cons k ks ih =>
    rw [policyWaitingLoop]
    dsimp only
    split
    · exact hex
    split
    · exact ih hex _
    split
    · exact ih hex _
    have hraised : Covers ⟨if 4 < conflicting + 1 then (res.lock l).lReqExtent.start else ex.start,
        ex.stop⟩ (res.lock l).lReqExtent := by
      refine ⟨?_, hex.le_stop, hex.stop_le⟩
      split
      · exact le_rfl
      · exact hex.start_le
    generalize (if 4 < conflicting + 1 then (res.lock l).lReqExtent.start else ex.start) = start
      at hraised ⊢
    split
    · exact ih hraised _
    split
    · exact ih hraised _
    · exact ih (hraised.waiting hstop) _

/-- A request that rounds well stays inside to the end. -/
theorem Covers.policy (hp : pageShift ≤ 63) (h : res.Inv trees) (hgr : res.Grantable l)
    (hstart : (res.lock l).lReqExtent.start ≤ obdObjectEof)
    (hstop : (res.lock l).lReqExtent.stop ≤ obdObjectEof)
    (hown : (res.lock l).lExtent = (res.lock l).lReqExtent)
    (hround : RoundsWell pageShift (res.lock l).lReqExtent.start (res.lock l).lReqExtent.stop) :
    ∃ ex, policyExtent pageShift res l = some ex ∧ Covers ex (res.lock l).lReqExtent := by
  have hlt : (res.lock l).lReqExtent.start < 2 ^ 64 := hstart.trans_lt (by decide)
  rw [policyExtent]
  split
  · rw [hown]
    exact fixup hp hlt hround ⟨le_rfl, le_rfl, hstop⟩ 0
  · have hwhole : Covers ⟨0, obdObjectEof⟩ (res.lock l).lReqExtent :=
      ⟨Nat.zero_le _, hstop, le_rfl⟩
    obtain ⟨ex1, c, hloop, hex1⟩ := hwhole.grantedLoop h hgr hstop itreeModes 0
    obtain ⟨ex2, hfix, hex2⟩ := hex1.fixup hp hlt hround c
    rw [ldlmExtentInternalPolicyGranted, hloop]
    dsimp only [bind_eq_bind, bind_some]
    rw [lassert_pos hex1.start_le, lassert_pos hex1.le_stop, hfix, bind_some,
      ldlmExtentInternalPolicyWaiting]
    have hex3 := hex2.waitingLoop hstop res.lrWaiting 0
    generalize policyWaitingLoop res l res.lrWaiting ex2 0 = out at hex3 ⊢
    obtain ⟨ex3, conflicting⟩ := out
    cases conflicting with
    | none => exact ⟨ex3, rfl, hex3⟩
    | some c => exact hex3.fixup hp hlt hround c

end Loops

/-! ## The assertions -/

/-- What a client asks for. -/
structure ExtentRequest where
  mode : LdlmMode
  extent : LdlmExtent
  /-- the client, none for the server itself -/
  lExport : Option ℕ
  /-- with `LDLM_FL_NO_EXPANSION` -/
  noExpansion : Bool

/-- The lock `l` was made for the request and is not granted yet. -/
structure ExtentResource.Requests (res : ExtentResource) (l : ℕ) (r : ExtentRequest) : Prop where
  /-- it was made -/
  made : l < res.created
  /-- and is not granted -/
  ungranted : l ∉ res.lrGranted
  /-- its mode -/
  mode : (res.lock l).lReqMode = r.mode
  /-- its extent -/
  reqExtent : (res.lock l).lReqExtent = r.extent
  /-- which is not changed yet -/
  extent : (res.lock l).lExtent = r.extent
  /-- its client -/
  lExport : (res.lock l).lExport = r.lExport
  /-- its flag -/
  noExpansion : (res.lock l).noExpansion = r.noExpansion

/-- The policy leaves an extent that contains the request. -/
def PolicyCovers (pageShift : ℕ) (res : ExtentResource) (l : ℕ) : Prop :=
  ∃ changed res', ldlmExtentPolicy pageShift res l = some (changed, res') ∧
    (res'.lock l).lExtent.start ≤ (res.lock l).lReqExtent.start ∧
    (res.lock l).lReqExtent.stop ≤ (res'.lock l).lExtent.stop

section Policy

variable {pageShift : ℕ} {res : ExtentResource} {l : ℕ} {r : ExtentRequest}

theorem policyCovers_of_exempt (hreq : res.Requests l r)
    (h : r.lExport = none ∨ r.extent.start = 0 ∧ r.extent.stop = obdObjectEof) :
    PolicyCovers pageShift res l := by
  have hsame : ldlmExtentPolicy pageShift res l = some (false, res) := by
    rw [ldlmExtentPolicy, hreq.lExport, hreq.extent]
    split
    · rfl
    · next hsome => exact if_pos (h.resolve_left hsome)
  refine ⟨false, res, hsame, ?_⟩
  rw [hreq.extent, hreq.reqExtent]
  exact ⟨le_rfl, le_rfl⟩

/-- For any other lock the extent is computed. -/
theorem ldlmExtentPolicy_eq (hreq : res.Requests l r)
    (h : ¬(r.lExport = none ∨ r.extent.start = 0 ∧ r.extent.stop = obdObjectEof)) :
    ldlmExtentPolicy pageShift res l = (policyExtent pageShift res l).map (policyStore res l) := by
  rw [not_or] at h
  rw [ldlmExtentPolicy, hreq.lExport, hreq.extent, if_neg h.1, if_neg h.2]

theorem policyCovers_of_roundsWell (hp : pageShift ≤ 63)
    (hreach : Reach extentStep (fun _ _ => True) extentResourceNew res) (hreq : res.Requests l r)
    (hgr : res.Grantable l) (hstart : r.extent.start ≤ obdObjectEof)
    (hstop : r.extent.stop ≤ obdObjectEof)
    (hround : RoundsWell pageShift r.extent.start r.extent.stop) :
    PolicyCovers pageShift res l := by
  by_cases hex : r.lExport = none ∨ r.extent.start = 0 ∧ r.extent.stop = obdObjectEof
  · exact policyCovers_of_exempt hreq hex
  obtain ⟨trees, hinv⟩ := extentRun_inv hreach
  rw [← hreq.reqExtent] at hstart hstop hround
  obtain ⟨ex, hpol, hcov⟩ := Covers.policy hp hinv hgr hstart hstop
    (hreq.extent.trans hreq.reqExtent.symm) hround
  refine ⟨(policyStore res l ex).1, (policyStore res l ex).2, ?_, ?_⟩
  · rw [ldlmExtentPolicy_eq hreq hex, hpol]
    rfl
  · rw [policyStore]
    split
    · rw [hreq.extent, hreq.reqExtent]
      exact ⟨le_rfl, le_rfl⟩
    · rw [ExtentResource.setLock_lock_self]
      exact ⟨hcov.start_le, hcov.le_stop⟩

/-- The request on a resource without granted locks, and a lock of the same client that waits for
`w`. -/
structure ExtentResource.Beside (res : ExtentResource) (r : ExtentRequest) (w : LdlmExtent) :
    Prop where
  requests : res.Requests 0 r
  granted : res.lrGranted = []
  itree : ∀ mode, res.lrItree mode = ⟨0, blankTree⟩
  waiting : res.lrWaiting = [1]
  extent : (res.lock 1).lExtent = w
  reqExtent : (res.lock 1).lReqExtent = w
  lExport : (res.lock 1).lExport = r.lExport

theorem exists_beside (r : ExtentRequest) (w : LdlmExtent) :
    ∃ res, Reach extentStep (fun _ _ => True) extentResourceNew res ∧ res.Beside r w := by
  refine ⟨_, .step (.wait 1) (.step (.create .nl w r.lExport false)
    (.step (.create r.mode r.extent r.lExport r.noExpansion) .start trivial rfl) trivial rfl)
    trivial rfl, ?_⟩
  exact ⟨⟨Nat.succ_pos 1, not_mem_nil, rfl, rfl, rfl, rfl, rfl⟩, rfl, fun _ => rfl, rfl, rfl,
    rfl, rfl⟩

/-- In an empty tree everything grows to the whole file. -/
theorem intervalExpand_blank (fuel : ℕ) {ext : IntervalExtent} (hstop : ext.stop ≤ obdObjectEof) :
    intervalExpand fuel blankTree ext (some ⟨0, obdObjectEof⟩) = some ⟨0, obdObjectEof⟩ := by
  have hlow : intervalExpandStart blankTree ext (some ⟨0, obdObjectEof⟩) = 0 := by
    rw [intervalExpandStart]
    split
    · rfl
    · next hno =>
      by_contra hne
      refine hno fun e he => ?_
      cases he
      exact Nat.pos_of_ne_zero hne
  have hhigh : intervalExpandStop fuel blankTree ext (some ⟨0, obdObjectEof⟩) = some obdObjectEof := by
    rw [intervalExpandStop]
    split
    · rw [intervalExpandHigh, show blankTree.root = none from rfl]
      cases fuel <;> rfl
    · next hno =>
      refine congrArg some (le_antisymm hstop (not_lt.mp fun hlt => hno fun e he => ?_))
      cases he
      exact hlt
  have hfree : ∀ e, assertNotOverlapped fuel blankTree e = some () := fun _ => rfl
  rw [intervalExpand, hfree, hhigh]
  dsimp only [bind_eq_bind, bind_some]
  rw [hfree, hlow]
  rfl

variable {w : LdlmExtent}

section

variable (h : res.Beside r w) (hwhole : ¬(r.extent.start = 0 ∧ r.extent.stop = obdObjectEof))
include h hwhole

theorem ExtentResource.Beside.ne_whole :
    (⟨0, obdObjectEof⟩ : IntervalExtent) ≠ (res.lock 0).lReqExtent.interval := by
  rw [h.requests.reqExtent]
  intro heq
  exact hwhole ⟨(congrArg start heq).symm, (congrArg stop heq).symm⟩

/-- Without granted locks the growth has no limit. -/
theorem ExtentResource.Beside.grantedLoop (hstop : r.extent.stop ≤ obdObjectEof)
    (modes : List LdlmMode) :
    policyGrantedLoop res (res.lock 0) modes ⟨0, obdObjectEof⟩ 0 = some (⟨0, obdObjectEof⟩, 0) := by
  induction modes with
  | nil => rfl
  | cons mode modes ih =>
    have hlimit : policyLimit res (res.lock 0) mode ⟨0, obdObjectEof⟩ 0 = some ⟨0, obdObjectEof⟩ := by
      have hgrow : intervalExpand res.fuel blankTree (res.lock 0).lReqExtent.interval
          (some ⟨0, obdObjectEof⟩) = some ⟨0, obdObjectEof⟩ :=
        intervalExpand_blank res.fuel (by rw [h.requests.reqExtent]; exact hstop)
      rw [policyLimit, h.itree]
      rw [if_neg (by decide), hgrow]
      rfl
    rw [policyGrantedLoop, h.itree]
    rw [Int.add_zero, hlimit]
    dsimp only [bind_eq_bind, bind_some]
    rw [if_neg (h.ne_whole hwhole), ih, ite_self]

theorem ExtentResource.Beside.waitingLoop (hw : w.start ≤ obdObjectEof)
    (hapart : extentOverlapped w.interval r.extent.interval = false) :
    policyWaitingLoop res 0 res.lrWaiting ⟨0, obdObjectEof⟩ 0 =
      (⟨waitingStart (res.lock 0) (res.lock 1) 0, waitingStop (res.lock 0) (res.lock 1) obdObjectEof⟩,
        some 1) := by
  have hsame : ¬(lockmodeCompat (res.lock 1).lReqMode (res.lock 0).lReqMode = true ∧
      (res.lock 1).lExport ≠ (res.lock 0).lExport) := fun hc =>
    hc.2 (h.lExport.trans h.requests.lExport.symm)
  have hover : extentOverlapped (res.lock 1).lExtent.interval ⟨0, obdObjectEof⟩ = true := by
    rw [h.extent, extentOverlapped_iff]
    exact ⟨hw, Nat.zero_le _⟩
  have hfree : ¬extentOverlapped (res.lock 1).lReqExtent.interval
      (res.lock 0).lReqExtent.interval = true := by
    rw [h.reqExtent, h.requests.reqExtent, hapart]
    exact Bool.false_ne_true
  have hfew : ¬(4 : ℤ) < 0 + 1 := by decide
  rw [h.waiting, policyWaitingLoop]
  dsimp only
  rw [if_neg (h.ne_whole hwhole), if_neg Nat.one_ne_zero, if_neg hsame, if_neg hfew,
    if_neg (not_not.mpr hover), if_neg hfree]
  rfl

end

/-- A request that does not round well can be cut. -/
theorem ExtentResource.Beside.policy_eq_none (hp : pageShift ≤ 63) (h : res.Beside r w)
    (hstart : r.extent.start ≤ obdObjectEof) (hstop : r.extent.stop ≤ obdObjectEof)
    (hex : ¬(r.lExport = none ∨ r.extent.start = 0 ∧ r.extent.stop = obdObjectEof))
    (hw : w.start ≤ obdObjectEof) (hapart : extentOverlapped w.interval r.extent.interval = false)
    (hcut : CutsAt pageShift r.extent (waitingStart (res.lock 0) (res.lock 1) 0)
      (waitingStop (res.lock 0) (res.lock 1) obdObjectEof)) :
    ldlmExtentPolicy pageShift res 0 = none := by
  have hext : (res.lock 0).lReqExtent = r.extent := h.requests.reqExtent
  have hlt : (res.lock 0).lReqExtent.start < 2 ^ 64 := by
    rw [hext]
    exact hstart.trans_lt (by decide)
  have hle : (res.lock 0).lReqExtent.stop ≤ obdObjectEof := by
    rw [hext]
    exact hstop
  rw [ldlmExtentPolicy_eq h.requests hex, policyExtent]
  rw [not_or] at hex
  split
  · -- the extent stays as it was asked for
    refine congrArg (Option.map (policyStore res 0)) (fixup_eq_none hp hlt hle ?_ (by decide))
    rw [hext, h.requests.extent]
    exact Or.imp (And.imp_right fun _ => rfl) (And.imp_right fun _ => rfl) hcut
  · have hfix : ldlmExtentInternalPolicyFixup pageShift (res.lock 0) ⟨0, obdObjectEof⟩ 0 =
        some ⟨0, obdObjectEof⟩ := by
      rw [ldlmExtentInternalPolicyFixup, fixupGrown_of_le (by decide)]
      exact if_pos ⟨rfl, rfl⟩
    rw [ldlmExtentInternalPolicyGranted, h.grantedLoop hex.2 hstop]
    dsimp only [bind_eq_bind, bind_some]
    rw [lassert_pos (Nat.zero_le _), lassert_pos hle, hfix, bind_some,
      ldlmExtentInternalPolicyWaiting, h.waitingLoop hex.2 hw hapart]
    refine congrArg (Option.map (policyStore res 0)) (fixup_eq_none hp hlt hle ?_ (by decide))
    rw [hext]
    exact hcut

/-- Beside a lock just above it the request ends where it was asked to. -/
theorem waitingStop_above (hlt : req.lReqExtent.stop < obdObjectEof)
    (hext : lock.lExtent = ⟨req.lReqExtent.stop + 1, req.lReqExtent.stop + 1, 0⟩) :
    waitingStop req lock obdObjectEof = req.lReqExtent.stop := by
  rw [obdObjectEof] at hlt
  have habove : req.lReqExtent.stop < lock.lExtent.stop := by
    rw [hext]
    exact Nat.lt_succ_self _
  have hout : ¬lock.lExtent.start ≤ req.lReqExtent.stop := by
    rw [hext]
    exact Nat.not_succ_le_self _
  have hprev : sub64 lock.lExtent.start 1 = req.lReqExtent.stop := by
    rw [hext, sub64_one (by dsimp only; omega) (by dsimp only; omega)]
    rfl
  rw [waitingStop]
  rw [if_pos habove, if_neg hout, hprev, Nat.max_self]

/-- **The assertions of `ldlm_extent_policy`**: for a request the extent granted contains the one
asked for, whatever the granted and the waiting locks are, exactly if the request is one of the
server itself, or is for the whole file, or rounds well. -/
theorem ldlmExtentPolicy_covers (hp : pageShift ≤ 63) (r : ExtentRequest)
    (hstart : r.extent.start ≤ obdObjectEof) (hstop : r.extent.stop ≤ obdObjectEof) :
    (∀ res l, Reach extentStep (fun _ _ => True) extentResourceNew res → res.Requests l r →
      res.Grantable l → PolicyCovers pageShift res l) ↔
    r.lExport = none ∨ (r.extent.start = 0 ∧ r.extent.stop = obdObjectEof) ∨
      RoundsWell pageShift r.extent.start r.extent.stop := by
  constructor
  · intro hall
    by_contra hno
    rw [← or_assoc, not_or] at hno
    obtain ⟨hex, hround⟩ := hno
    -- a lock of the same client waits just below or just above the request
    have hfail : ∀ w : LdlmExtent, w.start ≤ obdObjectEof →
        extentOverlapped w.interval r.extent.interval = false →
        (∀ req lock : ExtentLock, req.lReqExtent = r.extent → lock.lExtent = w →
          CutsAt pageShift r.extent (waitingStart req lock 0)
            (waitingStop req lock obdObjectEof)) → False := by
      intro w hw hapart hcut
      obtain ⟨res, hreach, hbeside⟩ := exists_beside r w
      have hgr : res.Grantable 0 := by
        intro k hk
        rw [hbeside.granted] at hk
        exact absurd hk not_mem_nil
      obtain ⟨changed, res', hrun, -⟩ := hall res 0 hreach hbeside.requests hgr
      rw [hbeside.policy_eq_none hp hstart hstop hex hw hapart
        (hcut _ _ hbeside.requests.reqExtent hbeside.extent)] at hrun
      cases hrun
    rw [RoundsWell, not_and_or] at hround
    rcases hround with hcut | hcut
    · have hpos : r.extent.start ≠ 0 := fun heq => hcut (.inl (heq ▸ Nat.dvd_zero _))
      refine hfail ⟨r.extent.start - 1, r.extent.start - 1, 0⟩ (by dsimp only; omega) ?_ ?_
      · rw [← Bool.not_eq_true, extentOverlapped_iff]
        dsimp only [LdlmExtent.interval]
        omega
      · intro req lock hreq hlock
        rw [← hreq] at hpos hstart hlock hcut ⊢
        -- beside a lock just below it the request starts where it was asked to
        refine .inl ⟨hcut, ?_⟩
        rw [obdObjectEof] at hstart
        rw [waitingStart, hlock]
        dsimp only
        rw [if_pos (by omega), if_neg (by omega), u64_of_lt (by omega), Nat.min_eq_right (by omega)]
    · have hlt : r.extent.stop < obdObjectEof := by
        refine lt_of_le_of_ne hstop fun heq => hcut (.inl ?_)
        rw [heq]
        exact Nat.pow_dvd_pow 2 (show pageShift ≤ 64 by omega)
      refine hfail ⟨r.extent.stop + 1, r.extent.stop + 1, 0⟩ (by dsimp only; omega) ?_ ?_
      · rw [← Bool.not_eq_true, extentOverlapped_iff]
        dsimp only [LdlmExtent.interval]
        omega
      · intro req lock hreq hlock
        rw [← hreq] at hlt hlock hcut ⊢
        exact .inr ⟨hcut, waitingStop_above hlt hlock⟩
  · intro h res l hreach hreq hgr
    rcases h with h | h | h
    · exact policyCovers_of_exempt hreq (.inl h)
    · exact policyCovers_of_exempt hreq (.inr h)
    · exact policyCovers_of_roundsWell hp hreach hreq hgr hstart hstop h

/-- One page, aligned, with a writer of another client two pages behind it, up to which the extent
grows. -/
theorem ldlmExtentPolicy_covers_page : ∃ res,
    Reach extentStep (fun _ _ => True) extentResourceNew res ∧ res.lrGranted = [0] ∧
      res.Requests 1 ⟨.pw, ⟨4096, 8191, 0⟩, some 0, false⟩ ∧ res.Grantable 1 ∧
      (ldlmExtentPolicy 12 res 1).map (fun r => (r.2.lock 1).lExtent) = some ⟨4096, 16383, 0⟩ ∧
      PolicyCovers 12 res 1 := by
  have hcovers := (ldlmExtentPolicy_covers (show 12 ≤ 63 by decide)
    ⟨.pw, ⟨4096, 8191, 0⟩, some 0, false⟩ (by decide) (by decide)).mpr
    (.inr (.inr ⟨.inl (by decide), .inl (by decide)⟩))
  obtain ⟨res, hreach, hgranted, hlock, hcreated, hext, hbeside⟩ : ∃ res,
      Reach extentStep (fun _ _ => True) extentResourceNew res ∧ res.lrGranted = [0] ∧
      res.lock 1 = { extentLockBlank with
        lReqMode := .pw, lReqExtent := ⟨4096, 8191, 0⟩, lExtent := ⟨4096, 8191, 0⟩,
        lExport := some 0, lTreeNode := some 1 } ∧ 1 < res.created ∧
      (ldlmExtentPolicy 12 res 1).map (fun r => (r.2.lock 1).lExtent) = some ⟨4096, 16383, 0⟩ ∧
      (res.lock 0).lExtent = ⟨16384, 20479, 0⟩ :=
    exists_reach [.create .pw ⟨16384, 20479, 0⟩ (some 1) false, .grant 0,
      .create .pw ⟨4096, 8191, 0⟩ (some 0) false] (by decide +kernel)
  have hreq : res.Requests 1 ⟨.pw, ⟨4096, 8191, 0⟩, some 0, false⟩ := by
    constructor <;> simp only [hlock, hgranted, hcreated]
    all_goals decide
  have hgr : res.Grantable 1 := by
    intro k hk _
    rw [hgranted] at hk
    rw [mem_singleton.mp hk, hbeside, hlock]
    rfl
  exact ⟨res, hreach, hgranted, hreq, hgr, hext, hcovers res 1 hreach hreq hgr⟩

/-- A lock on the bytes 5 to 10 that is not to be expanded runs into the assertion, on a resource
without other locks: its start is rounded up to 4096. -/
theorem ldlmExtentPolicy_unaligned : ∃ res,
    Reach extentStep (fun _ _ => True) extentResourceNew res ∧
      res.Requests 0 ⟨.pw, ⟨5, 10, 0⟩, some 0, true⟩ ∧ res.Grantable 0 ∧
      ldlmExtentPolicy 12 res 0 = none := by
  refine ⟨_, .step (.create .pw ⟨5, 10, 0⟩ (some 0) true) .start trivial rfl,
    ⟨Nat.succ_pos 0, not_mem_nil, rfl, rfl, rfl, rfl, rfl⟩,
    fun k hk => absurd hk not_mem_nil, ?_⟩
  exact Option.isNone_iff_eq_none.mp (by decide +kernel)

end Policy

end Lustre
