import Lustre.Run
import Lustre.Word

/-!
# The token buckets of the TBF policy (`nrs_tbf.c`)

A client of the policy has a bucket of tokens. `nrs_tbf_req_get` adds the tokens of the time since
the client's last request and takes one for the next request, or finds none and arms a timer. An
ordinary rule caps the bucket at its depth. A realtime rule does not, and carries what is left of a
period on.

The timer is armed one period ahead, and periods are rounded down: unless the rate divides a second,
the call at the deadline finds no token (`tbf_deadline_early`). After a long time the product of
time and rate also wraps around. Otherwise the timer is right (`tbf_deadline`).

What is left of a period becomes a token only when it exceeds one, so it may be left at a whole
period, and it is kept when the period changes: then a later `LASSERT` fails (`tbf_resid_full`).
Unless one of the two happens it stays below a period, and with one rule a client gets no more than
the depth and a request a period (`tbf_resid`).
-/

namespace Lustre

def nsecPerSec : ℕ := 10 ^ 9

/-- `struct nrs_tbf_rule` -/
structure TbfRule where
  trRpcRate : ℕ
  /-- `tr_nsecs`: the period -/
  trNsecs : ℕ
  trDepth : ℕ

/-- The bucket of a `struct nrs_tbf_client`. -/
structure TbfClient where
  tcRpcRate : ℕ
  tcNsecs : ℕ
  tcNtoken : ℕ
  tcDepth : ℕ
  tcCheckTime : ℕ
  tcNsecsResid : ℕ

def nrsTbfRuleChangeRate (rule : TbfRule) (rate : ℕ) : TbfRule :=
  { rule with trRpcRate := rate, trNsecs := nsecPerSec / rate }

def nrsTbfCliResetValue (rule : TbfRule) (c : TbfClient) (now : ℕ) : TbfClient :=
  ⟨rule.trRpcRate, rule.trNsecs, rule.trDepth, rule.trDepth, now, c.tcNsecsResid⟩

namespace TbfClient

variable (c : TbfClient) (now : ℕ)

/-- The tokens at a time. -/
def tokens : ℕ :=
  u64 (u64 ((now - c.tcCheckTime) * c.tcRpcRate) / nsecPerSec + c.tcNtoken)

/-- The end of `nrs_tbf_req_get`: a request is dequeued, or the timer armed for a deadline. -/
def spend (ntoken resid : ℕ) : Option ℕ × TbfClient :=
  if 0 < ntoken then
    (none, { c with tcNtoken := ntoken - 1, tcCheckTime := now, tcNsecsResid := resid })
  else (some (u64 (c.tcCheckTime + c.tcNsecs)), c)

/-- `nrs_tbf_req_get` of the client at the root of the heap: the deadline of the timer, if it is
armed. -/
def nrsTbfReqGet (realtime : Bool) : Option (Option ℕ × TbfClient) :=
  lassert (c.tcCheckTime ≤ now) <|
    if realtime then
      let resid := c.tcNsecsResid + (now - c.tcCheckTime) % c.tcNsecs
      lassert (c.tcNsecsResid < c.tcNsecs) <| some <|
        if c.tcNsecs < resid then c.spend now (u64 (c.tokens now + 1)) (resid - c.tcNsecs)
        else c.spend now (c.tokens now) resid
    else some (c.spend now (min (c.tokens now) c.tcDepth) c.tcNsecsResid)

variable {c now}

/-! ## The timer -/

/-- A request is dequeued where there is a token. -/
theorem dequeues_iff (h : c.tcCheckTime ≤ now) :
    (∃ c', c.nrsTbfReqGet now false = some (none, c')) ↔ 0 < c.tokens now ∧ 0 < c.tcDepth := by
  rw [nrsTbfReqGet, lassert_pos h, if_neg Bool.false_ne_true, spend, ← Nat.lt_min]
  split <;> simp_all

theorem tokens_pos_iff (h : c.tcNtoken = 0) :
    0 < c.tokens now ↔ nsecPerSec ≤ u64 ((now - c.tcCheckTime) * c.tcRpcRate) := by
  have hlt := u64_lt ((now - c.tcCheckTime) * c.tcRpcRate)
  rw [tokens, h, Nat.add_zero, u64_of_lt (Nat.lt_of_le_of_lt (Nat.div_le_self ..) hlt)]
  exact Nat.div_pos_iff.trans (and_iff_right (by decide))

section Deadline

variable (hpos : 0 < c.tcRpcRate) (hmax : c.tcRpcRate ≤ 65535)
  (hnsecs : c.tcNsecs = nsecPerSec / c.tcRpcRate)
include hpos hmax hnsecs

/-- In all the time there is, the product wraps around or stays above a second. -/
theorem product_wraps {last : ℕ} (hle : 2 ^ 64 ≤ last * c.tcRpcRate) :
    ∃ p, c.tcNsecs ≤ p ∧ p ≤ last ∧ u64 (p * c.tcRpcRate) < nsecPerSec := by
  have hmod := Nat.mod_lt (2 ^ 64 + c.tcRpcRate - 1) hpos
  have hdiv := Nat.div_add_mod (2 ^ 64 + c.tcRpcRate - 1) c.tcRpcRate
  rw [Nat.mul_comm] at hdiv
  refine ⟨(2 ^ 64 + c.tcRpcRate - 1) / c.tcRpcRate, ?_, ?_, ?_⟩
  · rw [hnsecs]
    exact Nat.div_le_div_right (by rw [nsecPerSec]; omega)
  · refine Nat.le_of_lt_succ ((Nat.div_lt_iff_lt_mul hpos).mpr ?_)
    rw [Nat.succ_mul]
    omega
  · generalize (2 ^ 64 + c.tcRpcRate - 1) / c.tcRpcRate * c.tcRpcRate = x at hdiv
    rw [u64, nsecPerSec]
    omega

/-- The call at any time from the deadline on finds a token exactly when the bucket has a depth, the
rate divides a second and the product of time and rate never wraps around. -/
theorem tbf_deadline (htoken : c.tcNtoken < 2 ^ 64) (htime : c.tcCheckTime + c.tcNsecs < 2 ^ 63)
    {deadline : ℕ} (hnow : now < 2 ^ 63)
    (hnone : c.nrsTbfReqGet now false = some (some deadline, c)) :
    (∀ t, deadline ≤ t → t < 2 ^ 63 → ∃ c', c.nrsTbfReqGet t false = some (none, c')) ↔
      0 < c.tcDepth ∧ c.tcNtoken = 0 ∧ c.tcRpcRate ∣ nsecPerSec ∧
        (2 ^ 63 - 1 - c.tcCheckTime) * c.tcRpcRate < 2 ^ 64 := by
  have hcheck : c.tcCheckTime ≤ now := (of_lassert hnone).1
  have hfound : ¬ (0 < c.tokens now ∧ 0 < c.tcDepth) := by
    rw [← dequeues_iff hcheck, hnone]
    simp
  obtain rfl : c.tcCheckTime + c.tcNsecs = deadline := by
    rw [nrsTbfReqGet, lassert_pos hcheck, if_neg Bool.false_ne_true, spend,
      if_neg (by rwa [Nat.lt_min]), u64_of_lt (by omega)] at hnone
    simpa using hnone
  have hle : c.tcNsecs * c.tcRpcRate ≤ nsecPerSec := hnsecs ▸ Nat.div_mul_le_self ..
  constructor
  · intro hall
    have hat : ∀ t, c.tcCheckTime + c.tcNsecs ≤ t → t < 2 ^ 63 → 0 < c.tokens t ∧ 0 < c.tcDepth :=
      fun t ht hlt => (dequeues_iff (by omega)).mp (hall t ht hlt)
    obtain ⟨hone, hdepth⟩ := hat _ le_rfl htime
    have hzero : c.tcNtoken = 0 := by
      -- tokens that add up to none have wrapped around, and `now` is behind the deadline
      by_contra hne
      have hnow' : ¬ c.tcCheckTime + c.tcNsecs ≤ now := fun hdl => hfound (hat now hdl hnow)
      have hlt : (now - c.tcCheckTime) * c.tcRpcRate < nsecPerSec := by
        refine Nat.lt_of_lt_of_le (Nat.mul_lt_mul_of_pos_right ?_ hpos) hle
        omega
      have htokens : c.tokens now = c.tcNtoken := by
        have hmul : nsecPerSec < 2 ^ 64 := by decide
        rw [tokens, u64_of_lt (hlt.trans hmul), Nat.div_eq_of_lt hlt, Nat.zero_add,
          u64_of_lt htoken]
      omega
    have hpast : ∀ p, c.tcNsecs ≤ p → c.tcCheckTime + p < 2 ^ 63 →
        nsecPerSec ≤ u64 (p * c.tcRpcRate) := by
      intro p hp hlt
      have := (tokens_pos_iff hzero).mp (hat (c.tcCheckTime + p) (by omega) hlt).1
      rwa [Nat.add_sub_cancel_left] at this
    refine ⟨hdepth, hzero, ⟨c.tcNsecs, ?_⟩, ?_⟩
    · have hge := (hpast _ le_rfl htime).trans (Nat.mod_le ..)
      rw [Nat.mul_comm]
      omega
    · by_contra hwraps
      obtain ⟨p, hp, hlast, hsmall⟩ := product_wraps hpos hmax hnsecs (not_lt.mp hwraps)
      exact absurd (hpast p hp (by omega)) (not_le.mpr hsmall)
  · rintro ⟨hdepth, hzero, hdvd, hbound⟩ t ht hlt
    refine (dequeues_iff (by omega)).mpr ⟨(tokens_pos_iff hzero).mpr ?_, hdepth⟩
    have hlast : (t - c.tcCheckTime) * c.tcRpcRate < 2 ^ 64 :=
      Nat.lt_of_le_of_lt (Nat.mul_le_mul_right _ (by omega)) hbound
    rw [u64_of_lt hlast]
    calc nsecPerSec = c.tcNsecs * c.tcRpcRate := by rw [hnsecs, Nat.div_mul_cancel hdvd]
      _ ≤ (t - c.tcCheckTime) * c.tcRpcRate := Nat.mul_le_mul_right _ (by omega)

end Deadline

/-- With two requests a second the timer is right. -/
theorem tbf_deadline_two : nrsTbfReqGet ⟨2, 5 * 10 ^ 8, 0, 3, 0, 0⟩ 0 false =
      some (some (5 * 10 ^ 8), ⟨2, 5 * 10 ^ 8, 0, 3, 0, 0⟩) ∧
    ∀ t, 5 * 10 ^ 8 ≤ t → t < 2 ^ 63 → ∃ c',
      nrsTbfReqGet ⟨2, 5 * 10 ^ 8, 0, 3, 0, 0⟩ t false = some (none, c') := by
  have hnone : nrsTbfReqGet ⟨2, 5 * 10 ^ 8, 0, 3, 0, 0⟩ 0 false =
      some (some (5 * 10 ^ 8), ⟨2, 5 * 10 ^ 8, 0, 3, 0, 0⟩) := rfl
  exact ⟨hnone, (tbf_deadline (by decide) (by decide) (by decide) (by decide) (by decide)
    (by decide) hnone).mpr (by decide)⟩

/-- With three requests a second the call at the deadline finds no token. -/
theorem tbf_deadline_early : nrsTbfReqGet ⟨3, nsecPerSec / 3, 0, 3, 0, 0⟩ 0 false =
      some (some 333333333, ⟨3, nsecPerSec / 3, 0, 3, 0, 0⟩) ∧
    nrsTbfReqGet ⟨3, nsecPerSec / 3, 0, 3, 0, 0⟩ 333333333 false =
      some (some 333333333, ⟨3, nsecPerSec / 3, 0, 3, 0, 0⟩) := ⟨rfl, rfl⟩

/-! ## What is left of a period -/

section Realtime

variable (hpos : 0 < c.tcRpcRate) (hperiod : c.tcNsecs * c.tcRpcRate ≤ nsecPerSec)
  (hresid : c.tcNsecsResid < c.tcNsecs)
include hpos hperiod hresid

theorem tokens_le : c.tokens now * c.tcNsecs + (now - c.tcCheckTime) % c.tcNsecs ≤
    c.tcNtoken * c.tcNsecs + (now - c.tcCheckTime) := by
  have hfit : u64 ((now - c.tcCheckTime) * c.tcRpcRate) / nsecPerSec ≤
      (now - c.tcCheckTime) / c.tcNsecs := by
    rw [Nat.le_div_iff_mul_le (Nat.zero_lt_of_lt hresid)]
    refine Nat.le_of_mul_le_mul_right ?_ hpos
    rw [Nat.mul_assoc]
    exact (Nat.mul_le_mul_left _ hperiod).trans
      ((Nat.div_mul_le_self ..).trans (Nat.mod_le ..))
  have htokens : c.tokens now ≤ (now - c.tcCheckTime) / c.tcNsecs + c.tcNtoken :=
    (Nat.mod_le ..).trans (Nat.add_le_add_right hfit _)
  have hle := Nat.mul_le_mul_right c.tcNsecs htokens
  have hdiv := Nat.div_add_mod' (now - c.tcCheckTime) c.tcNsecs
  rw [Nat.add_mul] at hle
  omega

/-- A call under a realtime rule makes up no tokens, and leaves less than a period unless it leaves
a whole one. -/
theorem realtime_get (hcheck : c.tcCheckTime ≤ now) :
    ∃ n r, c.nrsTbfReqGet now true = some (c.spend now n r) ∧
      n * c.tcNsecs + r ≤ c.tcNtoken * c.tcNsecs + c.tcNsecsResid + (now - c.tcCheckTime) ∧
      ((0 < n → r < c.tcNsecs) ↔ c.tokens now = 0 ∨
        c.tcNsecsResid + (now - c.tcCheckTime) % c.tcNsecs ≠ c.tcNsecs) := by
  have hle := @tokens_le c now hpos hperiod hresid
  have hmod := Nat.mod_lt (now - c.tcCheckTime) (Nat.zero_lt_of_lt hresid)
  rw [nrsTbfReqGet, lassert_pos hcheck, if_pos rfl, lassert_pos hresid]
  split
  · next hcarry =>
    refine ⟨_, _, rfl, ?_, by omega⟩
    have hwrap := Nat.mul_le_mul_right c.tcNsecs (Nat.mod_le (c.tokens now + 1) (2 ^ 64))
    rw [Nat.succ_mul] at hwrap
    rw [u64]
    omega
  · next hcarry => exact ⟨_, _, rfl, by omega, by omega⟩

end Realtime

end TbfClient

/-! ## Runs of a realtime rule -/

/-- A client under a realtime rule. -/
structure TbfRun where
  rule : TbfRule
  client : TbfClient
  clock : ℕ
  /-- the requests dequeued -/
  served : ℕ

/-- What happens to the client. -/
inductive TbfOp where
  /-- it is examined for a request -/
  | get (now : ℕ)
  /-- the rate changes, and the client is reset -/
  | change (rate now : ℕ)

open TbfClient

namespace TbfRun

/-- A new client. -/
def start (rate depth now : ℕ) : TbfRun :=
  let rule : TbfRule := ⟨rate, nsecPerSec / rate, depth⟩
  ⟨rule, nrsTbfCliResetValue rule ⟨0, 0, 0, 0, 0, 0⟩ now, now, 0⟩

variable (s : TbfRun)

/-- One step. -/
def step : TbfOp → Option TbfRun
  | .get now => (s.client.nrsTbfReqGet now true).map fun r =>
      ⟨s.rule, r.2, now, if r.1 = none then s.served + 1 else s.served⟩
  | .change rate now =>
    let rule := nrsTbfRuleChangeRate s.rule rate
    some ⟨rule, nrsTbfCliResetValue rule s.client now, now, s.served⟩

/-- Time goes on, and rates are from 1 to 65535. -/
def Use : TbfOp → Prop
  | .get now => s.clock ≤ now
  | .change rate now => s.clock ≤ now ∧ 0 < rate ∧ rate ≤ 65535

/-- What is left of a period does not become a whole one when a token is taken, and is below the
new period when the rate changes. -/
def Spared : TbfOp → Prop
  | .get now => s.client.tokens now = 0 ∨ s.client.tcNsecsResid +
      (now - s.client.tcCheckTime) % s.client.tcNsecs ≠ s.client.tcNsecs
  | .change rate _ => s.client.tcNsecsResid < nsecPerSec / rate

/-- The client is in order. -/
structure Ok : Prop where
  rate : 0 < s.client.tcRpcRate
  period : s.client.tcNsecs * s.client.tcRpcRate ≤ nsecPerSec
  check : s.client.tcCheckTime ≤ s.clock
  resid : s.client.tcNsecsResid < s.client.tcNsecs

variable {s} {s' : TbfRun} {op : TbfOp} {rate depth now : ℕ}

/-- A step is made, and leaves less than a period exactly when it is spared. -/
theorem Ok.step (h : s.Ok) (huse : s.Use op) : ∃ s', s.step op = some s' ∧
    (s'.client.tcNsecsResid < s'.client.tcNsecs ↔ s.Spared op) ∧ (s.Spared op → s'.Ok) := by
  cases op with
  | get now =>
    obtain ⟨n, r, hget, -, hspared⟩ :=
      realtime_get h.rate h.period h.resid (h.check.trans huse)
    have hresid := h.resid
    refine ⟨_, by rw [TbfRun.step, hget]; rfl, ?_⟩
    rw [spend, Spared, ← hspared]
    split
    · next hn =>
      refine ⟨⟨fun hr _ => hr, fun hr => hr hn⟩, fun hr => ?_⟩
      exact ⟨h.rate, h.period, le_rfl, hr hn⟩
    · next hn =>
      refine ⟨iff_of_true hresid fun hpos => absurd hpos hn, fun _ => ?_⟩
      exact ⟨h.rate, h.period, h.check.trans huse, hresid⟩
  | change rate now =>
    refine ⟨_, rfl, Iff.rfl, fun hr => ?_⟩
    exact ⟨huse.2.1, Nat.div_mul_le_self .., le_rfl, hr⟩

/-- What a client has been given, has and has left over since it was new. -/
structure Account (depth since : ℕ) (s : TbfRun) : Prop extends Ok s where
  since_le : since ≤ s.client.tcCheckTime
  paid : (s.served + s.client.tcNtoken) * s.client.tcNsecs + s.client.tcNsecsResid ≤
    depth * s.client.tcNsecs + (s.client.tcCheckTime - since)

theorem Account.get {since : ℕ} (h : s.Account depth since) (huse : s.Use (.get now))
    (hspared : s.Spared (.get now)) (hs : s.step (.get now) = some s') :
    s'.Account depth since := by
  obtain ⟨s1, hs1, -, hok⟩ := h.toOk.step huse
  cases hs1.symm.trans hs
  have hnow : s.client.tcCheckTime ≤ now := h.check.trans huse
  have hsince := h.since_le
  have hpaid := h.paid
  obtain ⟨n, r, hget, hmade, -⟩ := realtime_get h.rate h.period h.resid hnow
  rw [TbfRun.step, hget, spend] at hs
  rw [Nat.add_mul] at hpaid
  split at hs
  · next hn =>
    cases hs
    refine ⟨hok hspared, hsince.trans hnow, ?_⟩
    simp only [if_pos]
    rw [show s.served + 1 + (n - 1) = s.served + n by omega, Nat.add_mul]
    omega
  · cases hs
    exact ⟨hok hspared, hsince, h.paid⟩

/-- In every run whose steps are spared, less than a period is left, and a further call does not
fail; a step leaves a whole period or more exactly when it is not spared. With one rule no more
requests are dequeued than the depth and one a period. -/
theorem tbf_resid (hrate : 0 < rate ∧ rate ≤ 65535) :
    (∀ s, Reach step (fun s op => s.Use op ∧ s.Spared op) (start rate depth now) s →
      s.client.tcNsecsResid < s.client.tcNsecs ∧ ∀ op, s.Use op → ∃ s', s.step op = some s' ∧
        (s'.client.tcNsecsResid < s'.client.tcNsecs ↔ s.Spared op)) ∧
    ∀ s, Reach step (fun s op => (s.Use op ∧ s.Spared op) ∧ ∃ t, op = .get t)
        (start rate depth now) s →
      s.served ≤ depth + (s.clock - now) / s.client.tcNsecs := by
  have hpos : 0 < nsecPerSec / rate :=
    Nat.div_pos (hrate.2.trans (by decide)) hrate.1
  have hstart : (start rate depth now).Ok :=
    ⟨hrate.1, Nat.div_mul_le_self .., le_rfl, hpos⟩
  constructor
  · intro s hrun
    have hok : s.Ok := by
      refine hrun.invariant Ok hstart fun s op s' h hop hs => ?_
      obtain ⟨s1, hs1, -, hok⟩ := h.step hop.1
      cases hs1.symm.trans hs
      exact hok hop.2
    refine ⟨hok.resid, fun op huse => ?_⟩
    obtain ⟨s', hs, hiff, -⟩ := hok.step huse
    exact ⟨s', hs, hiff⟩
  · intro s hrun
    have hacc : s.Account depth now := by
      refine hrun.invariant (Account depth now) ⟨hstart, le_rfl, ?_⟩ ?_
      · simp [start, nrsTbfCliResetValue]
      · rintro s _ s' h ⟨⟨huse, hspared⟩, t, rfl⟩ hs
        exact h.get huse hspared hs
    have hpaid := hacc.paid
    have hcheck := hacc.check
    have hn := Nat.zero_lt_of_lt hacc.resid
    rw [Nat.add_comm, ← Nat.add_mul_div_right _ _ hn, Nat.le_div_iff_mul_le hn]
    rw [Nat.add_mul] at hpaid
    omega

/-- A client with two requests a second takes its first at once, one after 0.7 s, and one after
1.1 s from what the 0.7 s have left over. Then its rate is doubled. -/
theorem tbf_resid_first : ∃ s s', Reach step
      (fun s op => (s.Use op ∧ s.Spared op) ∧ ∃ t, op = .get t) (start 2 1 0) s ∧
    s.served = 3 ∧ s.served ≤ 1 + s.clock / s.client.tcNsecs ∧
    s.step (.change 4 (12 * 10 ^ 8)) = some s' ∧ s'.client.tcNsecsResid = 10 ^ 8 ∧
    s'.client.tcNsecsResid < s'.client.tcNsecs := by
  have hfirst : Reach step (fun s op => (s.Use op ∧ s.Spared op) ∧ ∃ t, op = .get t) (start 2 1 0)
      ⟨⟨2, nsecPerSec / 2, 1⟩, ⟨2, nsecPerSec / 2, 0, 1, 7 * 10 ^ 8, 2 * 10 ^ 8⟩, 7 * 10 ^ 8, 2⟩ :=
    .step (.get (7 * 10 ^ 8)) (.step (.get 0) .start ⟨⟨le_rfl, .inr (by decide)⟩, _, rfl⟩ rfl)
      ⟨⟨Nat.zero_le _, .inr (by decide)⟩, _, rfl⟩ rfl
  have hrun : Reach step _ (start 2 1 0)
      ⟨⟨2, nsecPerSec / 2, 1⟩, ⟨2, nsecPerSec / 2, 0, 1, 11 * 10 ^ 8, 10 ^ 8⟩, 11 * 10 ^ 8, 3⟩ :=
    .step (.get (11 * 10 ^ 8)) hfirst
      ⟨⟨show 7 * 10 ^ 8 ≤ 11 * 10 ^ 8 by decide, .inl (by decide)⟩, _, rfl⟩ rfl
  obtain ⟨hresid, hserved⟩ := @tbf_resid 2 1 0 (by decide)
  obtain ⟨s', hs', hiff⟩ := (hresid _ (hrun.invariant _ .start
    fun _ op _ h hok hs => .step op h hok.1 hs)).2 (.change 4 (12 * 10 ^ 8))
      ⟨show 11 * 10 ^ 8 ≤ 12 * 10 ^ 8 by decide, by decide, by decide⟩
  refine ⟨_, s', hrun, rfl, hserved _ hrun, hs', ?_, hiff.mpr ?_⟩
  · cases hs'
    rfl
  · exact show 10 ^ 8 < nsecPerSec / 4 by decide

/-- With one request a second, the calls after half a second and after a second leave a whole
period, and the next one fails. -/
theorem tbf_resid_full : ∃ s, Reach step Use (start 1 3 0) s ∧
    s.client.tcNsecsResid = s.client.tcNsecs ∧ s.step (.get (10 ^ 9)) = none := by
  have hrun : Reach step Use (start 1 3 0)
      ⟨⟨1, nsecPerSec, 3⟩, ⟨1, nsecPerSec, 2, 3, 5 * 10 ^ 8, 5 * 10 ^ 8⟩, 5 * 10 ^ 8, 1⟩ :=
    .step (.get (5 * 10 ^ 8)) .start (Nat.zero_le _) rfl
  exact ⟨⟨⟨1, nsecPerSec, 3⟩, ⟨1, nsecPerSec, 1, 3, 10 ^ 9, nsecPerSec⟩, 10 ^ 9, 2⟩,
    .step (.get (10 ^ 9)) hrun (show 5 * 10 ^ 8 ≤ 10 ^ 9 by decide) rfl, rfl, rfl⟩

end TbfRun

end Lustre
