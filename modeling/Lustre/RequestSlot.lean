import Lustre.Run
import Mathlib.Data.Int.Notation
import Mathlib.Data.List.Basic

/-!
# The request slots of a client (`genops.c`)

A client has at most `cl_max_rpcs_in_flight` requests in flight. A thread that finds no free
slot waits on `cl_flight_waiters`; whoever frees a slot takes the first waiter off the list and
counts the slot for it. A signal may end the wait at the same moment. A waiter that is off the
list by then gives the slot back, but does not pass it on (`handOff_lost`); nothing else leaves
a waiter asleep beside a free slot (`noLostHandOff`).

When the limit is raised, as many waiters get a slot as the limit grows by, whatever is in
flight. Where the limit was lowered before, that is too many (`handed_at_limit`). All other
slots are handed out below the limit (`handed_below_limit`).
-/

namespace Lustre

open List

def obdMaxRifMax : ℕ := 512

/-- The slots of a `struct client_obd`, and the threads that use them. -/
structure RequestSlots where
  clMaxRpcsInFlight : ℕ
  clRpcsInFlight : ℕ
  clFlightWaiters : List ℕ
  /-- the waiters that are off the list and have not run yet -/
  granted : List ℕ
  /-- how many slots are held -/
  holders : ℕ
  /-- `cl_rpcs_in_flight` and the limit in force whenever a slot was handed out -/
  handed : List (ℕ × ℕ)
  deriving DecidableEq

/-- A critical section. -/
inductive SlotOp where
  /-- a thread asks for a slot -/
  | get (t : ℕ)
  /-- the wait of a thread has ended with `rc` -/
  | afterWait (t : ℕ) (rc : ℤ)
  | put
  /-- the limit is set -/
  | setMax (max : ℕ) (rc : ℤ)

variable (s : RequestSlots)

open RequestSlots

namespace RequestSlots

/-- A slot is handed out. -/
def take : RequestSlots :=
  { s with
    clRpcsInFlight := s.clRpcsInFlight + 1
    handed := (s.clRpcsInFlight, s.clMaxRpcsInFlight) :: s.handed }

/-- The first waiter, if there is one, is taken off the list and gets a slot. -/
def wakeFirst : RequestSlots :=
  match s.clFlightWaiters with
  | [] => s
  | t :: ts => { s.take with clFlightWaiters := ts, granted := t :: s.granted }

/-- `obd_get_request_slot` of a thread, up to its wait. -/
def obdGetRequestSlot (t : ℕ) : RequestSlots :=
  if s.clRpcsInFlight < s.clMaxRpcsInFlight then { s.take with holders := s.holders + 1 }
  else { s with clFlightWaiters := s.clFlightWaiters ++ [t] }

/-- The rest of `obd_get_request_slot`; `none` if the thread is not in its wait, or has nothing
to end it. -/
def afterWait (t : ℕ) (rc : ℤ) : Option RequestSlots :=
  if t ∈ s.clFlightWaiters then
    if rc = 0 then none else some { s with clFlightWaiters := s.clFlightWaiters.erase t }
  else if t ∈ s.granted then
    some <| if rc = 0 then { s with granted := s.granted.erase t, holders := s.holders + 1 }
      else { s with granted := s.granted.erase t, clRpcsInFlight := s.clRpcsInFlight - 1 }
  else none

def obdPutRequestSlot : RequestSlots :=
  let s := { s with clRpcsInFlight := s.clRpcsInFlight - 1, holders := s.holders - 1 }
  if s.clRpcsInFlight < s.clMaxRpcsInFlight then s.wakeFirst else s

/-- The loop of `obd_set_max_rpcs_in_flight`. -/
def wakeLoop : ℕ → RequestSlots → RequestSlots
  | 0, s => s
  | i + 1, s => if s.clFlightWaiters = [] then s else wakeLoop i s.wakeFirst

/-- `obd_set_max_rpcs_in_flight`; `rc` is what an MDC returns when it adjusts
`cl_max_mod_rpcs_in_flight` first, and zero elsewhere. -/
def obdSetMaxRpcsInFlight (max : ℕ) (rc : ℤ) : RequestSlots :=
  if obdMaxRifMax < max ∨ max < 1 ∨ rc ≠ 0 then s
  else wakeLoop (max - s.clMaxRpcsInFlight) { s with clMaxRpcsInFlight := max }

/-- One critical section; a thread in its wait does not ask again, and slots are put by their
holders. -/
def step : SlotOp → Option RequestSlots
  | .get t => if t ∈ s.clFlightWaiters ∨ t ∈ s.granted then none else s.obdGetRequestSlot t
  | .afterWait t rc => s.afterWait t rc
  | .put => if 0 < s.holders then some s.obdPutRequestSlot else none
  | .setMax max rc => some (s.obdSetMaxRpcsInFlight max rc)

/-- A client whose slots are all free. -/
def start (max : ℕ) : RequestSlots := ⟨max, 0, [], [], 0, []⟩

variable {s s' : RequestSlots} {op : SlotOp} {max : ℕ}

/-! ## No waiter is left beside a free slot -/

/-- Where a thread waits, `n` more slots use up the limit. -/
def Busy (n : ℕ) (s : RequestSlots) : Prop :=
  s.clFlightWaiters ≠ [] → s.clMaxRpcsInFlight ≤ s.clRpcsInFlight + n

theorem Busy.wakeFirst {n : ℕ} (h : s.Busy (n + 1)) : s.wakeFirst.Busy n := by
  intro hw
  rw [RequestSlots.wakeFirst] at hw ⊢
  split at hw
  · next hnil => exact absurd hnil hw
  · next hcons =>
    have hle := h (hcons ▸ cons_ne_nil _ _)
    simp only [hcons, take]
    omega

theorem Busy.wakeLoop (n : ℕ) (h : s.Busy n) : (wakeLoop n s).Busy 0 := by
  induction n generalizing s with
  | zero => exact h
  | succ n ih =>
    rw [wakeLoop]
    split
    · next hnil => exact fun hw => absurd hnil hw
    · exact ih h.wakeFirst

/-- A waiter that has a slot is interrupted only if nobody else waits, or if the limit is
exceeded. -/
def NoSlotBack (s : RequestSlots) : SlotOp → Prop
  | .afterWait t rc => rc ≠ 0 → t ∉ s.clFlightWaiters →
      s.clFlightWaiters = [] ∨ s.clMaxRpcsInFlight < s.clRpcsInFlight
  | _ => True

instance (s : RequestSlots) (op : SlotOp) : Decidable (s.NoSlotBack op) := by
  cases op <;> dsimp only [NoSlotBack] <;> infer_instance

theorem Busy.step (h : s.Busy 0) (hop : s.NoSlotBack op) (hs : s.step op = some s') :
    s'.Busy 0 := by
  cases op with
  | get t =>
    obtain ⟨-, hs⟩ := Option.ite_none_left_eq_some.mp hs
    cases hs
    rw [obdGetRequestSlot]
    split
    · exact fun hw => Nat.le_succ_of_le (h hw)
    · next hfull => exact fun _ => Nat.not_lt.mp hfull
  | afterWait t rc =>
    rw [step, afterWait] at hs
    split_ifs at hs with hin hrc hgr hrc
    · cases hs
      exact fun hw => h fun hnil => hw (by rw [hnil]; rfl)
    · cases hs
      exact h
    · cases hs
      intro hw
      have hlt := (hop hrc hin).resolve_left hw
      exact Nat.le_sub_one_of_lt hlt
  | put =>
    obtain ⟨-, hs⟩ := Option.ite_none_right_eq_some.mp hs
    cases hs
    rw [obdPutRequestSlot]
    split
    · refine Busy.wakeFirst fun hw => ?_
      have hle := h hw
      show s.clMaxRpcsInFlight ≤ s.clRpcsInFlight - 1 + (0 + 1)
      omega
    · next hfull => exact fun _ => Nat.not_lt.mp hfull
  | setMax max rc =>
    cases hs
    rw [obdSetMaxRpcsInFlight]
    split
    · exact h
    · refine Busy.wakeLoop _ fun hw => ?_
      have hle := h hw
      show max ≤ s.clRpcsInFlight + (max - s.clMaxRpcsInFlight)
      omega

/-- **No lost hand-off**: where a waiter that has a slot is not interrupted while others wait and
the limit is not exceeded, no thread waits beside a free slot. -/
theorem noLostHandOff (h : Reach step NoSlotBack (start max) s) (hw : s.clFlightWaiters ≠ []) :
    s.clMaxRpcsInFlight ≤ s.clRpcsInFlight :=
  h.invariant (Busy 0) (fun hw => absurd rfl hw) (fun _ _ _ hb hop hs => hb.step hop hs) hw

/-- A slot is handed to the first of three waiters, which is interrupted after the limit has been
lowered. Another one is interrupted on the list, and the third waits while the slots are held. -/
theorem noLostHandOff_lowered : ∃ s, Reach step NoSlotBack (start 2) s ∧
    (s.clFlightWaiters, s.holders, s.handed.length) = ([3], 1, 3) ∧
    s.clMaxRpcsInFlight ≤ s.clRpcsInFlight := by
  obtain ⟨s, hrun, hs⟩ : ∃ s, Reach step NoSlotBack (start 2) s ∧
      (s.clFlightWaiters, s.holders, s.handed.length) = ([3], 1, 3) :=
    exists_reach [.get 0, .get 1, .get 2, .get 3, .get 4, .put, .setMax 1 0, .afterWait 2 (-4),
      .afterWait 4 (-4)] (by decide)
  have hw : s.clFlightWaiters = [3] := congrArg Prod.fst hs
  exact ⟨s, hrun, hs, noLostHandOff hrun (hw ▸ cons_ne_nil _ _)⟩

/-- A waiter gets a slot at the moment a signal ends its wait: another one stays on the list
beside a free slot. -/
theorem handOff_lost : ∃ s, Reach step (fun _ _ => True) (start 1) s ∧
    (s.clFlightWaiters, s.clRpcsInFlight, s.clMaxRpcsInFlight) = ([2], 0, 1) :=
  exists_reach [.get 0, .get 1, .get 2, .put, .afterWait 1 (-4)] (by decide)

/-! ## Slots are handed out below the limit -/

/-- What is in flight is what is held or granted, and every slot was handed out below the
limit. -/
structure Bounded (s : RequestSlots) : Prop where
  /-- `cl_rpcs_in_flight` counts the slots -/
  counted : s.clRpcsInFlight = s.holders + s.granted.length
  /-- the limit in force was respected -/
  below : ∀ p ∈ s.handed, p.1 < p.2

theorem Bounded.wakeFirst (h : s.Bounded)
    (hroom : s.clFlightWaiters ≠ [] → s.clRpcsInFlight < s.clMaxRpcsInFlight) :
    s.wakeFirst.Bounded := by
  rw [RequestSlots.wakeFirst]
  split
  · exact h
  · next hcons =>
    have hlt := hroom (hcons ▸ cons_ne_nil _ _)
    exact ⟨congrArg (· + 1) h.counted, forall_mem_cons.mpr ⟨hlt, h.below⟩⟩

/-- As many waiters as a loop of `n` rounds wakes find room. -/
def Room (n : ℕ) (s : RequestSlots) : Prop :=
  ∀ i < min n s.clFlightWaiters.length, s.clRpcsInFlight + i < s.clMaxRpcsInFlight

theorem Bounded.wakeLoop (n : ℕ) (h : s.Bounded) (hroom : s.Room n) : (wakeLoop n s).Bounded := by
  induction n generalizing s with
  | zero => exact h
  | succ n ih =>
    rw [RequestSlots.wakeLoop]
    split
    · exact h
    · next hne =>
      have hpos := length_pos_iff.mpr hne
      refine ih (h.wakeFirst fun _ => hroom 0 (by omega)) fun i hi => ?_
      have hnext := hroom (i + 1)
      rw [RequestSlots.wakeFirst] at hi ⊢
      split at hi
      · next hnil => exact absurd hnil hne
      · next hcons =>
        rw [hcons, length_cons] at hnext
        simp only [hcons, take] at hi ⊢
        omega

/-- A limit that is raised leaves room for the waiters that are woken. -/
def RaisedBelow (s : RequestSlots) : SlotOp → Prop
  | .setMax max rc => ¬ (obdMaxRifMax < max ∨ max < 1 ∨ rc ≠ 0) →
      Room (max - s.clMaxRpcsInFlight) { s with clMaxRpcsInFlight := max }
  | _ => True

theorem Bounded.step (h : s.Bounded) (hop : s.RaisedBelow op) (hs : s.step op = some s') :
    s'.Bounded := by
  have hcounted := h.counted
  cases op with
  | get t =>
    obtain ⟨-, hs⟩ := Option.ite_none_left_eq_some.mp hs
    cases hs
    rw [obdGetRequestSlot]
    split
    · next hlt =>
      refine ⟨?_, forall_mem_cons.mpr ⟨hlt, h.below⟩⟩
      simp only [take]
      omega
    · exact ⟨hcounted, h.below⟩
  | afterWait t rc =>
    rw [step, afterWait] at hs
    split_ifs at hs with hin hrc hgr hrc
    · cases hs
      exact ⟨hcounted, h.below⟩
    all_goals
      cases hs
      refine ⟨?_, h.below⟩
      have hpos := length_pos_of_mem hgr
      simp only [length_erase_of_mem hgr]
      omega
  | put =>
    obtain ⟨hpos, hs⟩ := Option.ite_none_right_eq_some.mp hs
    cases hs
    have hput : Bounded
        { s with clRpcsInFlight := s.clRpcsInFlight - 1, holders := s.holders - 1 } := by
      refine ⟨?_, h.below⟩
      dsimp only
      omega
    rw [obdPutRequestSlot]
    split
    · next hlt => exact hput.wakeFirst fun _ => hlt
    · exact hput
  | setMax max rc =>
    cases hs
    rw [obdSetMaxRpcsInFlight]
    split
    · exact h
    · next hset => exact Bounded.wakeLoop _ ⟨hcounted, h.below⟩ (hop hset)

/-- **Bounded concurrency**: where a limit is raised only if the waiters woken by it find room,
what is in flight is what is held or granted, and slots are handed out below the limit only. -/
theorem handed_below_limit (h : Reach step RaisedBelow (start max) s) : s.Bounded :=
  h.invariant Bounded ⟨rfl, fun _ hp => absurd hp not_mem_nil⟩
    fun _ _ _ hb hop hs => hb.step hop hs

/-- A limit that is raised from one to two hands a slot to the waiter. -/
theorem handed_below_limit_raised : ∃ s, Reach step RaisedBelow (start 1) s ∧
    s.handed = [(1, 2), (0, 1)] ∧ s.Bounded := by
  have hrun : Reach step RaisedBelow (start 1) ⟨2, 2, [], [1], 1, [(1, 2), (0, 1)]⟩ :=
    .step (.setMax 2 0) (.step (.get 1) (.step (.get 0) .start trivial rfl) trivial rfl)
      (fun _ => (by decide : ∀ i < 1, 1 + i < 2)) rfl
  exact ⟨_, hrun, rfl, handed_below_limit hrun⟩

/-- The limit goes from two to one and back while two slots are held and a thread waits: the
third slot is handed out at two of two. -/
theorem handed_at_limit : ∃ s, Reach step (fun _ _ => True) (start 2) s ∧
    s.handed = [(2, 2), (1, 2), (0, 2)] :=
  exists_reach [.get 0, .get 1, .get 2, .setMax 1 0, .setMax 2 0] (by decide)

end RequestSlots

end Lustre
