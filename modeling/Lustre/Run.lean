import Mathlib.Order.Basic

/-!
# Runs of a state machine

A machine is a partial step function `step : σ → α → Option σ`: `none` means
that the step stops the machine (a failed assertion). `Reach step ok s0` are the
states of the runs from `s0` all of whose steps meet `ok`, a condition on the
state before the step and on its input. An invariant needs one lemma about a
single step; `Reach.invariant` turns it into a statement about every state of
every run. A concrete run is executed by `runChecked`.
-/

namespace Lustre

universe u v

variable {σ : Type u} {α : Type v}

/-- The states reachable from `s0` by steps that meet `ok`. -/
inductive Reach (step : σ → α → Option σ) (ok : σ → α → Prop) (s0 : σ) : σ → Prop where
  /-- the run that has not started -/
  | start : Reach step ok s0 s0
  /-- one step more -/
  | step {s s' : σ} (a : α) : Reach step ok s0 s → ok s a → step s a = some s' → Reach step ok s0 s'

variable {step : σ → α → Option σ} {ok : σ → α → Prop} {s0 s : σ}

/-- The induction rule: what holds at the start and is kept by every step that
meets `ok` holds in every reachable state. -/
theorem Reach.invariant (P : σ → Prop) (hstart : P s0)
    (hstep : ∀ s a s', P s → ok s a → step s a = some s' → P s')
    (h : Reach step ok s0 s) : P s := by
  induction h with
  | start => exact hstart
  | step a _ hok hs ih => exact hstep _ a _ ih hok hs

/-- A guarded step that was taken: the guard holds, and the result is the guarded one. -/
theorem of_guard {p : Prop} [Decidable p] {x y : σ} (h : (if p then some x else none) = some y) :
    p ∧ x = y := by
  obtain ⟨hp, hx⟩ := Option.ite_none_right_eq_some.mp h
  exact ⟨hp, Option.some.inj hx⟩

/-- `LASSERT`: go on if the condition holds. -/
def lassert {α : Type*} (p : Prop) [Decidable p] (x : Option α) : Option α := if p then x else none

theorem lassert_pos {α : Type*} {p : Prop} [Decidable p] {x : Option α} (h : p) :
    lassert p x = x := if_pos h

theorem of_lassert {α : Type*} {p : Prop} [Decidable p] {x : Option α} {y : α}
    (h : lassert p x = some y) : p ∧ x = some y := Option.ite_none_right_eq_some.mp h

/-- Execute a list of inputs, each of which has to pass a check. -/
def runChecked (step : σ → α → Option σ) (check : σ → α → Bool) : σ → List α → Option σ
  | s, [] => some s
  | s, a :: as => if check s a then (step s a).bind fun s' => runChecked step check s' as else none

/-- An executed list is a run, when what passes the check meets `ok` in the states
of an invariant. -/
theorem reach_of_runChecked {check : σ → α → Bool} (P : σ → Prop)
    (hok : ∀ s a, P s → check s a = true → ok s a)
    (hstep : ∀ s a s', P s → check s a = true → step s a = some s' → P s') (as : List α) :
    ∀ {s s'}, P s → Reach step ok s0 s → runChecked step check s as = some s' →
      Reach step ok s0 s' ∧ P s' := by
  induction as with
  | nil =>
    intro s s' hP hr hrun
    cases hrun
    exact ⟨hr, hP⟩
  | cons a as ih =>
    intro s s' hP hr hrun
    rw [runChecked] at hrun
    split at hrun
    · next hcheck =>
      obtain ⟨t, hs, hrest⟩ := Option.bind_eq_some_iff.mp hrun
      exact ih (hstep s a t hP hcheck hs) (.step a hr (hok s a hP hcheck) hs) hrest
    · cases hrun

/-- A list of inputs that meet a decidable `ok`, executed, is a run; a decidable `P` of its last
state is computed. -/
theorem exists_reach [∀ s a, Decidable (ok s a)] (as : List α) {P : σ → Prop} [DecidablePred P]
    (h : ((runChecked step (fun s a => decide (ok s a)) s0 as).any fun s => decide (P s)) = true) :
    ∃ s, Reach step ok s0 s ∧ P s := by
  obtain ⟨s, hrun, hP⟩ := (Option.any_eq_true _ _).mp h
  have hstart : Reach step ok s0 s0 := .start
  have hreach := reach_of_runChecked (fun _ => True) (fun _ _ _ hc => of_decide_eq_true hc)
    (fun _ _ _ _ _ _ => trivial) as trivial hstart hrun
  exact ⟨s, hreach.1, of_decide_eq_true hP⟩

end Lustre
