import Mathlib.Data.List.Basic

/-!
# One record behind a journal

A record is overwritten by transactions that a journal commits in order. A write is
asynchronous, and may carry a commit callback, or synchronous, and then commits with
everything before it. A callback runs some time after the commit of its write, and a
crash loses the writes that are not committed and the callbacks that have not run.

`Journal.records` are the values that a crash may leave behind, now or later, and
`Journal.outstanding` counts the callbacks that have not run.
-/

namespace Lustre

open List

/-- A record of type `ρ` and the transactions that write it. -/
structure Journal (ρ : Type*) where
  /-- the value on disk, `none` before the first write -/
  committed : Option ρ
  /-- the writes that are not committed, oldest first, each with whether it has a callback -/
  pending : List (ρ × Bool)
  /-- callbacks of committed writes that have not run -/
  due : ℕ
  deriving DecidableEq

namespace Journal

variable {ρ : Type*}

/-- The writes of `l` that have a callback. -/
def callbacks (l : List (ρ × Bool)) : ℕ := l.countP fun w => w.2

variable (j : Journal ρ)

/-- The callbacks that have not run. -/
def outstanding : ℕ := j.due + callbacks j.pending

/-- The values that a crash may leave behind. -/
def records : List ρ := j.committed.toList ++ j.pending.map Prod.fst

/-- An asynchronous write. -/
def write (r : ρ) (cb : Bool) : Journal ρ :=
  { j with pending := j.pending ++ [(r, cb)] }

/-- A synchronous write without a callback. -/
def sync (r : ρ) : Journal ρ where
  committed := some r
  pending := []
  due := j.outstanding

/-- The oldest write is committed. -/
def commit : Journal ρ :=
  match j.pending with
  | [] => j
  | w :: rest => ⟨some w.1, rest, j.due + w.2.toNat⟩

/-- The oldest callback whose write is committed has run. -/
def ran : Journal ρ := { j with due := j.due - 1 }

/-- What a crash leaves. -/
def crash : Journal ρ := ⟨j.committed, [], 0⟩

@[simp] theorem mem_records_write {j : Journal ρ} {r x : ρ} {cb : Bool} :
    x ∈ (j.write r cb).records ↔ x ∈ j.records ∨ x = r := by
  simp only [records, write, map_append, mem_append, map_cons, map_nil,
    mem_singleton, or_assoc]

@[simp] theorem outstanding_write (j : Journal ρ) (r : ρ) (cb : Bool) :
    (j.write r cb).outstanding = j.outstanding + cb.toNat := by
  have hone : callbacks [(r, cb)] = cb.toNat := by cases cb <;> rfl
  have happend : callbacks (j.pending ++ [(r, cb)]) = callbacks j.pending + callbacks [(r, cb)] :=
    countP_append
  calc (j.write r cb).outstanding = j.due + callbacks (j.pending ++ [(r, cb)]) := rfl
    _ = j.outstanding + cb.toNat := by rw [happend, hone, outstanding, Nat.add_assoc]

/-- A commit only drops the value it overwrites. -/
theorem records_commit_subset (j : Journal ρ) : j.commit.records ⊆ j.records := by
  intro r hr
  rw [commit] at hr
  split at hr
  · exact hr
  · next w rest hp =>
    rw [records, hp]
    exact mem_append_right _ hr

@[simp] theorem outstanding_commit (j : Journal ρ) : j.commit.outstanding = j.outstanding := by
  rw [commit]
  split
  · rfl
  · next w rest hp =>
    obtain ⟨r, cb⟩ := w
    rw [outstanding, outstanding, hp, callbacks, callbacks, countP_cons]
    cases cb with
    | false => rfl
    | true => exact Nat.add_right_comm j.due 1 _

/-- A callback that has run is no longer outstanding. -/
theorem outstanding_ran {j : Journal ρ} (h : 0 < j.due) :
    j.ran.outstanding = j.outstanding - 1 := by
  change j.due - 1 + callbacks j.pending = j.due + callbacks j.pending - 1
  omega

end Journal

end Lustre
