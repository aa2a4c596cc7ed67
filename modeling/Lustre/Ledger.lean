import Mathlib.Algebra.BigOperators.Group.Finset.Piecewise

/-!
# Accounts and their total

A ledger is a family of accounts over a finite type of owners. A posting changes one
account; the total changes by as much.
-/

namespace Lustre.Ledger

open Finset
open Function (update)

universe u v

variable {ι : Type u} {M : Type v} [DecidableEq ι] [AddCommGroup M]

/-- The accounts after a posting of `d` to the account of `i`. -/
def post (f : ι → M) (i : ι) (d : M) : ι → M := update f i (f i + d)

theorem sum_post [Fintype ι] (f : ι → M) (i : ι) (d : M) : ∑ j, post f i d j = ∑ j, f j + d := by
  rw [post, sum_update_of_mem (mem_univ i), ← add_sum_erase univ f (mem_univ i),
    sdiff_singleton_eq_erase]
  exact add_right_comm _ _ _

section

variable {α : Type*} {N : Type*} [AddCommMonoid N] [Fintype ι] (f : α → N) (g : ι → α) (i : ι) (v : α)

/-- The total of what the owners hold when the owner `i` holds `v` instead. -/
theorem sum_update : ∑ j, f (update g i v j) = ∑ j ∈ univ.erase i, f (g j) + f v := by
  have hupdate : ∀ j, f (update g i v j) =
      update (fun k => f (g k)) i (f v) j := fun j =>
    Function.apply_update (fun _ => f) g i v j
  rw [sum_congr rfl fun j _ => hupdate j, sum_update_of_mem (mem_univ i), sdiff_singleton_eq_erase,
    add_comm]

/-- A total stays one when it changes by as much. -/
theorem total_update [IsRightCancelAdd N] {t t' : N} (h : t = ∑ j, f (g j))
    (hchange : t' + f (g i) = t + f v) : t' = ∑ j, f (update g i v j) := by
  rw [h, ← sum_erase_add univ (fun j => f (g j)) (mem_univ i), add_right_comm,
    ← sum_update f g] at hchange
  exact add_right_cancel hchange

end

end Lustre.Ledger
