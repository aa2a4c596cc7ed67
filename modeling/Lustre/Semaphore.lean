import Mathlib.Algebra.BigOperators.Group.Finset.Basic

/-!
# Credits with a queue

A counter of credits that goes below zero: who takes a credit that is not there has to wait, in
order of arrival, and who gives one back wakes the first that waits. `Semaphore.Counts` is the
account that taking and giving keep: who holds a credit, waiting or not, is counted, and the queue
is as long as the counter is below zero.

`Credit.Account` is that account for a table of counters and a table of records that say of each
client which counter it uses, whether it holds a credit of it and whether it waits there.
-/

namespace Lustre

open Finset List

universe u v w

/-! ## Who holds what -/

open Function (update update_of_ne update_self)

section

variable {ι : Type u} {α : Type v} {S : Finset ι} {P : α → Prop} [DecidablePred P] {g : ι → α}
  {i : ι} {x : α}

/-- Those of a set whose record meets a condition. -/
def holders (S : Finset ι) (P : α → Prop) [DecidablePred P] (g : ι → α) : Finset ι :=
  S.filter fun i => P (g i)

theorem mem_holders : i ∈ holders S P g ↔ i ∈ S ∧ P (g i) := mem_filter

variable [DecidableEq ι]

/-- A record comes to meet the condition. -/
theorem holders_update_pos (hi : i ∈ S) (hx : P x) :
    holders S P (update g i x) = insert i (holders S P g) := by
  ext j
  rw [mem_insert, mem_holders, mem_holders]
  by_cases hj : j = i
  · subst hj
    simp [hi, hx]
  · simp [hj]

/-- A record no longer meets the condition. -/
theorem holders_update_neg (hx : ¬ P x) : holders S P (update g i x) = (holders S P g).erase i := by
  ext j
  rw [mem_erase, mem_holders, mem_holders]
  by_cases hj : j = i
  · subst hj
    simp [hx]
  · simp [hj]

/-- A change that the condition does not see. -/
theorem holders_update_iff (h : P x ↔ P (g i)) : holders S P (update g i x) = holders S P g := by
  ext j
  rw [mem_holders, mem_holders]
  by_cases hj : j = i
  · subst hj
    simp [h]
  · simp [hj]

/-- A new record that does not meet the condition. -/
theorem holders_insert (hi : i ∉ S) (hx : ¬ P x) :
    holders (insert i S) P (update g i x) = holders S P g := by
  ext j
  rw [mem_holders, mem_holders, mem_insert]
  by_cases hj : j = i
  · subst hj
    simp [hi, hx]
  · simp [hj]

/-- A change that a measure of the records does not see. -/
theorem update_measure {β : Type*} (w : α → β) (h : w x = w (g i)) :
    (fun j => w (update g i x j)) = fun j => w (g j) := by
  funext j
  by_cases hj : j = i
  · subst hj
    simp [h]
  · simp [hj]

/-- A sum over the records, when one of them changes. -/
theorem sum_update_add (hi : i ∈ S) (w : α → ℤ) :
    (∑ j ∈ S, w (update g i x j)) + w (g i) = (∑ j ∈ S, w (g j)) + w x := by
  rw [← add_sum_erase S _ hi, ← add_sum_erase S (fun j => w (g j)) hi]
  have hrest : ∑ j ∈ S.erase i, w (update g i x j) = ∑ j ∈ S.erase i, w (g j) := by
    refine sum_congr rfl fun j hj => ?_
    rw [update_of_ne (ne_of_mem_erase hj)]
  rw [hrest, update_self]
  omega

end

/-! ## The counter and its queue -/

/-- A counter of credits, and those that wait for one. -/
structure Semaphore (ι : Type u) where
  /-- the credits that are left, or less than zero -/
  credits : ℤ
  /-- those that wait -/
  queue : List ι
  /-- all that have ever had to wait, in order of arrival -/
  arrived : List ι

namespace Semaphore

variable {ι : Type u} {s : Semaphore ι} {initial : ℤ} {H : Finset ι} {i j : ι}

/-- Take a credit, and wait if there is none. -/
def take (s : Semaphore ι) (i : ι) : Semaphore ι :=
  if s.credits - 1 < 0 then ⟨s.credits - 1, s.queue ++ [i], s.arrived ++ [i]⟩
  else ⟨s.credits - 1, s.queue, s.arrived⟩

/-- Give a credit back; the first that waits stops waiting. -/
def give (s : Semaphore ι) : Semaphore ι :=
  if s.credits + 1 ≤ 0 then ⟨s.credits + 1, s.queue.tail, s.arrived⟩
  else ⟨s.credits + 1, s.queue, s.arrived⟩

/-- The account, where `H` hold a credit. -/
structure Counts (initial : ℤ) (H : Finset ι) (s : Semaphore ι) : Prop where
  credits : s.credits = initial - H.card
  length : (s.queue.length : ℤ) = max 0 (-s.credits)
  nodup : s.queue.Nodup
  holds : ∀ i ∈ s.queue, i ∈ H
  order : s.queue <:+ s.arrived

/-- Nobody holds a credit and nobody waits. -/
theorem Counts.start (h : 0 ≤ s.credits) (hq : s.queue = []) : Counts s.credits ∅ s := by
  refine ⟨by simp, ?_, by simp [hq], by simp [hq], by simp [hq]⟩
  rw [hq]
  simp [h]

/-- Somebody waits exactly when a credit is missing. -/
theorem Counts.neg_iff (h : Counts initial H s) : s.credits < 0 ↔ s.queue ≠ [] := by
  have hlen := h.length
  cases hq : s.queue with
  | nil =>
    rw [hq, length_nil] at hlen
    simp only [ne_eq, not_true_eq_false, iff_false]
    omega
  | cons i rest =>
    rw [hq, length_cons] at hlen
    simp only [ne_eq, cons_ne_nil, not_false_eq_true, iff_true]
    omega

theorem Counts.take [DecidableEq ι] (h : Counts initial H s) (hi : i ∉ H) :
    Counts initial (insert i H) (s.take i) := by
  have hcredits := h.credits
  have hlen := h.length
  have hcard : (insert i H).card = H.card + 1 := card_insert_of_notMem hi
  rw [Semaphore.take]
  split
  · next hneg =>
    refine ⟨by simp only; omega, ?_, ?_, ?_, ?_⟩
    · simp only [List.length_append, List.length_singleton]
      omega
    · refine List.nodup_append.mpr ⟨h.nodup, List.nodup_singleton _, ?_⟩
      intro a ha b hb hab
      rw [List.mem_singleton] at hb
      exact hi (hb ▸ hab ▸ h.holds a ha)
    · intro j hj
      rcases List.mem_append.mp hj with hj | hj
      · exact mem_insert_of_mem (h.holds j hj)
      · rw [List.mem_singleton.mp hj]
        exact mem_insert_self _ _
    · obtain ⟨served, hserved⟩ := h.order
      exact ⟨served, by rw [← List.append_assoc, hserved]⟩
  · next hneg =>
    refine ⟨by simp only; omega, ?_, h.nodup, ?_, h.order⟩
    · simp only
      omega
    · intro j hj
      exact mem_insert_of_mem (h.holds j hj)

theorem Counts.give [DecidableEq ι] (h : Counts initial H s) (hi : i ∈ H) (hq : i ∉ s.queue) :
    Counts initial (H.erase i) s.give := by
  have hcredits := h.credits
  have hlen := h.length
  have hcard := card_erase_add_one hi
  have hmem : ∀ j ∈ s.queue, j ∈ H.erase i := by
    intro j hj
    exact mem_erase.mpr ⟨fun heq => hq (heq ▸ hj), h.holds j hj⟩
  rw [Semaphore.give]
  split
  · refine ⟨by simp only; omega, ?_, h.nodup.tail, ?_, (tail_suffix _).trans h.order⟩
    · simp only [length_tail]
      omega
    · intro j hj
      exact hmem j (mem_of_mem_tail hj)
  · refine ⟨by simp only; omega, ?_, h.nodup, hmem, h.order⟩
    simp only
    omega

theorem mem_take : j ∈ (s.take i).queue ↔ j ∈ s.queue ∨ (j = i ∧ s.credits - 1 < 0) := by
  rw [take]
  split <;> simp_all

/-- Where a credit is still missing, there is a first one that waits. -/
theorem Counts.queue_cons (h : Counts initial H s) (hneg : s.credits + 1 ≤ 0) :
    ∃ j rest, s.queue = j :: rest := by
  cases hq : s.queue with
  | nil => exact absurd hq (h.neg_iff.mp (by omega))
  | cons j rest => exact ⟨j, rest, rfl⟩

end Semaphore

/-! ## Tables of counters and clients -/

/-- One kind of credit: what the record of a client says about it. -/
structure Credit (α : Type v) (κ : Type w) where
  /-- the counter the client uses -/
  key : α → κ
  /-- it holds a credit -/
  holds : α → Bool
  /-- it waits for it -/
  waits : α → Bool

namespace Credit

variable {ι : Type u} {α : Type v} {κ : Type w} (c : Credit α κ)

/-- The client holds a credit of a counter. -/
def Holds (k : κ) (x : α) : Prop := c.holds x = true ∧ c.key x = k

/-- The client waits for a credit of a counter. -/
def Waits (k : κ) (x : α) : Prop := c.waits x = true ∧ c.key x = k

variable [DecidableEq κ]

instance (k : κ) : DecidablePred (c.Holds k) := fun _ => inferInstanceAs (Decidable (_ ∧ _))

instance (k : κ) : DecidablePred (c.Waits k) := fun _ => inferInstanceAs (Decidable (_ ∧ _))

/-- The account of a table of counters, for the clients `S`. -/
structure Account (initial : κ → ℤ) (S : Finset ι) (g : ι → α) (sem : κ → Semaphore ι) : Prop where
  counts : ∀ k, (sem k).Counts (initial k) (holders S (c.Holds k) g)
  /-- and those wait in its queue whose record says so -/
  waits : ∀ k i, i ∈ (sem k).queue ↔ i ∈ holders S (c.Waits k) g

/-- Two records that say the same. -/
structure Same (x y : α) : Prop where
  key : c.key x = c.key y
  holds : c.holds x = c.holds y
  waits : c.waits x = c.waits y

variable {c} [DecidableEq ι] {initial : κ → ℤ} {S : Finset ι} {g : ι → α} {sem : κ → Semaphore ι}
  {i j : ι} {x y : α} {k : κ}

/-- A change that this kind of credit does not see. -/
theorem Account.same (h : c.Account initial S g sem) (hsame : c.Same x (g i)) :
    c.Account initial S (update g i x) sem := by
  refine ⟨?_, ?_⟩
  · intro k
    rw [holders_update_iff (by rw [Holds, Holds, hsame.holds, hsame.key])]
    exact h.counts k
  · intro k j
    rw [holders_update_iff (by rw [Waits, Waits, hsame.waits, hsame.key])]
    exact h.waits k j

/-- A new client that neither holds a credit nor waits. -/
theorem Account.insert (h : c.Account initial S g sem) (hi : i ∉ S) (hholds : c.holds x = false)
    (hwaits : c.waits x = false) : c.Account initial (insert i S) (update g i x) sem := by
  refine ⟨?_, ?_⟩
  · intro k
    rw [holders_insert hi (by rw [Holds, hholds]; exact fun hx => Bool.false_ne_true hx.1)]
    exact h.counts k
  · intro k j
    rw [holders_insert hi (by rw [Waits, hwaits]; exact fun hx => Bool.false_ne_true hx.1)]
    exact h.waits k j

omit [DecidableEq κ] in
/-- Another counter does not see the change. -/
theorem holders_other {P : κ → α → Prop} [∀ k, DecidablePred (P k)]
    (hP : ∀ k x, P k x → c.key x = k) (hkey : c.key x = c.key (g i)) {l : κ}
    (hl : l ≠ c.key (g i)) : holders S (P l) (update g i x) = holders S (P l) g := by
  refine holders_update_iff (iff_of_false ?_ ?_)
  · intro hx
    exact hl ((hP l x hx).symm.trans hkey)
  · intro hg
    exact hl (hP l _ hg).symm

section

variable (h : c.Account initial S g sem)
include h

/-- A client takes a credit, and waits if there is none. -/
theorem Account.take (hi : i ∈ S) (hkey : c.key x = c.key (g i))
    (hholds : c.holds (g i) = false) (hholds' : c.holds x = true) (hwaits : c.waits (g i) = false)
    (hwaits' : c.waits x = true ↔ (sem (c.key (g i))).credits - 1 < 0) :
    c.Account initial S (update g i x) (update sem (c.key (g i)) ((sem (c.key (g i))).take i)) := by
  refine ⟨?_, ?_⟩
  · intro l
    by_cases hl : l = c.key (g i)
    · subst hl
      rw [update_self, holders_update_pos hi ⟨hholds', hkey⟩]
      refine (h.counts _).take ?_
      intro hmem
      exact Bool.false_ne_true (hholds.symm.trans (mem_holders.mp hmem).2.1)
    · rw [update_of_ne hl, holders_other (fun _ _ hP => hP.2) hkey hl]
      exact h.counts l
  · intro l j
    by_cases hl : l = c.key (g i)
    · subst hl
      rw [update_self, Semaphore.mem_take, h.waits]
      by_cases hx : c.waits x = true
      · rw [holders_update_pos hi ⟨hx, hkey⟩, mem_insert]
        simp only [hwaits'.mp hx, and_true]
        exact or_comm
      · rw [holders_update_neg fun hP => hx hP.1, erase_eq_of_notMem]
        · simp only [mt hwaits'.mpr hx, and_false, or_false]
        · intro hmem
          exact Bool.false_ne_true (hwaits.symm.trans (mem_holders.mp hmem).2.1)
    · rw [update_of_ne hl, holders_other (fun _ _ hP => hP.2) hkey hl]
      exact h.waits l j

section

variable (hi : i ∈ S) (hkey : c.key x = c.key (g i)) (hholds : c.holds (g i) = true)
  (hholds' : c.holds x = false) (hwaits : c.waits (g i) = false)
include hi hkey hholds hholds' hwaits

/-- The counters after a credit was given back. -/
theorem Account.counts_give (l : κ) :
    (update sem (c.key (g i)) (sem (c.key (g i))).give l).Counts (initial l)
      (holders S (c.Holds l) (update g i x)) := by
  by_cases hl : l = c.key (g i)
  · subst hl
    rw [update_self, holders_update_neg fun hP => Bool.false_ne_true (hholds'.symm.trans hP.1)]
    refine (h.counts _).give (mem_holders.mpr ⟨hi, hholds, rfl⟩) ?_
    intro hmem
    have hw := (mem_holders.mp ((h.waits _ _).mp hmem)).2.1
    exact Bool.false_ne_true (hwaits.symm.trans hw)
  · rw [update_of_ne hl, holders_other (fun _ _ hP => hP.2) hkey hl]
    exact h.counts l

/-- A client gives a credit back and nobody waits. -/
theorem Account.give (hwaits' : c.waits x = false) (hfree : ¬ (sem (c.key (g i))).credits + 1 ≤ 0) :
    c.Account initial S (update g i x) (update sem (c.key (g i)) (sem (c.key (g i))).give) := by
  refine ⟨h.counts_give hi hkey hholds hholds' hwaits, ?_⟩
  intro l j
  have hqueue : (update sem (c.key (g i)) (sem (c.key (g i))).give l).queue = (sem l).queue := by
    by_cases hl : l = c.key (g i)
    · subst hl
      rw [update_self, Semaphore.give, if_neg hfree]
    · rw [update_of_ne hl]
  rw [hqueue, h.waits, holders_update_iff]
  rw [Waits, Waits, hwaits, hwaits', hkey]

/-- A client gives a credit back, and the first that waits stops waiting. -/
theorem Account.give_wake (hwaits' : c.waits x = false)
    (hfree : (sem (c.key (g i))).credits + 1 ≤ 0) {rest : List ι}
    (hqueue : (sem (c.key (g i))).queue = j :: rest) (hjkey : c.key y = c.key (g j))
    (hjholds : c.holds y = c.holds (g j)) (hjwaits : c.waits y = false) :
    c.Account initial S (update (update g i x) j y)
      (update sem (c.key (g i)) (sem (c.key (g i))).give) := by
  have hj := mem_holders.mp ((h.waits _ j).mp (hqueue ▸ List.mem_cons_self))
  have hji : j ≠ i := by
    intro heq
    rw [heq, Waits, hwaits] at hj
    exact Bool.false_ne_true hj.2.1
  refine ⟨?_, ?_⟩
  · intro l
    rw [holders_update_iff]
    · exact h.counts_give hi hkey hholds hholds' hwaits l
    · rw [update_of_ne hji, Holds, Holds, hjholds, hjkey]
  · intro l n
    rw [holders_update_neg fun hP => Bool.false_ne_true (hjwaits.symm.trans hP.1),
      holders_update_iff (by rw [Waits, Waits, hwaits, hwaits', hkey]), mem_erase, ← h.waits]
    by_cases hl : l = c.key (g i)
    · subst hl
      have hnodup := (h.counts (c.key (g i))).nodup
      rw [hqueue, List.nodup_cons] at hnodup
      rw [update_self, Semaphore.give, if_pos hfree, hqueue, List.tail_cons, List.mem_cons]
      constructor
      · intro hn
        exact ⟨fun heq => hnodup.1 (heq ▸ hn), .inr hn⟩
      · rintro ⟨hne, heq | hn⟩
        · exact absurd heq hne
        · exact hn
    · rw [update_of_ne hl]
      refine ⟨fun hn => ⟨?_, hn⟩, And.right⟩
      -- who wakes waited for another counter
      rintro rfl
      exact hl ((mem_holders.mp ((h.waits l n).mp hn)).2.2.symm.trans hj.2.2)

end

end

end Credit

end Lustre
