import Mathlib.Data.List.Basic

/-!
# Consecutive slots of a ring

The slots `1, …, R` form a ring: `next R` goes from `R` back to `1`. The number `0` is
no slot, but a place before slot `1`, as `R` is. `Path R c ws l` says that going from
`c` one slot at a time one meets the slots `ws` and stands at `l`; `After R c l` are
the slots between the two, as an inequality.
-/

namespace Lustre.SlotRing

open List

/-- The next slot. -/
def next (R k : ℕ) : ℕ := if k = R then 1 else k + 1

/-- From `c` over the slots `ws` to `l`. -/
def Path (R : ℕ) : ℕ → List ℕ → ℕ → Prop
  | c, [], l => c = l
  | c, w :: ws, l => w = next R c ∧ Path R w ws l

/-- The slots after `c` up to `l`, going round the ring if `l` is not above `c`. -/
def After (R c l k : ℕ) : Prop :=
  if c < l then c < k ∧ k ≤ l else (c < k ∧ k ≤ R) ∨ (1 ≤ k ∧ k ≤ l)

variable {R c l k : ℕ} {ws : List ℕ}

theorem next_self : next R R = 1 := if_pos rfl

theorem next_of_lt (h : k < R) : next R k = k + 1 := if_neg (Nat.ne_of_lt h)

theorem next_mem (hR : 0 < R) (h : k ≤ R) : 1 ≤ next R k ∧ next R k ≤ R := by
  rw [next]
  split <;> omega

/-- Different slots have different successors. -/
theorem next_inj {j : ℕ} (hj : 1 ≤ j) (hk : 1 ≤ k) (h : next R j = next R k) : j = k := by
  rw [next, next] at h
  split at h <;> split at h <;> omega

theorem Path.snoc (h : Path R c ws l) : Path R c (ws ++ [next R l]) (next R l) := by
  induction ws generalizing c with
  | nil =>
    obtain rfl : c = l := h
    exact ⟨rfl, rfl⟩
  | cons w ws ih => exact ⟨h.1, ih h.2⟩

theorem Path.mem_bounds (hR : 0 < R) (h : Path R c ws l) (hc : c ≤ R) :
    ∀ w ∈ ws, 1 ≤ w ∧ w ≤ R := by
  induction ws generalizing c with
  | nil => exact nofun
  | cons w ws ih =>
    obtain ⟨rfl, h⟩ := h
    have hw := next_mem hR hc
    exact forall_mem_cons.mpr ⟨hw, ih h hw.2⟩

/-- The last slot of a path that is not empty. -/
theorem Path.last_mem (h : Path R c ws l) (hne : ws ≠ []) : l ∈ ws := by
  induction ws generalizing c with
  | nil => exact absurd rfl hne
  | cons w ws ih =>
    cases ws with
    | nil =>
      obtain ⟨-, rfl⟩ := h
      exact mem_singleton_self _
    | cons v vs => exact mem_cons_of_mem _ (ih h.2 nofun)

/-- The slot after the end of a path is on the path only if it is the first one. -/
theorem Path.next_eq_of_mem (hR : 0 < R) (h : Path R c ws l) (hc : c ≤ R) (hnd : ws.Nodup)
    (hmem : next R l ∈ ws) : next R l = next R c := by
  induction ws generalizing c with
  | nil => exact absurd hmem not_mem_nil
  | cons w ws ih =>
    have hb := h.mem_bounds hR hc
    obtain ⟨rfl, h⟩ := h
    obtain ⟨hw, hnd⟩ := nodup_cons.mp hnd
    rcases mem_cons.mp hmem with heq | hmem
    · exact heq
    · -- the end would be the first slot, which does not come again
      exfalso
      have hl := h.last_mem (ne_nil_of_mem hmem)
      have heq := ih h (next_mem hR hc).2 hnd hmem
      have hlb := hb l (mem_cons_of_mem _ hl)
      exact hw (next_inj hlb.1 (next_mem hR hc).1 heq ▸ hl)

theorem after_next (hc : c ≤ R) (hl : 1 ≤ l ∧ l ≤ R) : After R c l (next R c) := by
  rw [After, next]
  split <;> split <;> omega

theorem After.of_next (hc : c ≤ R) (hl : 1 ≤ l ∧ l ≤ R) (h : After R (next R c) l k)
    (hne : next R c ≠ l) : After R c l k := by
  rw [After] at h ⊢
  rcases Nat.eq_or_lt_of_le hc with rfl | hlt
  · rw [next_self] at h hne
    split at h <;> split <;> omega
  · rw [next_of_lt hlt] at h hne
    split at h <;> split <;> omega

/-- What a path meets lies after its start up to its end. -/
theorem Path.after (hR : 0 < R) (h : Path R c ws l) (hc : c ≤ R) (hnd : ws.Nodup) (hk : k ∈ ws) :
    After R c l k := by
  induction ws generalizing c with
  | nil => exact absurd hk not_mem_nil
  | cons w ws ih =>
    have hl := h.mem_bounds hR hc l (h.last_mem nofun)
    obtain ⟨rfl, h⟩ := h
    obtain ⟨hw, hnd⟩ := nodup_cons.mp hnd
    rcases mem_cons.mp hk with rfl | hk
    · exact after_next hc hl
    · have hlast := h.last_mem (ne_nil_of_mem hk)
      exact (ih h (next_mem hR hc).2 hnd hk).of_next hc hl fun heq => hw (heq ▸ hlast)

/-- A path is a range of slots, or one up to `R` and one from slot `1`. -/
theorem Path.ranges (h : Path R c ws l) (hc : c ≤ R) (hlen : ws.length ≤ R) :
    (l = c + ws.length ∧ l ≤ R ∧ ws = range' (c + 1) (l - c)) ∨
      (l + R = c + ws.length ∧ 0 < l ∧ ws = range' (c + 1) (R - c) ++ range' 1 l) := by
  induction ws generalizing c with
  | nil =>
    obtain rfl : c = l := h
    simp [hc]
  | cons w ws ih =>
    obtain ⟨rfl, h⟩ := h
    rw [length_cons] at hlen ⊢
    rcases Nat.eq_or_lt_of_le hc with rfl | hlt
    · -- over the last slot
      rw [next_self] at h ⊢
      obtain ⟨hl, hle, heq⟩ | ⟨hl, hpos, -⟩ := ih h (by omega) (by omega)
      · refine .inr ⟨by omega, by omega, ?_⟩
        obtain ⟨n, rfl⟩ : ∃ n, l = n + 1 := ⟨l - 1, by omega⟩
        rw [heq, Nat.sub_self, range'_succ]
        simp
      · omega
    · rw [next_of_lt hlt] at h ⊢
      obtain ⟨hl, hle, heq⟩ | ⟨hl, hpos, heq⟩ := ih h (by omega) (by omega)
      · refine .inl ⟨by omega, hle, ?_⟩
        rw [heq, show l - c = (l - (c + 1)) + 1 by omega, range'_succ]
      · refine .inr ⟨by omega, hpos, ?_⟩
        rw [heq, show R - c = (R - (c + 1)) + 1 by omega, range'_succ, cons_append]

end Lustre.SlotRing
