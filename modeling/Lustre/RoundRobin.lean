import Mathlib.Algebra.BigOperators.Intervals
import Mathlib.Algebra.Order.BigOperators.Group.Finset
import Mathlib.Tactic.Ring

/-!
# Round-robin placement of a line over `n` blocks

Positions `0, 1, 2, …` are dealt out in chunks of `s` to `n` blocks in turn.
`blockOf` says which block a position goes to, `innerOf` where inside that
block it lands, and `outerOf` is the way back. Below a bound `x` block `k` holds
`countBelow` positions: they are an initial segment of the block
(`outerOf_lt_iff`), and over all blocks they add up to `x` (`sum_countBelow`).

Nothing here is about files: it is the arithmetic any striped layout rests on.
-/

namespace Lustre.RoundRobin

open Nat (div_add_mod mod_lt)

/-- The block that position `x` is dealt to. -/
def blockOf (s n x : ℕ) : ℕ := x % (s * n) / s

/-- The place of position `x` inside its block. -/
def innerOf (s n x : ℕ) : ℕ := x / (s * n) * s + x % s

/-- The position that place `o` of block `k` holds. -/
def outerOf (s n k o : ℕ) : ℕ := o / s * (s * n) + k * s + o % s

/-- How many positions below `x` block `k` holds. -/
def countBelow (s n x k : ℕ) : ℕ := x / (s * n) * s + min s (x % (s * n) - k * s)

variable {s n : ℕ}

theorem blockOf_lt (hs : 0 < s) (hn : 0 < n) (x : ℕ) : blockOf s n x < n :=
  Nat.div_lt_of_lt_mul (mod_lt x (Nat.mul_pos hs hn))

/-- Inside one round, chunk `k` occupies `[k * s, k * s + s)`, below `s * n`. -/
theorem chunk_lt {k b : ℕ} (hk : k < n) (hb : b < s) : k * s + b < s * n := by
  have hle : (k + 1) * s ≤ n * s := Nat.mul_le_mul_right s hk
  have hexp : (k + 1) * s = k * s + s := by ring
  have hcomm : n * s = s * n := mul_comm n s
  omega

variable {k : ℕ}

section

variable (hs : 0 < s)
include hs

section

variable (hk : k < n) (o : ℕ)
include hk o

theorem outerOf_div : outerOf s n k o / (s * n) = o / s := by
  have hlt : k * s + o % s < s * n := chunk_lt hk (mod_lt o hs)
  have hpos : 0 < s * n := by omega
  rw [outerOf, add_assoc, add_comm, Nat.add_mul_div_right _ _ hpos,
    Nat.div_eq_of_lt hlt, zero_add]

theorem outerOf_mod : outerOf s n k o % (s * n) = k * s + o % s := by
  have hlt : k * s + o % s < s * n := chunk_lt hk (mod_lt o hs)
  rw [outerOf, add_assoc, add_comm, Nat.add_mul_mod_self_right, Nat.mod_eq_of_lt hlt]

/-- A place of block `k` is dealt back to block `k`. -/
theorem blockOf_outerOf : blockOf s n (outerOf s n k o) = k := by
  rw [blockOf, outerOf_mod hs hk, add_comm, Nat.add_mul_div_right _ _ hs,
    Nat.div_eq_of_lt (mod_lt o hs), zero_add]

theorem innerOf_outerOf : innerOf s n (outerOf s n k o) = o := by
  have hmod : outerOf s n k o % s = o % s := by
    have hsplit : outerOf s n k o = o % s + s * (o / s * n + k) := by
      rw [outerOf]
      ring
    rw [hsplit, Nat.add_mul_mod_self_left, Nat.mod_mod]
  rw [innerOf, outerOf_div hs hk, hmod, mul_comm]
  exact div_add_mod o s

omit hk o in
theorem outerOf_innerOf (x : ℕ) : outerOf s n (blockOf s n x) (innerOf s n x) = x := by
  have hdiv : innerOf s n x / s = x / (s * n) := by
    rw [innerOf, add_comm, Nat.add_mul_div_right _ _ hs,
      Nat.div_eq_of_lt (mod_lt x hs), zero_add]
  have hmod : innerOf s n x % s = x % (s * n) % s := by
    rw [innerOf, add_comm, Nat.add_mul_mod_self_right, Nat.mod_mod, Nat.mod_mul_right_mod]
  have hround : blockOf s n x * s + x % (s * n) % s = x % (s * n) := by
    rw [blockOf, mul_comm]
    exact div_add_mod _ s
  rw [outerOf, hdiv, hmod, add_assoc, hround, mul_comm]
  exact div_add_mod x (s * n)

omit o in
/-- Below `x`, block `k` is filled exactly up to `countBelow x k`. -/
theorem outerOf_lt_iff (o x : ℕ) : outerOf s n k o < x ↔ o < countBelow s n x k := by
  have hb : o % s < s := mod_lt o hs
  have hlt : k * s + o % s < s * n := chunk_lt hk hb
  have hr : x % (s * n) < s * n := mod_lt x (by omega)
  have hx : s * n * (x / (s * n)) + x % (s * n) = x := div_add_mod x (s * n)
  have ho : s * (o / s) + o % s = o := div_add_mod o s
  rw [outerOf, countBelow]
  generalize x / (s * n) = q at *
  generalize x % (s * n) = r at *
  generalize o / s = a at *
  generalize o % s = b at *
  -- compare the rounds first; inside one round, compare the chunks
  rcases Nat.lt_trichotomy a q with haq | rfl | hqa
  · obtain ⟨d, rfl⟩ := Nat.exists_eq_add_of_lt haq
    have h1 : s * n * (a + d + 1) = a * (s * n) + s * n * d + s * n := by ring
    have h2 : (a + d + 1) * s = s * a + d * s + s := by ring
    omega
  · have h1 : s * n * a = a * (s * n) := by ring
    have h2 : a * s = s * a := by ring
    omega
  · obtain ⟨d, rfl⟩ := Nat.exists_eq_add_of_lt hqa
    have h1 : (q + d + 1) * (s * n) = s * n * q + d * (s * n) + s * n := by ring
    have h2 : s * (q + d + 1) = q * s + s * d + s := by ring
    omega

theorem countBelow_outerOf : countBelow s n (outerOf s n k o) k = o := by
  have hb : o % s < s := mod_lt o hs
  have ho : s * (o / s) + o % s = o := div_add_mod o s
  rw [countBelow, outerOf_div hs hk, outerOf_mod hs hk, Nat.add_sub_cancel_left,
    Nat.min_eq_right hb.le, mul_comm]
  exact ho

end

theorem countBelow_blockOf (hn : 0 < n) (x : ℕ) :
    countBelow s n x (blockOf s n x) = innerOf s n x := by
  have h := countBelow_outerOf hs (blockOf_lt hs hn x) (innerOf s n x)
  rwa [outerOf_innerOf hs] at h

end

/-- A block holds no more positions below `x` than there are. -/
theorem countBelow_le (s : ℕ) (hn : 0 < n) (x k : ℕ) : countBelow s n x k ≤ x := by
  have hx : s * n * (x / (s * n)) + x % (s * n) = x := div_add_mod x (s * n)
  -- a round holds at least one chunk, so `q` chunks are no longer than `q` rounds
  have hq : x / (s * n) * s ≤ s * n * (x / (s * n)) := by
    calc x / (s * n) * s = 1 * (s * (x / (s * n))) := by ring
      _ ≤ n * (s * (x / (s * n))) := Nat.mul_le_mul_right _ hn
      _ = s * n * (x / (s * n)) := by ring
  rw [countBelow]
  omega

/-- One position more fills the block it is dealt to by one place. -/
theorem countBelow_succ (hs : 0 < s) (hn : 0 < n) (x : ℕ) :
    countBelow s n (x + 1) (blockOf s n x) = innerOf s n x + 1 := by
  have hk : blockOf s n x < n := blockOf_lt hs hn x
  have hx : outerOf s n (blockOf s n x) (innerOf s n x) = x := outerOf_innerOf hs x
  have hge : innerOf s n x < countBelow s n (x + 1) (blockOf s n x) :=
    (outerOf_lt_iff hs hk _ _).mp (by omega)
  -- the next place of the block holds a position past `x`
  have hnot : ¬ outerOf s n (blockOf s n x) (innerOf s n x + 1) < x + 1 := by
    intro hlt
    rcases Nat.lt_or_eq_of_le (Nat.lt_succ_iff.mp hlt) with hlt | heq
    · have h := (outerOf_lt_iff hs hk _ _).mp hlt
      have hcount := countBelow_outerOf hs hk (innerOf s n x)
      rw [hx] at hcount
      omega
    · have h := congrArg (innerOf s n) heq
      rw [innerOf_outerOf hs hk] at h
      omega
  rw [outerOf_lt_iff hs hk] at hnot
  omega

/-- A position of another block leaves the block as it is. -/
theorem countBelow_succ_of_ne (hs : 0 < s) (hk : k < n) {x : ℕ}
    (hne : blockOf s n x ≠ k) : countBelow s n (x + 1) k = countBelow s n x k := by
  refine eq_of_forall_lt_iff fun o => ?_
  rw [← outerOf_lt_iff hs hk, ← outerOf_lt_iff hs hk]
  have hx : outerOf s n k o ≠ x := by
    rintro rfl
    exact hne (blockOf_outerOf hs hk o)
  omega

/-- The places of a block that positions of `[a, b)` are dealt to are a segment. -/
theorem mem_segment_iff (hs : 0 < s) (hk : k < n) (a b o : ℕ) :
    (∃ x, (a ≤ x ∧ x < b) ∧ blockOf s n x = k ∧ innerOf s n x = o) ↔
      countBelow s n a k ≤ o ∧ o < countBelow s n b k := by
  rw [← outerOf_lt_iff hs hk o b, ← not_lt, ← outerOf_lt_iff hs hk o a, not_lt]
  constructor
  · rintro ⟨x, hx, rfl, rfl⟩
    rwa [outerOf_innerOf hs]
  · intro h
    exact ⟨outerOf s n k o, h, blockOf_outerOf hs hk o, innerOf_outerOf hs hk o⟩

theorem sum_min_sub (s r : ℕ) :
    ∀ m : ℕ, ∑ k ∈ Finset.range m, min s (r - k * s) = min r (m * s) := by
  intro m
  induction m with
  | zero => simp
  | succ m ih =>
    rw [Finset.sum_range_succ, ih, add_mul, one_mul]
    omega

/-- Over all blocks, the positions below `x` are counted once each. -/
theorem sum_countBelow (hs : 0 < s) (hn : 0 < n) (x : ℕ) :
    ∑ k ∈ Finset.range n, countBelow s n x k = x := by
  have hr : x % (s * n) < s * n := mod_lt x (Nat.mul_pos hs hn)
  have hx : s * n * (x / (s * n)) + x % (s * n) = x := div_add_mod x (s * n)
  simp only [countBelow, Finset.sum_add_distrib, Finset.sum_const, Finset.card_range,
    Nat.nsmul_eq_mul, sum_min_sub]
  have hmin : min (x % (s * n)) (n * s) = x % (s * n) := by
    rw [mul_comm n s]
    exact Nat.min_eq_left hr.le
  rw [hmin]
  calc n * (x / (s * n) * s) + x % (s * n) = s * n * (x / (s * n)) + x % (s * n) := by ring
    _ = x := hx

end Lustre.RoundRobin
