import Lustre.Word

/-!
# Read-ahead with a stride

A reader with a stride takes the first `st_pgs` pages of every period of `st_len` pages.
`stride_pg_count` counts these pages in a range, and `ras_stride_increase_window` moves the end of
the window so that there are a given number more of them before it. Both are measured by the number
of such pages among the first `x`, `strideBelow`.
-/

namespace Lustre

open List

/-- `do_div`: quotient and remainder, by a divisor of 32 bits. -/
def doDiv (n base : ℕ) : ℕ × ℕ := (n / u32 base, n % u32 base)

def stridePgCount (stOff stLen stPgs off length : ℕ) : ℕ :=
  let start := if stOff < off then off - stOff else 0
  let stop := if stOff < u64 (off + length) then u64 (off + length) - stOff else 0
  if stLen = 0 ∨ length = 0 ∨ stop = 0 then length
  else
    let first := doDiv start stLen
    let last := doDiv stop stLen
    let startLeft := if first.2 < stPgs then stPgs - first.2 else 0
    let endLeft := if stPgs < last.2 then stPgs else last.2
    if first.1 = last.1 then sub64 endLeft (stPgs - startLeft)
    else u64 (startLeft + stPgs * (sub64 last.1 (first.1 + 1)) + endLeft)

/-- The part of `struct ll_readahead_state` that describes the window and the stride. -/
structure LlReadaheadState where
  rasWindowStart : ℕ
  rasWindowLen : ℕ
  rasStrideOffset : ℕ
  rasStrideLength : ℕ
  rasStridePages : ℕ
  deriving DecidableEq

/-- `ras_stride_increase_window`; `none` when an assertion fails. -/
def rasStrideIncreaseWindow (ras : LlReadaheadState) (raMaxPagesPerFile incLen : ℕ) :
    Option LlReadaheadState :=
  let stop := u64 (ras.rasWindowStart + ras.rasWindowLen)
  if ras.rasStrideLength = 0 ∨ stop < ras.rasStrideOffset ∨ ras.rasStridePages = 0 then none
  else
    let left := (stop - ras.rasStrideOffset) % ras.rasStrideLength
    let more := u64 ((if left < ras.rasStridePages then left else ras.rasStridePages) + incLen)
    let windowLen := u64 (sub64 ras.rasWindowLen left +
      (more / ras.rasStridePages * ras.rasStrideLength + more % ras.rasStridePages))
    some (if stridePgCount ras.rasStrideOffset ras.rasStrideLength ras.rasStridePages
        ras.rasStrideOffset windowLen ≤ raMaxPagesPerFile
      then { ras with rasWindowLen := windowLen } else ras)

/-- The pages of `[off, off + length)` that belong to the stride. -/
def stridePages (stOff stLen stPgs off length : ℕ) : ℕ :=
  (range' off length).countP fun i => stOff ≤ i ∧ (i - stOff) % stLen < stPgs

/-- Those between the start of the stride and the end of the window. -/
def LlReadaheadState.pages (ras : LlReadaheadState) : ℕ :=
  stridePages ras.rasStrideOffset ras.rasStrideLength ras.rasStridePages ras.rasStrideOffset
    (ras.rasWindowStart + ras.rasWindowLen - ras.rasStrideOffset)

/-- The end of a window that grows by `incLen` pages of the stride, without overflow. -/
def LlReadaheadState.grownEnd (ras : LlReadaheadState) (incLen : ℕ) : ℕ :=
  let left := (ras.rasWindowStart + ras.rasWindowLen - ras.rasStrideOffset) % ras.rasStrideLength
  let more := min left ras.rasStridePages + incLen
  ras.rasWindowStart + ras.rasWindowLen - left +
    (more / ras.rasStridePages * ras.rasStrideLength + more % ras.rasStridePages)

/-- The pages of the stride among its first `x`. -/
def strideBelow (stLen stPgs x : ℕ) : ℕ := x / stLen * stPgs + min (x % stLen) stPgs

section

variable {stLen stPgs : ℕ} (hlen : 0 < stLen) (hle : stPgs ≤ stLen)
include hlen

theorem strideBelow_eq {q r : ℕ} (hr : r < stLen) :
    strideBelow stLen stPgs (q * stLen + r) = q * stPgs + min r stPgs := by
  rw [strideBelow, add_comm (q * stLen), Nat.add_mul_div_right _ _ hlen, Nat.div_eq_of_lt hr,
    zero_add, Nat.add_mul_mod_self_right, Nat.mod_eq_of_lt hr]

include hle

theorem strideBelow_succ (x : ℕ) : strideBelow stLen stPgs (x + 1) =
    strideBelow stLen stPgs x + if x % stLen < stPgs then 1 else 0 := by
  have hr := Nat.mod_lt x hlen
  have hx := Nat.div_add_mod' x stLen
  generalize x / stLen = q at hx
  generalize x % stLen = r at hx hr ⊢
  rw [← hx, strideBelow_eq hlen hr, add_assoc]
  rcases Nat.lt_or_ge (r + 1) stLen with hlt | hge
  · rw [strideBelow_eq hlen hlt]
    split <;> omega
  · rw [show q * stLen + (r + 1) = q * stLen + 1 * stLen + 0 by omega, ← Nat.add_mul,
      strideBelow_eq hlen hlen, Nat.add_mul]
    split <;> omega

theorem strideBelow_add (stOff off n : ℕ) :
    strideBelow stLen stPgs (off - stOff) + stridePages stOff stLen stPgs off n =
      strideBelow stLen stPgs (off + n - stOff) := by
  induction n with
  | zero => rfl
  | succ n ih =>
    rw [stridePages, range'_concat, countP_append, ← add_assoc, ← stridePages, ih]
    by_cases hi : stOff ≤ off + n
    · rw [← add_assoc, Nat.sub_add_comm hi, strideBelow_succ hlen hle]
      simp [hi]
    · rw [show off + (n + 1) - stOff = off + n - stOff by omega]
      simp [hi]

/-- The pages before the end of a window that is `q` periods and `r` pages from the start. -/
theorem pages_eq {ws wl so q r : ℕ} (hr : r < stLen) (hend : ws + wl = so + (q * stLen + r)) :
    LlReadaheadState.pages ⟨ws, wl, so, stLen, stPgs⟩ = q * stPgs + min r stPgs := by
  have hadd := strideBelow_add hlen hle so so (q * stLen + r)
  rw [Nat.sub_self, Nat.add_sub_cancel_left, strideBelow_eq hlen hr] at hadd
  rw [LlReadaheadState.pages, hend, Nat.add_sub_cancel_left, ← hadd]
  simp [strideBelow]

end

/-- `stride_pg_count` counts. Where a stride is not longer than its period and the new end does not
overflow, `ras_stride_increase_window` moves the end of the window past `inc_len` more of its pages,
or not at all. -/
theorem stride_arithmetic :
    (∀ stOff stLen stPgs off length, 0 < stPgs → stPgs ≤ stLen → stLen < 2 ^ 32 → 0 < length →
      stOff < off + length → off + length < 2 ^ 64 →
      stridePgCount stOff stLen stPgs off length = stridePages stOff stLen stPgs off length) ∧
    ∀ (ras : LlReadaheadState) (raMaxPagesPerFile incLen : ℕ), 0 < ras.rasStridePages →
      ras.rasStridePages ≤ ras.rasStrideLength →
      ras.rasStrideOffset ≤ ras.rasWindowStart + ras.rasWindowLen →
      ras.grownEnd incLen < 2 ^ 64 →
      ∃ ras', rasStrideIncreaseWindow ras raMaxPagesPerFile incLen = some ras' ∧
        (ras' = ras ∨ ∃ windowLen, ras' = { ras with rasWindowLen := windowLen } ∧
          ras'.pages = ras.pages + incLen) := by
  constructor
  · intro stOff stLen stPgs off length hpgs hle hlen hpos hstop hsum
    have hL : 0 < stLen := Nat.lt_of_lt_of_le hpgs hle
    have hcount := strideBelow_add hL hle stOff off length
    have hmost : stridePages stOff stLen stPgs off length ≤ length :=
      le_of_le_of_eq countP_le_length length_range'
    have hquot : (off - stOff) / stLen ≤ (off + length - stOff) / stLen :=
      Nat.div_le_div_right (by omega)
    have hbig : (off + length - stOff) / stLen ≤ off + length - stOff := Nat.div_le_self ..
    have hstart : (if stOff < off then off - stOff else 0) = off - stOff := by split <;> omega
    simp only [stridePgCount, doDiv, u64_of_lt hsum, u32_of_lt hlen, if_pos hstop, hstart]
    rw [if_neg (by omega)]
    rw [strideBelow, strideBelow] at hcount
    generalize (off - stOff) % stLen = r at hcount ⊢
    generalize (off + length - stOff) % stLen = t at hcount ⊢
    generalize (off - stOff) / stLen = p at hcount hquot ⊢
    generalize (off + length - stOff) / stLen = q at hcount hquot hbig ⊢
    split
    · next heq =>
      subst heq
      rw [sub64_of_le (by split <;> omega) (by split <;> split <;> omega)]
      split <;> split <;> omega
    · next hne =>
      obtain ⟨k, rfl⟩ : ∃ k, q = p + 1 + k := ⟨q - p - 1, by omega⟩
      rw [sub64_of_le (by omega) (by omega), Nat.add_sub_cancel_left]
      rw [Nat.add_mul, Nat.add_mul, mul_comm k] at hcount
      rw [u64_of_lt (by split <;> split <;> omega)]
      split <;> split <;> omega
  · rintro ⟨ws, wl, so, L, P⟩ raMaxPagesPerFile incLen hpgs hle hoff hsum
    dsimp only [LlReadaheadState.grownEnd] at hpgs hle hoff hsum
    have hL : 0 < L := Nat.lt_of_lt_of_le hpgs hle
    have hr := Nat.mod_lt (ws + wl - so) hL
    have hx := Nat.div_add_mod' (ws + wl - so) L
    generalize (ws + wl - so) / L = q at hx
    generalize hl : (ws + wl - so) % L = left at hx hr hsum
    have hmore := Nat.div_add_mod' (min left P + incLen) P
    have hrem := Nat.mod_lt (min left P + incLen) hpgs
    have hmin : (if left < P then left else P) = min left P := by split <;> omega
    generalize hq : (min left P + incLen) / P = step at hmore hsum
    generalize hm : (min left P + incLen) % P = rem at hmore hrem hsum
    have hstep : step * P ≤ step * L := Nat.mul_le_mul_left _ hle
    -- the end does not move back
    have hleft : left ≤ step * L + rem := by
      rcases Nat.eq_zero_or_pos step with rfl | hpos
      · omega
      · have := Nat.le_mul_of_pos_left L hpos
        omega
    have hwin : u64 (sub64 wl left + (step * L + rem)) = wl + (step * L + rem) - left := by
      rw [sub64, u64, u64]
      omega
    simp only [rasStrideIncreaseWindow, u64_of_lt (show ws + wl < 2 ^ 64 by omega), hl, hmin,
      u64_of_lt (show min left P + incLen < 2 ^ 64 by omega), hq, hm]
    rw [if_neg (by omega)]
    refine ⟨_, rfl, ?_⟩
    split
    · refine .inr ⟨_, rfl, ?_⟩
      rw [pages_eq (q := q + step) hL hle (Nat.lt_of_lt_of_le hrem hle), pages_eq (q := q) hL hle hr
        (by omega), Nat.add_mul]
      · omega
      · rw [Nat.add_mul]
        omega
    · exact .inl rfl

/-- Two pages of every five. -/
theorem stride_arithmetic_five : stridePgCount 0 5 2 1 10 = stridePages 0 5 2 1 10 ∧
    rasStrideIncreaseWindow ⟨0, 6, 0, 5, 2⟩ 9 3 = some ⟨0, 15, 0, 5, 2⟩ ∧
    LlReadaheadState.pages ⟨0, 15, 0, 5, 2⟩ = LlReadaheadState.pages ⟨0, 6, 0, 5, 2⟩ + 3 := by
  obtain ⟨hcount, hgrow⟩ := stride_arithmetic
  refine ⟨hcount 0 5 2 1 10 (by decide) (by decide) (by decide) (by decide) (by decide) (by decide),
    rfl, ?_⟩
  obtain ⟨ras', hrun, hsame | ⟨_, -, hpages⟩⟩ :=
    hgrow ⟨0, 6, 0, 5, 2⟩ 9 3 (by decide) (by decide) (by decide) (by decide)
  · cases hrun
    cases hsame
  · cases hrun
    exact hpages

/-- A stride longer than its period counts pages that are not there. -/
theorem stride_long : ¬ ∀ (ras : LlReadaheadState) (raMaxPagesPerFile incLen : ℕ) (ras' : _),
    rasStrideIncreaseWindow ras raMaxPagesPerFile incLen = some ras' →
      ras'.rasWindowLen = ras.rasWindowLen ∨ ras'.pages = ras.pages + incLen := by
  intro h
  exact absurd (h ⟨0, 0, 0, 2, 4⟩ 9 4 _ rfl) (by decide)

/-- With one page of every `2 ^ 31`, the end of a window that is to grow by `2 ^ 33 + 3` pages wraps
around to three periods. -/
theorem stride_wraps : rasStrideIncreaseWindow ⟨0, 0, 0, 2 ^ 31, 1⟩ 9 (2 ^ 33 + 3) =
      some ⟨0, 3 * 2 ^ 31, 0, 2 ^ 31, 1⟩ ∧
    LlReadaheadState.pages ⟨0, 3 * 2 ^ 31, 0, 2 ^ 31, 1⟩ <
      LlReadaheadState.pages ⟨0, 0, 0, 2 ^ 31, 1⟩ + (2 ^ 33 + 3) := by
  refine ⟨by decide, ?_⟩
  have hmost : LlReadaheadState.pages ⟨0, 3 * 2 ^ 31, 0, 2 ^ 31, 1⟩ ≤ 3 * 2 ^ 31 :=
    le_of_le_of_eq countP_le_length length_range'
  omega

end Lustre
