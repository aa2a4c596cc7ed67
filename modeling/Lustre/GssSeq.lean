import Lustre.Run
import Lustre.Word
import Mathlib.Data.List.Basic

/-!
# Replay protection of GSS requests

A request carries a sequence number. It is checked once before its integrity is
verified, without writing anything, and once after that, which marks the number in
one of two bitmap windows. What the windows are for: a number is accepted once.

`GssWindow.Remembers` is what the main window knows: every number accepted so far is
behind the window or marked in it. Every check keeps it, as long as the upper end of
the window does not wrap around, so the first check turns down a number that has been
accepted (`gssSeq_accepted_once`). Between the two checks of a request nothing does:
a copy that has passed its first check already is accepted again once the window has
moved on (`gssSeq_accepted_twice`).

`GssWindow.Shows` is the window as it is documented: its bits are those of the numbers
accepted (`gssSeq_window`). Near the end of the 32 bits it is not (`gssSeq_window_wraps`).
-/

namespace Lustre

open List

/-! ## The windows -/

def gssSeqWinMain : ℕ := 2048

def gssSeqWinBack : ℕ := 128

/-- A bitmap window and the highest number seen by it. -/
structure GssWindow where
  /-- `ssd_win_main`, `ssd_win_back`: the bits -/
  win : ℕ → Bool
  /-- `ssd_max_main`, `ssd_max_back` -/
  max : ℕ

structure GssSvcSeqData where
  /-- the main window -/
  main : GssWindow
  /-- the back window -/
  back : GssWindow

/-- What `gss_do_check_seq` returns. -/
inductive GssRc where
  /-- `0`: is ok -/
  | ok
  /-- `1`: looks like a replay, behind the window -/
  | behind
  /-- `-1`: is a replay -/
  | replay
  deriving DecidableEq

/-- The phases of the check. -/
inductive GssPhase where
  /-- `0`: only try -/
  | try
  /-- `1`: main window -/
  | main
  /-- `2`: back window -/
  | back
  deriving DecidableEq

/-- `__set_bit` or `__clear_bit`. -/
def GssWindow.put (w : GssWindow) (bit : ℕ) (b : Bool) : GssWindow :=
  { w with win := Function.update w.win bit b }

/-- The loop that moves the window up by `k`, clearing one bit after the other. -/
def gssAdvance (winSize : ℕ) : ℕ → GssWindow → GssWindow
  | 0, w => w
  | k + 1, w => gssAdvance winSize k ({ w with max := w.max + 1 }.put ((w.max + 1) % winSize) false)

def gssDoCheckSeq (w : GssWindow) (winSize seqNum : ℕ) (phase : GssPhase) : GssRc × GssWindow :=
  if w.max < seqNum then
    -- high above the window
    if phase = .try then (.ok, w)
    else
      let w :=
        if u32 (w.max + winSize) ≤ seqNum then ⟨fun _ => false, seqNum⟩
        else gssAdvance winSize (seqNum - w.max) w
      (.ok, w.put (seqNum % winSize) true)
  else if u32 (seqNum + winSize) ≤ w.max then
    -- low behind the window
    if phase = .main then (.behind, w) else (.replay, w)
  else if w.win (seqNum % winSize) then (.replay, w)
  else if phase = .try then (.ok, w)
  else (.ok, w.put (seqNum % winSize) true)

def gssCheckSeqNum (ssd : GssSvcSeqData) (seqNum : ℕ) (set : Bool) : GssRc × GssSvcSeqData :=
  if set then
    let main := gssDoCheckSeq ssd.main gssSeqWinMain seqNum .main
    if main.1 = .behind then
      let back := gssDoCheckSeq ssd.back gssSeqWinBack seqNum .back
      (back.1, ⟨main.2, back.2⟩)
    else (main.1, ⟨main.2, ssd.back⟩)
  else
    let main := gssDoCheckSeq ssd.main gssSeqWinMain seqNum .try
    (main.1, ⟨main.2, ssd.back⟩)

/-! ## What a window remembers -/

open GssWindow

section Window

variable {w : GssWindow} {winSize n : ℕ} {seen : List ℕ}

@[simp] theorem GssWindow.put_max (w : GssWindow) (bit : ℕ) (b : Bool) : (w.put bit b).max = w.max :=
  rfl

theorem GssWindow.put_self (w : GssWindow) (bit : ℕ) (b : Bool) : (w.put bit b).win bit = b :=
  Function.update_self ..

theorem GssWindow.put_of_ne (w : GssWindow) {bit m : ℕ} (b : Bool) (h : m ≠ bit) :
    (w.put bit b).win m = w.win m := Function.update_of_ne h ..

/-- A marked bit stays marked when another one is. -/
theorem GssWindow.put_true (w : GssWindow) (bit : ℕ) {m : ℕ} (h : w.win m = true) :
    (w.put bit true).win m = true := by
  by_cases hm : m = bit
  · rw [hm, put_self]
  · rw [put_of_ne w true hm, h]

@[simp] theorem gssAdvance_max (k : ℕ) (w : GssWindow) : (gssAdvance winSize k w).max = w.max + k := by
  induction k generalizing w with
  | zero => rfl
  | succ k ih => rw [gssAdvance, ih, put_max, add_assoc, add_comm 1]

/-- Moving up leaves the bits of the numbers that stay in the window. -/
theorem gssAdvance_win (k : ℕ) {m : ℕ} (hm : m ≤ w.max) (hlt : w.max + k < m + winSize) :
    (gssAdvance winSize k w).win (m % winSize) = w.win (m % winSize) := by
  induction k generalizing w with
  | zero => rfl
  | succ k ih =>
    -- the bit cleared first belongs to a number less than one window above `m`
    have hne : m % winSize ≠ (w.max + 1) % winSize := fun heq => by
      have hzero := Nat.sub_mod_eq_zero_of_mod_eq heq.symm
      rw [Nat.mod_eq_of_lt (by omega)] at hzero
      omega
    rw [gssAdvance, ih (by rw [put_max]; exact Nat.le_succ_of_le hm)
      (by rw [put_max]; dsimp only; omega), put_of_ne _ _ hne]

/-- The window moved up to `n`. -/
def GssWindow.raise (w : GssWindow) (winSize n : ℕ) : GssWindow :=
  if u32 (w.max + winSize) ≤ n then ⟨fun _ => false, n⟩ else gssAdvance winSize (n - w.max) w

theorem GssWindow.raise_max (winSize : ℕ) (hn : w.max < n) : (w.raise winSize n).max = n := by
  rw [raise]
  split
  · rfl
  · rw [gssAdvance_max]
    omega

theorem gssDoCheckSeq_above (hn : w.max < n) :
    gssDoCheckSeq w winSize n .main = (.ok, (w.raise winSize n).put (n % winSize) true) := by
  rw [gssDoCheckSeq, if_pos hn, if_neg (by decide), raise]

/-- Every number seen is behind the window or marked in it, as the check computes it. -/
def GssWindow.Remembers (w : GssWindow) (winSize : ℕ) (seen : List ℕ) : Prop :=
  ∀ n ∈ seen, n ≤ w.max ∧ (w.max < u32 (n + winSize) → w.win (n % winSize) = true)

section

variable (h : w.Remembers winSize seen)
include h

theorem GssWindow.Remembers.cons (hn : n ≤ w.max)
    (hwin : w.max < u32 (n + winSize) → w.win (n % winSize) = true) :
    w.Remembers winSize (n :: seen) :=
  forall_mem_cons.mpr ⟨⟨hn, hwin⟩, h⟩

theorem GssWindow.Remembers.mark (bit : ℕ) : (w.put bit true).Remembers winSize seen := fun m hm =>
  ⟨(h m hm).1, fun hlt => w.put_true bit ((h m hm).2 hlt)⟩

/-- A number that has been seen is turned down by the first check. -/
theorem GssWindow.Remembers.try_replay (hn : n ∈ seen) :
    gssDoCheckSeq w winSize n .try = (.replay, w) := by
  obtain ⟨hle, hwin⟩ := h n hn
  rw [gssDoCheckSeq, if_neg (not_lt.mpr hle)]
  by_cases hb : u32 (n + winSize) ≤ w.max
  · rw [if_pos hb, if_neg (by decide)]
  · rw [if_neg hb, if_pos (hwin (not_le.mp hb))]

omit h in
theorem gssDoCheckSeq_try (w : GssWindow) (winSize n : ℕ) :
    (gssDoCheckSeq w winSize n .try).2 = w := by
  rw [gssDoCheckSeq]
  repeat' split
  all_goals first | rfl | contradiction

theorem GssWindow.Remembers.raise (hn : w.max < n) (hwrap : w.max + winSize < 2 ^ 32) :
    (w.raise winSize n).Remembers winSize seen := by
  rw [GssWindow.raise, u32_of_lt hwrap]
  intro m hm
  obtain ⟨hle, hwin⟩ := h m hm
  have hmw : m + winSize < 2 ^ 32 := by omega
  rw [u32_of_lt hmw] at hwin ⊢
  split
  · -- the window jumps over everything seen
    exact ⟨le_of_lt (hle.trans_lt hn), fun hlt => by dsimp only at hlt; omega⟩
  · rw [gssAdvance_max]
    refine ⟨by omega, fun hlt => ?_⟩
    rw [gssAdvance_win _ hle hlt]
    exact hwin (by omega)

/-- **The second check** in the main window: whether it accepts the number or leaves it to
the back window, the number is remembered. -/
theorem GssWindow.Remembers.check (hwrap : w.max < n → w.max + winSize < 2 ^ 32) :
    (gssDoCheckSeq w winSize n .main).2.Remembers winSize seen ∧
      ((gssDoCheckSeq w winSize n .main).1 ≠ .replay →
        (gssDoCheckSeq w winSize n .main).2.Remembers winSize (n :: seen)) := by
  by_cases hgt : w.max < n
  · have hr := h.raise hgt (hwrap hgt)
    rw [gssDoCheckSeq_above hgt]
    exact ⟨hr.mark _, fun _ => (hr.mark _).cons (raise_max winSize hgt).ge fun _ => put_self ..⟩
  · rw [gssDoCheckSeq, if_neg hgt]
    have hle := not_lt.mp hgt
    by_cases hb : u32 (n + winSize) ≤ w.max
    · rw [if_pos hb, if_pos rfl]
      exact ⟨h, fun _ => h.cons hle fun hlt => absurd hb (not_le.mpr hlt)⟩
    · rw [if_neg hb]
      by_cases hbit : w.win (n % winSize) = true
      · rw [if_pos hbit]
        exact ⟨h, fun hne => absurd rfl hne⟩
      · rw [if_neg hbit, if_neg (by decide)]
        exact ⟨h.mark _, fun _ => (h.mark _).cons hle fun _ => put_self ..⟩

end

end Window

/-! ## Requests -/

/-- The windows together with the requests. -/
structure GssRun where
  ssd : GssSvcSeqData
  /-- the numbers of the requests that have passed their first check only -/
  inFlight : List ℕ
  /-- the numbers accepted by a second check, latest first -/
  accepted : List ℕ

/-- A call of `gss_check_seq_num`. -/
inductive GssOp where
  /-- a request arrives: `gss_check_seq_num(seq, 0)` -/
  | first (seqNum : ℕ)
  /-- a request that has passed: `gss_check_seq_num(seq, 1)` -/
  | second (seqNum : ℕ)
  deriving DecidableEq

variable (s : GssRun)

/-- The run after a first check. -/
def GssRun.first (seqNum : ℕ) : GssRun :=
  let r := gssCheckSeqNum s.ssd seqNum false
  ⟨r.2, if r.1 = .ok then seqNum :: s.inFlight else s.inFlight, s.accepted⟩

/-- The run after a second check. -/
def GssRun.second (seqNum : ℕ) : GssRun :=
  let r := gssCheckSeqNum s.ssd seqNum true
  ⟨r.2, s.inFlight.erase seqNum, if r.1 = .ok then seqNum :: s.accepted else s.accepted⟩

/-- One call; no request has a second check without a first one. -/
def gssStep : GssOp → Option GssRun
  | .first seqNum => some (s.first seqNum)
  | .second seqNum => if seqNum ∈ s.inFlight then some (s.second seqNum) else none

/-- A fresh context. -/
def gssStart : GssRun := ⟨⟨⟨fun _ => false, 0⟩, ⟨fun _ => false, 0⟩⟩, [], []⟩

/-- Sequence numbers have 32 bits. -/
def GssUse (_ : GssRun) : GssOp → Prop
  | .first seqNum => seqNum < 2 ^ 32
  | .second _ => True

instance (op : GssOp) : Decidable (GssUse s op) := by
  cases op <;> dsimp only [GssUse] <;> infer_instance

/-- What keeps replays out: a request arrives when no other request with its number is
between its two checks, and the main window is raised only while its upper end does not
wrap around. -/
def GssOrderly : GssOp → Prop
  | .first seqNum => seqNum ∉ s.inFlight
  | .second seqNum => s.ssd.main.max < seqNum → s.ssd.main.max + gssSeqWinMain < 2 ^ 32

instance (op : GssOp) : Decidable (GssOrderly s op) := by
  cases op <;> dsimp only [GssOrderly] <;> infer_instance

/-- The main window remembers what has been accepted, and nothing accepted is under way. -/
structure GssInv : Prop where
  remembers : s.ssd.main.Remembers gssSeqWinMain s.accepted
  inFlight : s.inFlight.Nodup
  fresh : ∀ n ∈ s.inFlight, n ∉ s.accepted
  accepted : s.accepted.Nodup

section Step

variable {s : GssRun} {seqNum : ℕ}

theorem gssCheckSeqNum_second (ssd : GssSvcSeqData) (seqNum : ℕ) :
    (gssCheckSeqNum ssd seqNum true).2.main = (gssDoCheckSeq ssd.main gssSeqWinMain seqNum .main).2 ∧
      ((gssCheckSeqNum ssd seqNum true).1 = .ok →
        (gssDoCheckSeq ssd.main gssSeqWinMain seqNum .main).1 ≠ .replay) := by
  rw [gssCheckSeqNum, if_pos rfl]
  by_cases hb : (gssDoCheckSeq ssd.main gssSeqWinMain seqNum .main).1 = .behind
  · rw [if_pos hb, hb]
    exact ⟨rfl, fun _ => by decide⟩
  · rw [if_neg hb]
    exact ⟨rfl, fun hok => by rw [hok]; decide⟩

theorem GssInv.first (h : GssInv s) (hnew : seqNum ∉ s.inFlight) : GssInv (s.first seqNum) := by
  have hrem : (s.first seqNum).ssd.main.Remembers gssSeqWinMain s.accepted := by
    have hmain : (s.first seqNum).ssd.main = s.ssd.main := gssDoCheckSeq_try ..
    rw [hmain]
    exact h.remembers
  by_cases hrc : (gssCheckSeqNum s.ssd seqNum false).1 = .ok
  · have hfl : (s.first seqNum).inFlight = seqNum :: s.inFlight := if_pos hrc
    -- an accepted number would have been turned down
    have hfresh : seqNum ∉ s.accepted := fun hacc => by
      have hrep : (gssCheckSeqNum s.ssd seqNum false).1 = .replay :=
        congrArg Prod.fst (h.remembers.try_replay hacc)
      rw [hrc] at hrep
      cases hrep
    exact ⟨hrem, hfl ▸ nodup_cons.mpr ⟨hnew, h.inFlight⟩,
      hfl ▸ forall_mem_cons.mpr ⟨hfresh, h.fresh⟩, h.accepted⟩
  · have hfl : (s.first seqNum).inFlight = s.inFlight := if_neg hrc
    exact ⟨hrem, hfl ▸ h.inFlight, hfl ▸ h.fresh, h.accepted⟩

theorem GssInv.second (h : GssInv s) (hin : seqNum ∈ s.inFlight)
    (hwrap : s.ssd.main.max < seqNum → s.ssd.main.max + gssSeqWinMain < 2 ^ 32) :
    GssInv (s.second seqNum) := by
  obtain ⟨hmain, hrc⟩ := gssCheckSeqNum_second s.ssd seqNum
  obtain ⟨hkeep, hnew⟩ := h.remembers.check hwrap
  have hfl : (s.inFlight.erase seqNum).Nodup := h.inFlight.erase seqNum
  have hmem : ∀ n ∈ s.inFlight.erase seqNum, n ≠ seqNum ∧ n ∈ s.inFlight := fun n hn =>
    h.inFlight.mem_erase_iff.mp hn
  by_cases hok : (gssCheckSeqNum s.ssd seqNum true).1 = .ok
  · have hacc : (s.second seqNum).accepted = seqNum :: s.accepted := if_pos hok
    refine ⟨?_, hfl, fun n hn => ?_, ?_⟩
    · rw [hacc]
      exact hmain ▸ hnew (hrc hok)
    · rw [hacc]
      exact not_mem_cons_of_ne_of_not_mem (hmem n hn).1 (h.fresh n (hmem n hn).2)
    · rw [hacc]
      exact nodup_cons.mpr ⟨h.fresh seqNum hin, h.accepted⟩
  · have hacc : (s.second seqNum).accepted = s.accepted := if_neg hok
    exact ⟨hacc ▸ hmain ▸ hkeep, hfl, fun n hn => hacc ▸ h.fresh n (hmem n hn).2, hacc ▸ h.accepted⟩

theorem GssInv.step (h : GssInv s) {op : GssOp} (hop : GssOrderly s op) {s' : GssRun}
    (hs : gssStep s op = some s') : GssInv s' := by
  cases op with
  | first seqNum =>
    cases hs
    exact h.first hop
  | second seqNum =>
    rw [gssStep] at hs
    split at hs
    · next hin =>
      cases hs
      exact h.second hin hop
    · cases hs

end Step

theorem gssInv_start : GssInv gssStart := ⟨nofun, nodup_nil, nofun, nodup_nil⟩

/-- **No replay**: in every interleaving in which a request arrives only when none with its
number is under way, and the main window does not wrap around, no number is accepted by two
second checks. -/
theorem gssSeq_accepted_once {s : GssRun}
    (h : Reach gssStep (fun s op => GssUse s op ∧ GssOrderly s op) gssStart s) : s.accepted.Nodup :=
  (h.invariant GssInv gssInv_start fun _ _ _ hi hop hs => hi.step hop.2 hs).accepted

/-- A number is accepted, then one far above it, and a copy of the first is turned down. -/
theorem gssSeq_accepted_once_copy :
    ∃ s, Reach gssStep (fun s op => GssUse s op ∧ GssOrderly s op) gssStart s ∧
      s.accepted = [3000, 1] ∧ s.accepted.Nodup := by
  obtain ⟨s, hs, hacc⟩ : ∃ s, Reach gssStep (fun s op => GssUse s op ∧ GssOrderly s op) gssStart s ∧
      s.accepted = [3000, 1] :=
    exists_reach [.first 1, .second 1, .first 3000, .second 3000, .first 1] (by decide)
  exact ⟨s, hs, hacc, gssSeq_accepted_once hs⟩

/-- Two copies of a request pass their first check; when the second one comes to its second
check the main window has moved on, and the back window does not know the number. -/
theorem gssSeq_accepted_twice : ¬∀ s, Reach gssStep GssUse gssStart s → s.accepted.Nodup := by
  intro h
  obtain ⟨s, hs, htwice⟩ : ∃ s, Reach gssStep GssUse gssStart s ∧ ¬s.accepted.Nodup :=
    exists_reach [.first 1, .first 1, .second 1, .first 3000, .second 3000, .second 1] (by decide)
  exact htwice (h s hs)

/-! ## What the main window shows -/

/-- The windows and the numbers accepted in the main window, after one call with `seqNum` and
`set`. -/
def gssCall (s : GssSvcSeqData × List ℕ) (call : ℕ × Bool) : GssSvcSeqData × List ℕ :=
  ((gssCheckSeqNum s.1 call.1 call.2).2,
    if call.2 ∧ (gssDoCheckSeq s.1.main gssSeqWinMain call.1 .main).1 = .ok then call.1 :: s.2
    else s.2)

/-- The documented invariant: in the window, the bits are those of the numbers accepted. -/
structure GssWindow.Shows (w : GssWindow) (seen : List ℕ) : Prop where
  le_max : ∀ n ∈ seen, n ≤ w.max
  /-- the numbers of the window, which may start below zero -/
  bit : ∀ i : ℤ, w.max - 2048 < i → i ≤ w.max →
    (w.win (i % 2048).toNat = true ↔ ∃ n ∈ seen, (n : ℤ) = i)

namespace GssWindow.Shows

variable {w : GssWindow} {seen : List ℕ} {n : ℕ}

/-- The window moves up by one, and the bit of the new number is cleared. -/
theorem up (h : w.Shows seen) :
    ({ w with max := w.max + 1 }.put ((w.max + 1) % 2048) false).Shows seen := by
  refine ⟨fun n hn => (h.le_max n hn).trans (Nat.le_succ _), fun i hlow hhigh => ?_⟩
  rw [put_max] at hlow hhigh
  dsimp only at hlow hhigh
  by_cases hi : i = w.max + 1
  · have hbit : (i % 2048).toNat = (w.max + 1) % 2048 := by omega
    rw [hbit, put_self]
    refine iff_of_false Bool.false_ne_true ?_
    rintro ⟨n, hn, rfl⟩
    have := h.le_max n hn
    omega
  · have hbit : (i % 2048).toNat ≠ (w.max + 1) % 2048 := by omega
    rw [put_of_ne _ _ hbit]
    exact h.bit i (by omega) (by omega)

theorem advance (k : ℕ) (h : w.Shows seen) : (gssAdvance 2048 k w).Shows seen := by
  induction k generalizing w with
  | zero => exact h
  | succ k ih => exact ih h.up

/-- The window jumps over all numbers seen. -/
theorem jump (h : w.Shows seen) (hn : w.max + 2048 ≤ n) :
    Shows ⟨fun _ => false, n⟩ seen := by
  have hlt : ∀ m ∈ seen, m + 2048 ≤ n := fun m hm => by
    have := h.le_max m hm
    omega
  refine ⟨fun m hm => by have := hlt m hm; dsimp only; omega, fun i hlow _ => ?_⟩
  refine iff_of_false Bool.false_ne_true ?_
  rintro ⟨m, hm, rfl⟩
  have := hlt m hm
  dsimp only at hlow
  omega

theorem mark (h : w.Shows seen) (hle : n ≤ w.max) (hlt : w.max < n + 2048) :
    (w.put (n % 2048) true).Shows (n :: seen) := by
  refine ⟨forall_mem_cons.mpr ⟨hle, h.le_max⟩, fun i hlow hhigh => ?_⟩
  rw [put_max] at hlow hhigh
  rw [exists_mem_cons_iff]
  by_cases hi : (n : ℤ) = i
  · have hbit : (i % 2048).toNat = n % 2048 := by omega
    rw [hbit, put_self]
    exact iff_of_true rfl (.inl hi)
  · have hbit : (i % 2048).toNat ≠ n % 2048 := by omega
    rw [put_of_ne _ _ hbit, or_iff_right hi]
    exact h.bit i hlow hhigh

/-- The check of the main window, where its upper end does not wrap around. -/
theorem check (h : w.Shows seen) (hmax : w.max + 2048 < 2 ^ 32) (hn : n + 2048 < 2 ^ 32) :
    (gssDoCheckSeq w 2048 n .main).2.max + 2048 < 2 ^ 32 ∧
      (gssDoCheckSeq w 2048 n .main).2.Shows
        (if (gssDoCheckSeq w 2048 n .main).1 = .ok then n :: seen else seen) := by
  by_cases hgt : w.max < n
  · have hraise := raise_max 2048 hgt
    have hshows : (w.raise 2048 n).Shows seen := by
      rw [raise, u32_of_lt hmax]
      split
      · next hfar => exact h.jump hfar
      · exact h.advance _
    rw [gssDoCheckSeq_above hgt, put_max, hraise]
    exact ⟨hn, hshows.mark hraise.ge (by omega)⟩
  · rw [gssDoCheckSeq, if_neg hgt, u32_of_lt hn]
    split
    · exact ⟨hmax, h⟩
    · split
      · exact ⟨hmax, h⟩
      · exact ⟨hmax, h.mark (Nat.not_lt.mp hgt) (by omega)⟩

end GssWindow.Shows

/-- **The window invariant**: where every number that is marked is a window below the end of the 32
bits, the bits of the main window are those of the numbers accepted in it, and a number of the
window that was not accepted is accepted. -/
theorem gssSeq_window (calls : List (ℕ × Bool))
    (hcalls : ∀ call ∈ calls, call.2 = true → call.1 + gssSeqWinMain < 2 ^ 32) :
    let s := calls.foldl gssCall (gssStart.ssd, [])
    (∀ i : ℤ, s.1.main.max - gssSeqWinMain < i → i ≤ s.1.main.max →
      (s.1.main.win (i % gssSeqWinMain).toNat = true ↔ ∃ n ∈ s.2, (n : ℤ) = i)) ∧
    ∀ n set, n ≤ s.1.main.max → s.1.main.max < n + gssSeqWinMain → n ∉ s.2 →
      (gssCheckSeqNum s.1 n set).1 = .ok := by
  have hrun : ∀ s : GssSvcSeqData × List ℕ, s.1.main.max + 2048 < 2 ^ 32 ∧ s.1.main.Shows s.2 →
      (calls.foldl gssCall s).1.main.max + 2048 < 2 ^ 32 ∧
        (calls.foldl gssCall s).1.main.Shows (calls.foldl gssCall s).2 := by
    induction calls with
    | nil => exact fun _ h => h
    | cons call calls ih =>
      obtain ⟨hcall, hcalls⟩ := forall_mem_cons.mp hcalls
      refine fun s h => ih hcalls _ ?_
      obtain ⟨n, set⟩ := call
      cases set with
      | false =>
        have hmain : (gssCall s (n, false)).1.main = s.1.main := gssDoCheckSeq_try ..
        rw [hmain]
        exact h
      | true =>
        have hmain : (gssCall s (n, true)).1.main = _ := (gssCheckSeqNum_second s.1 n).1
        have hseen : (gssCall s (n, true)).2 =
            if (gssDoCheckSeq s.1.main gssSeqWinMain n .main).1 = .ok then n :: s.2 else s.2 := by
          simp [gssCall]
        rw [hmain, hseen]
        exact h.2.check h.1 (hcall rfl)
  obtain ⟨hmax, hshows⟩ := hrun (gssStart.ssd, [])
    ⟨by decide, nofun, fun i _ _ => by simp [gssStart]⟩
  refine ⟨hshows.bit, fun n set hle hlt hn => ?_⟩
  have hwin : gssSeqWinMain = 2048 := rfl
  have hbit := hshows.bit n (by omega) (by omega)
  rw [show ((n : ℤ) % 2048).toNat = n % 2048 by omega] at hbit
  -- the number has no mark
  have hclear := mt hbit.mp <| by
    rintro ⟨m, hm, heq⟩
    exact hn (Int.natCast_inj.mp heq ▸ hm)
  have hok : ∀ phase, (gssDoCheckSeq (calls.foldl gssCall (gssStart.ssd, [])).1.main 2048 n
      phase).1 = .ok := by
    intro phase
    rw [gssDoCheckSeq, if_neg (Nat.not_lt.mpr hle), u32_of_lt (by omega),
      if_neg (by omega), if_neg hclear]
    split <;> rfl
  cases set with
  | false => exact hok .try
  | true =>
    have hmain : (gssDoCheckSeq _ gssSeqWinMain n .main).1 = .ok := hok .main
    simp [gssCheckSeqNum, hmain]

/-- The window is raised twice, the second time by less than its size. -/
theorem gssSeq_window_raised :
    let s := [(3000, true), (3002, true)].foldl gssCall (gssStart.ssd, [])
    s.2 = [3002, 3000] ∧ (s.1.main.win 952 = true ↔ ∃ n ∈ s.2, (n : ℤ) = 3000) ∧
      (gssCheckSeqNum s.1 3001 true).1 = .ok := by
  obtain ⟨hbit, hok⟩ := gssSeq_window [(3000, true), (3002, true)] (by decide)
  exact ⟨by decide, hbit 3000 (by decide) (by decide),
    hok 3001 true (by decide) (by decide) (by decide)⟩

/-- Once the highest number of all is accepted, the one below it is turned down unseen. -/
theorem gssSeq_window_wraps :
    let s := gssCall (gssStart.ssd, []) (4294967295, true)
    s.2 = [4294967295] ∧ s.1.main.max = 4294967295 ∧
      (gssCheckSeqNum s.1 4294967294 false).1 = .replay := by
  decide

end Lustre
