import Lustre.Word
import Mathlib.Data.UInt

/-!
# Unpacking a received message

A `lustre_msg_v2` is a header with the number of its buffers, an array of their
lengths, and the buffers, each padded to a multiple of eight bytes. A received
message is memory that the sender has filled: `__lustre_unpack_msg` brings the header
and the lengths into the byte order of the receiver and checks that the whole message
has been received, and `lustre_msg_buf_v2` finds a buffer, without a check of its own.

`MsgSafe` is what the users of an accepted message rely on. It holds exactly for the messages
that the check refuses (`WireRefused`) and those whose buffers have been received when the
sender's numbers are added up without overflow (`WireFits`); a message whose size fits the
`int` of the check is one or the other (`lustreUnpackMsg_safe`). A message whose lengths
overflow that `int` can be accepted as well (`lustreUnpackMsg_overflow`).
-/

namespace Lustre

/-! ## Memory -/

/-- Memory from the start of the message on, also behind its end. -/
abbrev Mem := ℕ → UInt8

/-- A 32-bit field in the byte order of the host. -/
def le32 (m : Mem) (off : ℕ) : ℕ :=
  (m off).toNat + 2 ^ 8 * (m (off + 1)).toNat + 2 ^ 16 * (m (off + 2)).toNat +
    2 ^ 24 * (m (off + 3)).toNat

/-- A 32-bit field in the other byte order. -/
def be32 (m : Mem) (off : ℕ) : ℕ :=
  (m (off + 3)).toNat + 2 ^ 8 * (m (off + 2)).toNat + 2 ^ 16 * (m (off + 1)).toNat +
    2 ^ 24 * (m off).toNat

/-- `__swab32s` on the field at `off`. -/
def swab32s (m : Mem) (off : ℕ) : Mem := fun a =>
  if off ≤ a ∧ a < off + 4 then m (2 * off + 3 - a) else m a

section Memory

variable {m : Mem} {off a b : ℕ}

theorem swab32s_of_not_mem (h : a < off ∨ off + 4 ≤ a) : swab32s m off a = m a :=
  if_neg (by omega)

theorem le32_lt (m : Mem) (off : ℕ) : le32 m off < 2 ^ 32 := by
  have h (a : ℕ) : (m a).toNat < 256 := (m a).toNat_lt
  have h0 := h off
  have h1 := h (off + 1)
  have h2 := h (off + 2)
  have h3 := h (off + 3)
  rw [le32]
  omega

/-- A field reads the other way round after it has been swapped. -/
theorem le32_swab32s_self (m : Mem) (off : ℕ) : le32 (swab32s m off) off = be32 m off := by
  have h (a b : ℕ) (ha : off ≤ a ∧ a < off + 4) (hb : 2 * off + 3 - a = b) :
      swab32s m off a = m b := by rw [swab32s, if_pos ha, hb]
  rw [le32, be32, h off (off + 3) (by omega) (by omega), h (off + 1) (off + 2) (by omega) (by omega),
    h (off + 2) (off + 1) (by omega) (by omega), h (off + 3) off (by omega) (by omega)]

theorem swab32s_frame (h : a + 4 ≤ off ∨ off + 4 ≤ a) :
    le32 (swab32s m off) a = le32 m a ∧ be32 (swab32s m off) a = be32 m a := by
  have hb (i : ℕ) (hi : i < 4) : swab32s m off (a + i) = m (a + i) :=
    swab32s_of_not_mem (by omega)
  have h0 := hb 0 (by decide)
  rw [add_zero] at h0
  rw [le32, be32, le32, be32, h0, hb 1 (by decide), hb 2 (by decide), hb 3 (by decide)]
  exact ⟨rfl, rfl⟩

end Memory

/-! ## The message -/

def lustreMsgMagicV2Swabbed : ℕ := 0xD30BD00B

/-- The offset of `lm_bufcount` in `struct lustre_msg_v2`. -/
def lmBufcount : ℕ := 0

/-- The offset of `lm_secflvr`. -/
def lmSecflvr : ℕ := 4

/-- The offset of `lm_magic`. -/
def lmMagic : ℕ := 8

/-- The offset of `lm_repsize`. -/
def lmRepsize : ℕ := 12

/-- The offset of `lm_cksum`. -/
def lmCksum : ℕ := 16

/-- The offset of `lm_flags`. -/
def lmFlags : ℕ := 20

/-- The offset of `lm_buflens[i]`. -/
def lmBuflens (i : ℕ) : ℕ := 32 + 4 * i

def cfsSizeRound (val : ℕ) : ℕ := u64 (val + 7) / 8 * 8

def lustreMsgHdrSizeV2 (count : ℕ) : ℕ := u32 (cfsSizeRound (lmBuflens count))

/-- The fields of the header that are swapped. -/
def swabHdr (m : Mem) : Mem :=
  [lmMagic, lmBufcount, lmSecflvr, lmRepsize, lmCksum, lmFlags].foldl swab32s m

/-- `swabbed`: the sender has the other byte order. -/
def wireSwabbed (m : Mem) : Bool := le32 m lmMagic = lustreMsgMagicV2Swabbed

/-- The header in the receiver's order. -/
def unpackHdr (m : Mem) : Mem := if wireSwabbed m then swabHdr m else m

/-- The loop of `lustre_unpack_msg_v2` over the lengths, after `i` rounds: the memory and
`required_len`. -/
def unpackBuflens (swabbed : Bool) (m : Mem) (requiredLen : ℕ) : ℕ → Mem × ℕ
  | 0 => (m, requiredLen)
  | i + 1 =>
    let r := unpackBuflens swabbed m requiredLen i
    let m := if swabbed then swab32s r.1 (lmBuflens i) else r.1
    (m, u32 (r.2 + cfsSizeRound (le32 m (lmBuflens i))))

/-- `lustre_unpack_msg_v2`: whether the message has been swapped, and the memory; `none` is
`-EINVAL`. -/
def lustreUnpackMsgV2 (m : Mem) (len : ℕ) : Option (Bool × Mem) :=
  if len < toS32 (lustreMsgHdrSizeV2 0) then none
  else
    let bufcount := le32 (unpackHdr m) lmBufcount
    let requiredLen := lustreMsgHdrSizeV2 bufcount
    if len < toS32 requiredLen then none
    else
      let r := unpackBuflens (wireSwabbed m) (unpackHdr m) requiredLen bufcount
      if len < toS32 r.2 then none else some (wireSwabbed m, r.1)

def lustreUnpackMsg (m : Mem) (len : ℕ) : Option (Bool × Mem) :=
  if len < lmMagic + 4 then none else lustreUnpackMsgV2 m len

/-- The loop of `lustre_msg_buf_v2`: the offset after `n` rounds. -/
def bufOffset (m : Mem) : ℕ → ℕ
  | 0 => lustreMsgHdrSizeV2 (le32 m lmBufcount)
  | n + 1 => u32 (bufOffset m n + cfsSizeRound (le32 m (lmBuflens n)))

/-- `lustre_msg_buf_v2`: the offset of buffer `n`. -/
def lustreMsgBufV2 (m : Mem) (n minSize : ℕ) : Option ℕ :=
  if le32 m lmBufcount ≤ n then none
  else if le32 m (lmBuflens n) < minSize then none
  else some (bufOffset m n)

/-- What users of an accepted message of `len` bytes rely on. -/
structure MsgSafe (m : Mem) (len : ℕ) : Prop where
  /-- the header and the lengths have been received -/
  header : lmBuflens (le32 m lmBufcount) ≤ len
  /-- a buffer that is returned is long enough and has been received -/
  inside : ∀ n minSize off, lustreMsgBufV2 m n minSize = some off →
    minSize ≤ le32 m (lmBuflens n) ∧ off + le32 m (lmBuflens n) ≤ len
  /-- it lies behind the header -/
  behind : ∀ n minSize off, lustreMsgBufV2 m n minSize = some off →
    lmBuflens (le32 m lmBufcount) ≤ off
  /-- and apart from every other buffer -/
  apart : ∀ n n' minSize minSize' off off', n ≠ n' → lustreMsgBufV2 m n minSize = some off →
    lustreMsgBufV2 m n' minSize' = some off' →
    off + le32 m (lmBuflens n) ≤ off' ∨ off' + le32 m (lmBuflens n') ≤ off

/-! ## What the sender has written -/

/-- A field as the sender has written it. -/
def wire32 (m : Mem) (off : ℕ) : ℕ := if wireSwabbed m then be32 m off else le32 m off

/-- The end of the first `n` buffers, added up without overflow. -/
def wireOffset (m : Mem) : ℕ → ℕ
  | 0 => cfsSizeRound (lmBuflens (wire32 m lmBufcount))
  | n + 1 => wireOffset m n + cfsSizeRound (wire32 m (lmBuflens n))

/-- The size of the message that the sender's numbers describe. -/
def wireSize (m : Mem) : ℕ := wireOffset m (wire32 m lmBufcount)

/-- `__lustre_unpack_msg` sees that it is too short: for the fixed header, for the array of
the lengths, or for the size, the last two as they come out in an `int`. -/
def WireRefused (m : Mem) (len : ℕ) : Prop :=
  len < 32 ∨ len < toS32 (lustreMsgHdrSizeV2 (wire32 m lmBufcount)) ∨
    len < toS32 (u32 (wireSize m))

/-- The header and every buffer have been received. -/
def WireFits (m : Mem) (len : ℕ) : Prop :=
  lmBuflens (wire32 m lmBufcount) ≤ len ∧
    ∀ n < wire32 m lmBufcount, wireOffset m n + wire32 m (lmBuflens n) ≤ len

section Wire

variable {m : Mem} {swabbed : Bool} {len : ℕ}

theorem le_cfsSizeRound {x : ℕ} (h : x < 2 ^ 63) : x ≤ cfsSizeRound x := by
  rw [cfsSizeRound, u64_of_lt (by omega)]
  omega

theorem be32_lt (m : Mem) (off : ℕ) : be32 m off < 2 ^ 32 := by
  rw [← le32_swab32s_self]
  exact le32_lt _ _

theorem wire32_lt (m : Mem) (off : ℕ) : wire32 m off < 2 ^ 32 := by
  rw [wire32]
  split
  · exact be32_lt m off
  · exact le32_lt m off

theorem wireOffset_mono (m : Mem) {n n' : ℕ} (h : n ≤ n') : wireOffset m n ≤ wireOffset m n' := by
  induction h with
  | refl => exact le_rfl
  | step _ ih => exact ih.trans (Nat.le_add_right ..)

/-- The length of a buffer fits between its offset and the next one. -/
theorem wireOffset_add_le (m : Mem) {n n' : ℕ} (h : n < n') :
    wireOffset m n + wire32 m (lmBuflens n) ≤ wireOffset m n' := by
  have hround := le_cfsSizeRound (lt_trans (wire32_lt m (lmBuflens n)) (by decide))
  exact le_trans (Nat.add_le_add_left hround _) (wireOffset_mono m h)

/-- Swapping the header brings the count into the receiver's order and leaves the lengths. -/
theorem swabHdr_fields (m : Mem) : le32 (swabHdr m) lmBufcount = be32 m lmBufcount ∧
    ∀ i, be32 (swabHdr m) (lmBuflens i) = be32 m (lmBuflens i) := by
  constructor
  · simp only [swabHdr, List.foldl_cons, List.foldl_nil]
    rw [(swab32s_frame (by decide)).1, (swab32s_frame (by decide)).1, (swab32s_frame (by decide)).1,
      (swab32s_frame (by decide)).1, le32_swab32s_self, (swab32s_frame (by decide)).2]
  · intro i
    have hfar : ∀ off ∈ [lmMagic, lmBufcount, lmSecflvr, lmRepsize, lmCksum, lmFlags],
        off + 4 ≤ lmBuflens i := by
      intro off hoff
      have : off ≤ 20 := by revert off; decide
      rw [lmBuflens]
      omega
    rw [swabHdr]
    revert hfar
    generalize [lmMagic, lmBufcount, lmSecflvr, lmRepsize, lmCksum, lmFlags] = offs
    intro hfar
    induction offs generalizing m with
    | nil => rfl
    | cons off offs ih =>
      rw [List.foldl_cons, ih _ (List.forall_mem_cons.mp hfar).2]
      exact (swab32s_frame (.inr (hfar off (List.mem_cons_self)))).2

/-- The memory after `i` rounds: what is outside the lengths visited is as before, and those
are in the receiver's order. -/
theorem unpackBuflens_mem (swabbed : Bool) (m : Mem) (r i : ℕ) :
    (∀ off, off + 4 ≤ lmBuflens 0 ∨ lmBuflens i ≤ off →
      le32 (unpackBuflens swabbed m r i).1 off = le32 m off ∧
        be32 (unpackBuflens swabbed m r i).1 off = be32 m off) ∧
    ∀ j < i, le32 (unpackBuflens swabbed m r i).1 (lmBuflens j) =
      if swabbed then be32 m (lmBuflens j) else le32 m (lmBuflens j) := by
  induction i with
  | zero => exact ⟨fun _ _ => ⟨rfl, rfl⟩, nofun⟩
  | succ i ih =>
    obtain ⟨hout, hin⟩ := ih
    rw [unpackBuflens]
    cases swabbed with
    | false =>
      refine ⟨fun off hoff => hout off ?_, fun j hj => ?_⟩
      · simp only [lmBuflens] at hoff ⊢
        omega
      · rcases Nat.lt_succ_iff_lt_or_eq.mp hj with hj | rfl
        · exact hin j hj
        · exact (hout _ (.inr le_rfl)).1
    | true =>
      refine ⟨fun off hoff => ?_, fun j hj => ?_⟩
      · have hdis : off + 4 ≤ lmBuflens i ∨ lmBuflens i + 4 ≤ off := by
          simp only [lmBuflens] at hoff ⊢
          omega
        have hold : off + 4 ≤ lmBuflens 0 ∨ lmBuflens i ≤ off := by
          simp only [lmBuflens] at hoff ⊢
          omega
        rw [← (hout off hold).1, ← (hout off hold).2]
        exact swab32s_frame hdis
      · rcases Nat.lt_succ_iff_lt_or_eq.mp hj with hj | rfl
        · refine (swab32s_frame (.inl ?_)).1.trans (hin j hj)
          simp only [lmBuflens]
          omega
        · refine (le32_swab32s_self _ _).trans ?_
          exact (hout _ (.inr le_rfl)).2

/-- The count and the lengths after the header has been swapped. -/
theorem unpackHdr_fields (m : Mem) : le32 (unpackHdr m) lmBufcount = wire32 m lmBufcount ∧
    ∀ i, (if wireSwabbed m then be32 (unpackHdr m) (lmBuflens i)
      else le32 (unpackHdr m) (lmBuflens i)) = wire32 m (lmBuflens i) := by
  rw [unpackHdr]
  cases h : wireSwabbed m with
  | false => simp [wire32, h]
  | true =>
    obtain ⟨hcount, hlens⟩ := swabHdr_fields m
    simp [wire32, h, hcount, hlens]

/-- `required_len` is the size of what has been visited, cut to 32 bits. -/
theorem unpackBuflens_required {m m0 : Mem}
    (hlen : ∀ i, (if swabbed then be32 m0 (lmBuflens i) else le32 m0 (lmBuflens i)) =
      wire32 m (lmBuflens i)) (n : ℕ) :
    (unpackBuflens swabbed m0 (lustreMsgHdrSizeV2 (wire32 m lmBufcount)) n).2 =
      u32 (wireOffset m n) := by
  induction n with
  | zero => rfl
  | succ n ih =>
    -- the length that is added has just been brought into order
    have hvisit := (unpackBuflens_mem swabbed m0 (lustreMsgHdrSizeV2 (wire32 m lmBufcount))
      (n + 1)).2 n (Nat.lt_succ_self n)
    rw [hlen] at hvisit
    rw [unpackBuflens] at hvisit ⊢
    rw [hvisit, ih, wireOffset]
    exact Nat.mod_add_mod ..

/-- The check refuses what it says it refuses, and keeps the sender's fields of the rest. -/
theorem lustreUnpackMsg_cases (m : Mem) (len : ℕ) :
    (WireRefused m len ∧ lustreUnpackMsg m len = none) ∨
    (¬ WireRefused m len ∧ ∃ m', lustreUnpackMsg m len = some (wireSwabbed m, m') ∧
      le32 m' lmBufcount = wire32 m lmBufcount ∧
      ∀ i < wire32 m lmBufcount, le32 m' (lmBuflens i) = wire32 m (lmBuflens i)) := by
  obtain ⟨hcount, hlens⟩ := unpackHdr_fields m
  have hreq := unpackBuflens_required hlens (wire32 m lmBufcount)
  have hfixed : toS32 (lustreMsgHdrSizeV2 0) = 32 := rfl
  have hmagic : lmMagic + 4 = 12 := rfl
  rw [WireRefused, lustreUnpackMsg, lustreUnpackMsgV2, hcount, hfixed, hmagic]
  dsimp only
  rw [hreq, ← wireSize]
  by_cases h1 : len < 32
  · refine .inl ⟨.inl h1, ?_⟩
    split
    · rfl
    · exact if_pos (Int.ofNat_lt.mpr h1)
  rw [if_neg (by omega), if_neg (by omega)]
  by_cases h2 : len < toS32 (lustreMsgHdrSizeV2 (wire32 m lmBufcount))
  · exact .inl ⟨.inr (.inl h2), if_pos h2⟩
  rw [if_neg h2]
  by_cases h3 : len < toS32 (u32 (wireSize m))
  · exact .inl ⟨.inr (.inr h3), if_pos h3⟩
  obtain ⟨hout, hin⟩ := unpackBuflens_mem (wireSwabbed m) (unpackHdr m)
    (lustreMsgHdrSizeV2 (wire32 m lmBufcount)) (wire32 m lmBufcount)
  refine .inr ⟨by omega, _, if_neg h3, ?_, fun i hi => (hin i hi).trans (hlens i)⟩
  exact (hout lmBufcount (.inl (by decide))).1.trans hcount

theorem lmBuflens_le_wireOffset (m : Mem) (n : ℕ) :
    lmBuflens (wire32 m lmBufcount) ≤ wireOffset m n := by
  have hcnt := wire32_lt m lmBufcount
  refine le_trans (le_cfsSizeRound ?_) (wireOffset_mono m (Nat.zero_le n))
  rw [lmBuflens]
  omega

theorem cfsSizeRound_lt (h : len < 2 ^ 63) : cfsSizeRound len < len + 8 := by
  rw [cfsSizeRound, u64_of_lt (by omega)]
  omega

section Unpacked

variable {m' : Mem} (hcount : le32 m' lmBufcount = wire32 m lmBufcount)
  (hlens : ∀ i < wire32 m lmBufcount, le32 m' (lmBuflens i) = wire32 m (lmBuflens i))
include hcount hlens

/-- The offsets of the buffers, as long as they fit. -/
theorem bufOffset_eq {n : ℕ} (hn : n ≤ wire32 m lmBufcount) (h : wireOffset m n < 2 ^ 32) :
    bufOffset m' n = wireOffset m n := by
  induction n with
  | zero => rw [bufOffset, hcount]; exact u32_of_lt h
  | succ n ih =>
    rw [wireOffset] at h ⊢
    rw [bufOffset, ih (by omega) (by omega), hlens n hn]
    exact u32_of_lt h

theorem WireFits.safe (hfits : WireFits m len) (hlen : len < 2 ^ 31) : MsgSafe m' len := by
  have hbuf : ∀ n minSize off, lustreMsgBufV2 m' n minSize = some off →
      n < wire32 m lmBufcount ∧ minSize ≤ wire32 m (lmBuflens n) ∧
        le32 m' (lmBuflens n) = wire32 m (lmBuflens n) ∧ off = wireOffset m n := by
    intro n minSize off hoff
    rw [lustreMsgBufV2, hcount] at hoff
    split at hoff
    · cases hoff
    next hn =>
    have hn := not_le.mp hn
    rw [hlens n hn] at hoff
    split at hoff
    · cases hoff
    next hmin =>
    have hle := hfits.2 n hn
    rw [bufOffset_eq hcount hlens hn.le (by omega)] at hoff
    exact ⟨hn, not_lt.mp hmin, hlens n hn, (Option.some.inj hoff).symm⟩
  refine ⟨?_, fun n minSize off hoff => ?_, fun n minSize off hoff => ?_,
    fun n n' minSize minSize' off off' hne hoff hoff' => ?_⟩
  · rw [hcount]
    exact hfits.1
  · obtain ⟨hn, hmin, hl, rfl⟩ := hbuf n minSize off hoff
    rw [hl]
    exact ⟨hmin, hfits.2 n hn⟩
  · obtain ⟨-, -, -, rfl⟩ := hbuf n minSize off hoff
    rw [hcount]
    exact lmBuflens_le_wireOffset m n
  · obtain ⟨-, -, hl, rfl⟩ := hbuf n minSize off hoff
    obtain ⟨-, -, hl', rfl⟩ := hbuf n' minSize' off' hoff'
    rw [hl, hl']
    exact (Nat.lt_or_gt_of_ne hne).imp (wireOffset_add_le m) (wireOffset_add_le m)

/-- A message that is safe fits: every buffer that has been received ends so early that the
offset of the next one does not overflow. -/
theorem MsgSafe.wireFits (hsafe : MsgSafe m' len) (hlen : len < 2 ^ 31) : WireFits m len := by
  have hhdr := hsafe.header
  rw [hcount] at hhdr
  have hstep : ∀ n < wire32 m lmBufcount, wireOffset m n < len + 8 →
      wireOffset m n + wire32 m (lmBuflens n) ≤ len := by
    intro n hn hoff
    have hin := hsafe.inside n 0 (bufOffset m' n) (by
      rw [lustreMsgBufV2, if_neg (by omega), if_neg (Nat.not_lt_zero _)])
    rw [hlens n hn, bufOffset_eq hcount hlens hn.le (by omega)] at hin
    exact hin.2
  have hoff : ∀ n ≤ wire32 m lmBufcount, wireOffset m n < len + 8 := by
    intro n
    induction n with
    | zero =>
      intro _
      have hround : wireOffset m 0 < _ := cfsSizeRound_lt (by omega)
      omega
    | succ n ih =>
      intro hn
      have hend := hstep n hn (ih (Nat.le_of_lt hn))
      have hround := cfsSizeRound_lt (show wire32 m (lmBuflens n) < 2 ^ 63 by omega)
      rw [wireOffset]
      omega
  exact ⟨hhdr, fun n hn => hstep n hn (hoff n hn.le)⟩

end Unpacked

end Wire

/-- **When an accepted message is safe**: exactly if the check refuses it or its buffers fit
without overflow. If the size that its numbers describe fits an `int`, that is so. -/
theorem lustreUnpackMsg_safe (m : Mem) (len : ℕ) (hlen : len < 2 ^ 31) :
    ((∀ swabbed m', lustreUnpackMsg m len = some (swabbed, m') → MsgSafe m' len) ↔
      WireRefused m len ∨ WireFits m len) ∧
    (wireSize m < 2 ^ 31 → WireRefused m len ∨ WireFits m len) := by
  obtain ⟨href, hnone⟩ | ⟨hacc, m', hsome, hcount, hlens⟩ := lustreUnpackMsg_cases m len
  · refine ⟨⟨fun _ => .inl href, fun _ swabbed m' h => ?_⟩, fun _ => .inl href⟩
    rw [hnone] at h
    cases h
  refine ⟨⟨fun hsafe => .inr ((hsafe _ _ hsome).wireFits hcount hlens hlen), ?_⟩, fun hsize => ?_⟩
  · intro hcond swabbed m'' h
    cases hsome.symm.trans h
    exact (hcond.resolve_left hacc).safe hcount hlens hlen
  · have hrecv : wireSize m ≤ len := by
      rw [WireRefused, u32_of_lt (by omega), toS32_of_lt hsize] at hacc
      omega
    exact .inr ⟨(lmBuflens_le_wireOffset m _).trans hrecv,
      fun n hn => (wireOffset_add_le m hn).trans hrecv⟩

/-- A message in the other byte order with one buffer of five bytes, 48 bytes long. -/
def swabbedMsg : Mem := fun a =>
  [0, 0, 0, 1, 0, 0, 0, 0, 0x0B, 0xD0, 0x0B, 0xD3, 0, 0, 0, 0, 0, 0, 0, 0, 0, 0, 0, 0, 0, 0, 0, 0, 0, 0,
    0, 0, 0, 0, 0, 5].getD a 0

/-- It is accepted, and its buffer has been received. -/
theorem lustreUnpackMsg_safe_swabbed :
    ∃ m', lustreUnpackMsg swabbedMsg 48 = some (true, m') ∧ MsgSafe m' 48 ∧
      lustreMsgBufV2 m' 0 5 = some 40 := by
  have h := lustreUnpackMsg_safe swabbedMsg 48 (by decide)
  exact ⟨_, rfl, h.1.mpr (h.2 (by decide)) true _ rfl, rfl⟩

/-- A message whose only buffer claims `2 ^ 31` bytes. -/
def hugeMsg : Mem := fun a =>
  [1, 0, 0, 0, 0, 0, 0, 0, 0xD3, 0x0B, 0xD0, 0x0B, 0, 0, 0, 0, 0, 0, 0, 0, 0, 0, 0, 0, 0, 0, 0, 0, 0, 0,
    0, 0, 0, 0, 0, 0x80].getD a 0

/-- The sum of the sizes overflows to a negative number, so that forty bytes are accepted as
the whole message. -/
theorem lustreUnpackMsg_overflow : ¬∀ (m : Mem) (len : ℕ) (swabbed : Bool) (m' : Mem), len < 2 ^ 31 →
    lustreUnpackMsg m len = some (swabbed, m') → MsgSafe m' len := by
  intro h
  have hsafe := h hugeMsg 40 false hugeMsg (by decide) rfl
  have hend := (hsafe.inside 0 0 40 rfl).2
  exact absurd hend (by decide)

end Lustre
