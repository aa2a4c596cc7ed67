import Lustre.Run
import Lustre.Word

/-!
# Matching a message to a memory descriptor

A memory descriptor (MD) is a buffer posted on a match entry (ME) of a portal.
`lnet_try_match_md` decides whether an incoming PUT or GET matches, and where in the
buffer it is deposited: at the MD's own offset, or at the offset the peer asks for when
the MD is managed remotely. What it is for: a deposit lies inside the buffer.

All sizes are `unsigned int`. `LnetMdOk` is when the unsigned tests mean what they say; then
one match keeps `md_offset <= md_length` (`LnetLibmd.Fits`), and every deposit of every
sequence of messages is inside (`lnet_deposits_inside`). An MD managed remotely takes the
peer's offset without comparing it with its length (`lnet_remote_offset_outside`).
-/

namespace Lustre

/-! ## Match entries and descriptors -/

structure LnetProcessId where
  nid : BitVec 64
  pid : BitVec 32
  deriving DecidableEq

def lnetNidAny : BitVec 64 := -1

def lnetPidAny : BitVec 32 := -1

def lnetMdManageRemote : BitVec 32 := 1 <<< 2

def lnetMdTruncate : BitVec 32 := 1 <<< 4

def lnetMdMaxSize : BitVec 32 := 1 <<< 7

def lnetMdThreshInf : ℤ := -1

/-- `mi_opc`: what the message asks for. -/
inductive LnetOpc where
  /-- `LNET_MD_OP_PUT` -/
  | put
  /-- `LNET_MD_OP_GET` -/
  | get
  deriving DecidableEq

/-- The option bit that allows an operation. -/
def LnetOpc.bit : LnetOpc → BitVec 32
  | .put => 1 <<< 0
  | .get => 1 <<< 1

/-- `struct lnet_me`: whom an entry is for. -/
structure LnetMe where
  /-- `me_match_id` -/
  matchId : LnetProcessId
  /-- `me_match_bits` -/
  matchBits : BitVec 64
  /-- `me_ignore_bits` -/
  ignoreBits : BitVec 64
  deriving DecidableEq

structure LnetLibmd where
  /-- `md_offset` -/
  offset : BitVec 32
  /-- `md_length` -/
  length : BitVec 32
  /-- `md_max_size` -/
  maxSize : BitVec 32
  /-- `md_threshold` -/
  threshold : ℤ
  /-- `md_refcount` -/
  refcount : ℕ
  /-- `md_options` -/
  options : BitVec 32
  /-- `LNET_MD_FLAG_AUTO_UNLINK` -/
  autoUnlink : Bool
  /-- `LNET_MD_FLAG_ZOMBIE`: unlinked, so that no entry leads to it any more -/
  zombie : Bool
  deriving DecidableEq

structure LnetMatchInfo where
  /-- `mi_mbits` -/
  mbits : BitVec 64
  /-- `mi_id` -/
  id : LnetProcessId
  /-- `mi_opc` -/
  opc : LnetOpc
  /-- `mi_rlength` -/
  rlength : BitVec 32
  /-- `mi_roffset` -/
  roffset : BitVec 32
  deriving DecidableEq

/-- The part of a result code that says what becomes of the message. -/
inductive LnetMatchCode where
  /-- `LNET_MATCHMD_NONE`: did not match anything -/
  | none
  /-- `LNET_MATCHMD_OK`: matched -/
  | ok
  /-- `LNET_MATCHMD_DROP`: must be discarded -/
  | drop
  deriving DecidableEq

/-- `enum lnet_match_flags` -/
structure LnetMatchmd where
  /-- one of the first three flags -/
  code : LnetMatchCode
  /-- `LNET_MATCHMD_EXHAUSTED` -/
  exhausted : Bool
  deriving DecidableEq

variable (md : LnetLibmd) (info : LnetMatchInfo)

/-- Is an option of the descriptor set? -/
def LnetLibmd.has (opt : BitVec 32) : Bool := md.options &&& opt != 0

/-! ## The match -/

def lnetMdExhausted : Bool :=
  md.threshold == 0 || (md.has lnetMdMaxSize && decide (md.length < md.offset + md.maxSize))

/-- The tests of `lnet_try_match_md` on the operation, the peer and the match bits. -/
def lnetMeMatches (me : LnetMe) (md : LnetLibmd) (info : LnetMatchInfo) : Bool :=
  md.has info.opc.bit && (me.matchId.nid == lnetNidAny || me.matchId.nid == info.id.nid)
    && (me.matchId.pid == lnetPidAny || me.matchId.pid == info.id.pid)
    && ((me.matchBits ^^^ info.mbits) &&& ~~~me.ignoreBits) == 0

/-- Where a matching message goes. -/
def lnetMatchOffset : BitVec 32 :=
  if md.has lnetMdManageRemote then info.roffset else md.offset

/-- What a matching message may fill. -/
def lnetMatchRoom : BitVec 32 :=
  if md.has lnetMdMaxSize then md.maxSize else md.length - lnetMatchOffset md info

/-- The `mlength` of a matching message; nothing if the packet really is too big. -/
def lnetMatchLength : Option (BitVec 32) :=
  if info.rlength ≤ lnetMatchRoom md info then some info.rlength
  else if md.has lnetMdTruncate then some (lnetMatchRoom md info)
  else none

/-- `lnet_msg_attach_md`, as far as the descriptor is concerned; nothing where its `LASSERT`
fails. -/
def lnetMsgAttachMd : Option LnetLibmd :=
  if md.threshold = lnetMdThreshInf then some { md with refcount := md.refcount + 1 }
  else if 0 < md.threshold then
    some { md with refcount := md.refcount + 1, threshold := md.threshold - 1 }
  else none

/-- `lnet_md_unlink` of a descriptor that a message refers to: it is only flagged. -/
def lnetMdUnlink : LnetLibmd := { md with zombie := true }

/-- The end of `lnet_try_match_md`: the message is deposited up to `offset`. -/
def lnetMatchCommit (offset : BitVec 32) : LnetMatchmd × LnetLibmd :=
  let md := { md with offset := offset }
  if lnetMdExhausted md then
    -- auto-unlink now, so that the entry gets unlinked if required
    (⟨.ok, true⟩, if md.autoUnlink then lnetMdUnlink md else md)
  else (⟨.ok, false⟩, md)

/-- `lnet_try_match_md`: the result code and the descriptor after it. Nothing where a `LASSERT`
fails. -/
def lnetTryMatchMd (me : LnetMe) (md : LnetLibmd) (info : LnetMatchInfo) :
    Option (LnetMatchmd × LnetLibmd) :=
  if lnetMdExhausted md then some (⟨.none, true⟩, md)
  else if ¬ lnetMeMatches me md info then some (⟨.none, false⟩, md)
  else if md.has lnetMdMaxSize ∧ ¬ md.offset + md.maxSize ≤ md.length then none
  else
    match lnetMatchLength md info with
    | none => some (⟨.drop, false⟩, md)
    | some mlength =>
      (lnetMsgAttachMd md).map fun md' => lnetMatchCommit md' (lnetMatchOffset md info + mlength)

/-! ## A descriptor under a sequence of messages -/

/-- What was passed to `lnet_msg_attach_md`, and the length the message had. -/
structure LnetDeposit where
  offset : BitVec 32
  mlength : BitVec 32
  /-- `mi_rlength` -/
  rlength : BitVec 32
  deriving DecidableEq

/-- A descriptor and the deposits made in it so far. -/
structure LnetMdState where
  md : LnetLibmd
  /-- the deposits, the last one first -/
  deposits : List LnetDeposit
  deriving DecidableEq

/-- The deposit an accepted message makes. -/
def lnetDeposit : List LnetDeposit :=
  match lnetMatchLength md info with
  | none => []
  | some mlength => [⟨lnetMatchOffset md info, mlength, info.rlength⟩]

/-- One message is matched. An unlinked descriptor is no longer found through its entry. -/
def lnetMdStep (me : LnetMe) (s : LnetMdState) (info : LnetMatchInfo) : Option LnetMdState :=
  if s.md.zombie then some s
  else
    (lnetTryMatchMd me s.md info).map fun r =>
      { md := r.2
        deposits := if r.1.code = .ok then lnetDeposit s.md info ++ s.deposits else s.deposits }

/-! ## Deposits are inside the buffer -/

/-- When the unsigned tests of a match mean what they say: the offset a peer gives is in the
buffer, and leaves room for a message of maximum size where there is one; and the sum of
offset and maximum size does not wrap around. -/
def LnetMdOk (s : LnetMdState) (info : LnetMatchInfo) : Prop :=
  (s.md.has lnetMdManageRemote → info.roffset ≤ s.md.length ∧
    (s.md.has lnetMdMaxSize → info.roffset.toNat + s.md.maxSize.toNat ≤ s.md.length.toNat)) ∧
  (s.md.has lnetMdMaxSize → s.md.offset.toNat + s.md.maxSize.toNat < 2 ^ 32)
  deriving Decidable

/-- A deposit inside a buffer of a length, no longer than its message. -/
def LnetDeposit.Inside (length : BitVec 32) (d : LnetDeposit) : Prop :=
  d.offset.toNat + d.mlength.toNat ≤ length.toNat ∧ d.mlength ≤ d.rlength
  deriving Decidable

/-- The offset of a descriptor is in its buffer. -/
def LnetLibmd.Fits : Prop := md.offset ≤ md.length

variable {me : LnetMe} {md md' : LnetLibmd} {info : LnetMatchInfo} {s s' : LnetMdState}

theorem lnetMsgAttachMd_length (h : lnetMsgAttachMd md = some md') : md'.length = md.length := by
  rw [lnetMsgAttachMd] at h
  split at h
  · cases h
    rfl
  · split at h
    · cases h
      rfl
    · cases h

theorem lnetMatchCommit_spec (md : LnetLibmd) (offset : BitVec 32) :
    (lnetMatchCommit md offset).1.code = .ok ∧ (lnetMatchCommit md offset).2.length = md.length ∧
      (lnetMatchCommit md offset).2.offset = offset := by
  rw [lnetMatchCommit]
  split
  · split <;> exact ⟨rfl, rfl, rfl⟩
  · exact ⟨rfl, rfl, rfl⟩

/-- What a match can do: nothing to the descriptor, or a deposit. -/
theorem lnetTryMatchMd_cases {r : LnetMatchmd × LnetLibmd}
    (h : lnetTryMatchMd me md info = some r) : (r.1.code ≠ .ok ∧ r.2 = md) ∨
    (lnetMdExhausted md = false ∧ lnetMeMatches me md info = true ∧ r.1.code = .ok ∧
      ∃ mlength, lnetMatchLength md info = some mlength ∧ r.2.length = md.length ∧
        r.2.offset = lnetMatchOffset md info + mlength) := by
  rw [lnetTryMatchMd] at h
  split at h
  · cases h
    exact .inl ⟨by simp, rfl⟩
  · next hex =>
    split at h
    · cases h
      exact .inl ⟨by simp, rfl⟩
    · next hm =>
      split at h
      · cases h
      · split at h
        · cases h
          exact .inl ⟨by simp, rfl⟩
        · next mlength hlen =>
          obtain ⟨md1, hatt, rfl⟩ := Option.map_eq_some_iff.mp h
          obtain ⟨hcode, hlength, hoffset⟩ := lnetMatchCommit_spec md1 _
          exact .inr ⟨by simpa using hex, by simpa using hm, hcode, mlength, hlen,
            hlength.trans (lnetMsgAttachMd_length hatt), hoffset⟩

/-- A message is never deposited longer than it is. -/
theorem lnetMatchLength_le {mlength : BitVec 32} (h : lnetMatchLength md info = some mlength) :
    mlength ≤ info.rlength ∧ mlength ≤ lnetMatchRoom md info := by
  rw [lnetMatchLength] at h
  split at h
  · next hle =>
    cases h
    exact ⟨BitVec.le_refl _, hle⟩
  · next hle =>
    split at h
    · cases h
      exact ⟨BitVec.le_of_lt (BitVec.not_le.mp hle), BitVec.le_refl _⟩
    · cases h

/-- Under the condition the room is what is left of the buffer. -/
theorem lnetMatchRoom_le (hfit : s.md.Fits) (hok : LnetMdOk s info)
    (hex : lnetMdExhausted s.md = false) :
    (lnetMatchOffset s.md info).toNat + (lnetMatchRoom s.md info).toNat ≤ s.md.length.toNat := by
  obtain ⟨hremote, hwrap⟩ := hok
  rw [lnetMatchRoom]
  split
  · next hmax =>
    -- the room is the maximum size; the descriptor is not exhausted
    rw [lnetMatchOffset]
    split
    · next hrem => exact (hremote hrem).2 hmax
    · simp only [lnetMdExhausted, hmax, Bool.true_and, Bool.or_eq_false_iff,
        decide_eq_false_iff_not, BitVec.not_lt] at hex
      have hsum := hex.2
      rw [BitVec.le_def, BitVec.toNat_add_of_lt (hwrap hmax)] at hsum
      exact hsum
  · -- the room is the rest of the buffer
    have hoff : lnetMatchOffset s.md info ≤ s.md.length := by
      rw [lnetMatchOffset]
      split
      · next hrem => exact (hremote hrem).1
      · exact hfit
    rw [BitVec.toNat_sub_of_le hoff]
    have hle : (lnetMatchOffset s.md info).toNat ≤ s.md.length.toNat := hoff
    omega

/-- What a run keeps: the offset is in the buffer, and so are the deposits. -/
structure LnetMdState.Safe (length : BitVec 32) (s : LnetMdState) : Prop where
  length_eq : s.md.length = length
  fits : s.md.Fits
  inside : ∀ d ∈ s.deposits, d.Inside length

theorem LnetMdState.Safe.step {length : BitVec 32} (hs : s.Safe length) (hok : LnetMdOk s info)
    (h : lnetMdStep me s info = some s') : s'.Safe length := by
  rw [lnetMdStep] at h
  split at h
  · cases h
    exact hs
  · obtain ⟨r, hr, rfl⟩ := Option.map_eq_some_iff.mp h
    rcases lnetTryMatchMd_cases hr with ⟨hne, hmd⟩ | ⟨hex, -, hcode, mlength, hlen, hl, ho⟩
    · rw [if_neg hne, hmd]
      exact hs
    · -- an accepted message: the deposit ends where the offset is put
      have hroom := lnetMatchRoom_le hs.fits hok hex
      obtain ⟨hle, hle'⟩ := lnetMatchLength_le hlen
      have hin : (lnetMatchOffset s.md info).toNat + mlength.toNat ≤ s.md.length.toNat :=
        le_trans (Nat.add_le_add_left hle' _) hroom
      have hlt : (lnetMatchOffset s.md info).toNat + mlength.toNat < 2 ^ 32 :=
        hin.trans_lt s.md.length.isLt
      refine ⟨hl.trans hs.length_eq, ?_, ?_⟩
      · rw [LnetLibmd.Fits, BitVec.le_def, ho, hl, BitVec.toNat_add_of_lt hlt]
        exact hin
      · rw [if_pos hcode, lnetDeposit, hlen]
        exact List.forall_mem_cons.mpr ⟨⟨hs.length_eq ▸ hin, hle⟩, hs.inside⟩

open LnetMdState

/-- Along every sequence of messages that meet the condition, every deposit is inside the buffer
and no longer than its message. -/
theorem lnet_deposits_inside (me : LnetMe) (md : LnetLibmd) (hfit : md.offset ≤ md.length)
    (h : Reach (lnetMdStep me) LnetMdOk ⟨md, []⟩ s) :
    ∀ d ∈ s.deposits, d.offset.toNat + d.mlength.toNat ≤ md.length.toNat ∧
      d.mlength ≤ d.rlength := by
  have hstart : Safe md.length ⟨md, []⟩ := ⟨rfl, hfit, List.forall_mem_nil _⟩
  have hsafe := h.invariant (Safe md.length) hstart
    (fun _ _ _ hs hok hstep => hs.step hok hstep)
  exact hsafe.inside

/-- A buffer of 100 bytes for PUTs of 60 bytes, any number of them. -/
def lnetMdHundred (options : BitVec 32) : LnetLibmd :=
  { offset := 0, length := 100, maxSize := 0, threshold := lnetMdThreshInf, refcount := 0,
    options := options, autoUnlink := false, zombie := false }

/-- An entry that takes everything. -/
def lnetMeAny : LnetMe :=
  { matchId := ⟨lnetNidAny, lnetPidAny⟩, matchBits := 0, ignoreBits := -1 }

/-- A PUT of some bytes at some remote offset. -/
def lnetPutOf (rlength roffset : BitVec 32) : LnetMatchInfo :=
  { mbits := 0, id := ⟨1, 1⟩, opc := .put, rlength := rlength, roffset := roffset }

/-- Two PUTs of 60 bytes fill a truncating buffer of 100: 60 bytes, then the 40 that are left. -/
theorem lnet_deposits_inside_truncated : ∃ s : LnetMdState,
    (∀ d ∈ s.deposits, d.offset.toNat + d.mlength.toNat ≤ 100 ∧ d.mlength ≤ d.rlength) ∧
      s.deposits = [⟨60, 40, 60⟩, ⟨0, 60, 60⟩] := by
  obtain ⟨s, hreach, hdep⟩ : ∃ s, Reach (lnetMdStep lnetMeAny) LnetMdOk
      ⟨lnetMdHundred (LnetOpc.put.bit ||| lnetMdTruncate), []⟩ s ∧
      s.deposits = [⟨60, 40, 60⟩, ⟨0, 60, 60⟩] :=
    exists_reach [lnetPutOf 60 0, lnetPutOf 60 0] (by decide +kernel)
  exact ⟨s, lnet_deposits_inside _ _ (by decide) hreach, hdep⟩

/-- A PUT of 50 bytes at the remote offset 200 is accepted by a buffer of 100 bytes: the room
`100 - 200` wraps around, and the deposit is at 200. -/
theorem lnet_remote_offset_outside : ∃ (md : LnetLibmd) (s : LnetMdState),
    md.offset ≤ md.length ∧ Reach (lnetMdStep lnetMeAny) (fun _ _ => True) ⟨md, []⟩ s ∧
      ∃ d ∈ s.deposits, ¬ d.offset.toNat + d.mlength.toNat ≤ md.length.toNat := by
  obtain ⟨s, hreach, hdep⟩ : ∃ s, Reach (lnetMdStep lnetMeAny) (fun _ _ => True)
      ⟨lnetMdHundred (LnetOpc.put.bit ||| lnetMdManageRemote), []⟩ s ∧
      ∃ d ∈ s.deposits, ¬ d.offset.toNat + d.mlength.toNat ≤ 100 :=
    exists_reach [lnetPutOf 50 200] (by decide +kernel)
  exact ⟨_, s, by decide, hreach, hdep⟩

end Lustre
