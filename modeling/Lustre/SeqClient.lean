import Lustre.SeqServer

/-!
# The FID sequence client (`fid_request.c`)

The threads of a client take FIDs from one current sequence, `lcs_fid`, by counting its object
id up, and whole sequences for themselves. A new sequence comes from `lcs_space`, which is
refilled by the server. The mutex is dropped for that call: `lcs_update` keeps other threads
from asking meanwhile, while they may go on with the current sequence.

`ClientInv` says that a sequence of `lcs_space`, of a range the server has not given, or in the
hands of a thread that has called the server is in no FID and no result yet. Every section keeps
it, so that no FID and no sequence is returned twice (`seqClient_distinct`), as long as the
server does not give sequence zero, which stands for a failed call (`seqClient_zero`).
-/

namespace Lustre

open List

/-! ## The client -/

structure LuFid where
  fSeq : ℕ
  fOid : ℕ
  fVer : ℕ
  deriving DecidableEq

def fidIsZero (fid : LuFid) : Bool := fid.fSeq = 0 && fid.fOid = 0

inductive LuCliType where
  /-- `LUSTRE_SEQ_METADATA` -/
  | metadata
  /-- `LUSTRE_SEQ_DATA` -/
  | data
  deriving DecidableEq

/-- `LUSTRE_METADATA_SEQ_MAX_WIDTH` and `LUSTRE_DATA_SEQ_MAX_WIDTH` -/
def LuCliType.maxWidth : LuCliType → ℕ
  | .metadata => 0x20000
  | .data => 0xFFFFFFFF

structure LuClientSeq where
  lcsSpace : LuSeqRange
  /-- `lcs_fid`, the FID allocated last -/
  lcsFid : LuFid
  lcsType : LuCliType
  lcsWidth : ℕ
  lcsUpdate : ℕ
  deriving DecidableEq

/-- `seq_client_init`, with the `seq_client_flush` in it -/
def seqClientInit (type : LuCliType) : LuClientSeq :=
  ⟨lustreSeqZeroRange, ⟨0, 0, 0⟩, type, type.maxWidth, 0⟩

/-- `seq_client_alloc_seq` where the server replies with a range or, `none`, an error: the
sequence or `none`; no result is an `LASSERT`. -/
def seqClientAllocSeq (c : LuClientSeq) (reply : Option LuSeqRange) :
    Option (Option ℕ × LuClientSeq) :=
  if luSeqRangeIsSane c.lcsSpace then
    match if luSeqRangeIsExhausted c.lcsSpace then reply else some c.lcsSpace with
    | none => some (none, c)
    | some space =>
      if luSeqRangeIsExhausted space then none
      else some (some space.lsrStart,
        { c with lcsSpace := { space with lsrStart := space.lsrStart + 1 } })
  else none

/-- `seq_fid_alloc_fini`, `none` is its `LASSERT`. -/
def seqFidAllocFini (c : LuClientSeq) (seqnr : ℕ) (whole : Bool) : Option LuClientSeq :=
  if c.lcsUpdate = 1 then
    some { c with
      lcsFid := if seqnr ≠ 0 then ⟨seqnr, if whole then c.lcsType.maxWidth else 1, 0⟩ else c.lcsFid
      lcsUpdate := c.lcsUpdate - 1 }
  else none

/-! ## Threads -/

/-- Where a thread stands between its atomic sections. -/
inductive SeqThread where
  /-- outside, or waiting for `lcs_update` -/
  | idle
  /-- behind `seq_fid_alloc_prep`, for a whole sequence or a FID -/
  | calling (whole : Bool)
  /-- behind `seq_client_alloc_seq`, with the sequence or an error -/
  | called (whole : Bool) (seqnr : Option ℕ)
  deriving DecidableEq

/-- A client with its threads. -/
structure SeqClients where
  client : LuClientSeq
  thread : ℕ → SeqThread
  /-- the FIDs that `seq_client_alloc_fid` has returned, latest first -/
  fids : List LuFid
  /-- the sequences that `seq_client_get_seq` has returned, latest first -/
  seqs : List ℕ
  /-- the ranges that the server has given -/
  ranges : List LuSeqRange

/-- An atomic section of a thread. -/
inductive SeqClientOp where
  /-- `seq_client_alloc_fid` up to the end of `seq_fid_alloc_prep` -/
  | allocFid (t : ℕ)
  /-- `seq_client_get_seq` up to there -/
  | getSeq (t : ℕ)
  /-- `seq_client_alloc_seq`, with what the server replies if it is asked -/
  | server (t : ℕ) (reply : Option LuSeqRange)
  /-- `seq_fid_alloc_fini` and the return -/
  | fini (t : ℕ)
  /-- `seq_client_flush` -/
  | flush (t : ℕ)
  deriving DecidableEq

open Function (update update_of_ne update_self)

variable (s : SeqClients)

/-- `seq_fid_alloc_prep`: a thread that has to wait starts over. -/
def SeqClients.prep (t : ℕ) (whole : Bool) : SeqClients :=
  if s.client.lcsUpdate = 0 then { s with
    client := { s.client with lcsUpdate := s.client.lcsUpdate + 1 }
    thread := update s.thread t (.calling whole) }
  else s

/-- One atomic section; a thread that is not at its start has none. -/
def seqClientStep : SeqClientOp → Option SeqClients
  | .allocFid t =>
    if s.thread t ≠ .idle then none
    else if ¬ fidIsZero s.client.lcsFid ∧ s.client.lcsFid.fOid < s.client.lcsWidth then
      -- just bump the last allocated FID
      let fid := { s.client.lcsFid with fOid := s.client.lcsFid.fOid + 1 }
      some { s with client := { s.client with lcsFid := fid }, fids := fid :: s.fids }
    else some (s.prep t false)
  | .getSeq t => if s.thread t ≠ .idle then none else some (s.prep t true)
  | .server t reply =>
    match s.thread t with
    | .calling whole => (seqClientAllocSeq s.client reply).map fun r => { s with
        client := r.2
        thread := update s.thread t (.called whole r.1)
        ranges := (if luSeqRangeIsExhausted s.client.lcsSpace then reply.toList else []) ++
          s.ranges }
    | _ => none
  | .fini t =>
    match s.thread t with
    | .called whole seqnr => (seqFidAllocFini s.client (seqnr.getD 0) whole).map fun c => { s with
        client := c
        thread := update s.thread t .idle
        fids := if whole = false ∧ seqnr ≠ none then c.lcsFid :: s.fids else s.fids
        seqs := (if whole then seqnr.toList else []) ++ s.seqs }
    | _ => none
  | .flush t =>
    if s.thread t ≠ .idle then none
    else if s.client.lcsUpdate ≠ 0 then some s
    else some { s with
      client := { s.client with lcsFid := ⟨0, 0, 0⟩, lcsSpace := lustreSeqZeroRange } }

/-- A client before its first call. -/
def SeqClients.start (type : LuCliType) : SeqClients :=
  ⟨seqClientInit type, fun _ => .idle, [], [], []⟩

/-- The server gives ranges that are not empty and have no common sequence. -/
def ServerUse : SeqClientOp → Prop
  | .server _ (some r) => r.lsrStart < r.lsrEnd ∧ r.lsrEnd < 2 ^ 64 ∧ ∀ p ∈ s.ranges, Apart r p
  | _ => True

/-- The server does not give sequence zero. -/
def ServerNonzero : SeqClientOp → Prop
  | .server _ (some r) => r.lsrStart ≠ 0
  | _ => True

/-- What a client promises. -/
structure ClientGood : Prop where
  /-- no FID is returned twice -/
  fids : s.fids.Nodup
  /-- no sequence is returned twice -/
  seqs : s.seqs.Nodup
  /-- no FID lies in a sequence that is returned -/
  apart : ∀ f ∈ s.fids, f.fSeq ∉ s.seqs

/-! ## The invariant -/

/-- The sequence is in no FID and no result. -/
def SeqClients.Fresh (q : ℕ) : Prop :=
  (∀ f ∈ s.fids, f.fSeq ≠ q) ∧ q ∉ s.seqs ∧ s.client.lcsFid.fSeq ≠ q

/-- The server has given the sequence. -/
def SeqClients.Given (q : ℕ) : Prop := ∃ p ∈ s.ranges, q ∈ p.seqs

/-- What holds between the sections. -/
structure ClientInv : Prop extends ClientGood s where
  alone : ∀ t, s.thread t ≠ .idle →
    s.client.lcsUpdate = 1 ∧ ∀ t', s.thread t' ≠ .idle → t' = t
  space : IsSane64 s.client.lcsSpace ∧ ∀ q ∈ s.client.lcsSpace.seqs, 0 < q ∧ s.Given q
  fresh : ∀ q, 0 < q → q ∈ s.client.lcsSpace.seqs ∨ ¬ s.Given q → s.Fresh q
  got : ∀ t whole q, s.thread t = .called whole (some q) →
    0 < q ∧ s.Given q ∧ s.Fresh q ∧ q ∉ s.client.lcsSpace.seqs
  /-- sequence zero is not used, but for the FID that is zero -/
  zero : (∀ f ∈ s.fids, f.fSeq ≠ 0) ∧ 0 ∉ s.seqs ∧
    (s.client.lcsFid.fSeq = 0 → s.client.lcsFid.fOid = 0)
  /-- the current sequence: the FIDs of it that were returned, and one that was returned whole -/
  current : (∀ f ∈ s.fids, f.fSeq = s.client.lcsFid.fSeq → f.fOid ≤ s.client.lcsFid.fOid) ∧
    (s.client.lcsFid.fSeq ∈ s.seqs → s.client.lcsWidth ≤ s.client.lcsFid.fOid)
  width : s.client.lcsWidth = s.client.lcsType.maxWidth

namespace ClientInv

variable {s s' : SeqClients} {t : ℕ}

section

variable (h : ClientInv s)
include h

theorem prep (whole : Bool) : ClientInv (s.prep t whole) := by
  rw [SeqClients.prep]
  split
  · next hzero =>
    have hidle : ∀ t, s.thread t = .idle := fun t => by
      by_contra hbusy
      exact absurd (h.alone t hbusy).1 (by omega)
    refine { h with alone := fun t1 h1 => ⟨by simp [hzero], fun t2 h2 => ?_⟩, got := ?_ } <;> grind
  · exact h

/-- The next FID of the current sequence: it is above those that were returned, and the sequence
was not returned whole. -/
theorem bump (hfid : fidIsZero s.client.lcsFid = false)
    (hlt : s.client.lcsFid.fOid < s.client.lcsWidth) {fid : LuFid}
    (heq : fid = { s.client.lcsFid with fOid := s.client.lcsFid.fOid + 1 }) :
    ClientInv { s with client := { s.client with lcsFid := fid }, fids := fid :: s.fids } := by
  have hseq : fid.fSeq = s.client.lcsFid.fSeq := by rw [heq]
  have hoid : fid.fOid = s.client.lcsFid.fOid + 1 := by rw [heq]
  have hfresh : ∀ q, s.Fresh q → SeqClients.Fresh { s with
      client := { s.client with lcsFid := fid }, fids := fid :: s.fids } q := by
    rintro q ⟨hfids, hseqs, hcur⟩
    exact ⟨forall_mem_cons.mpr ⟨hseq ▸ hcur, hfids⟩, hseqs, hseq ▸ hcur⟩
  have hpos : s.client.lcsFid.fSeq ≠ 0 := fun h0 => by
    simp [fidIsZero, h0, h.zero.2.2 h0] at hfid
  have hwhole : s.client.lcsFid.fSeq ∉ s.seqs := fun hmem =>
    absurd (h.current.2 hmem) (not_le.mpr hlt)
  refine { h with
    fids := nodup_cons.mpr ⟨fun hmem => ?_, h.fids⟩
    apart := forall_mem_cons.mpr ⟨hseq ▸ hwhole, h.apart⟩
    fresh := fun q hq hor => hfresh q (h.fresh q hq hor)
    got := fun t w q ht => ?_
    zero := ⟨forall_mem_cons.mpr ⟨hseq ▸ hpos, h.zero.1⟩, h.zero.2.1,
      fun h0 => absurd (hseq ▸ h0) hpos⟩
    current := ⟨forall_mem_cons.mpr ⟨fun _ => le_rfl, fun f hf heq => ?_⟩, fun hmem => ?_⟩ }
  · have hle := h.current.1 fid hmem hseq
    omega
  · obtain ⟨hq, hgiven, hf, hspace⟩ := h.got t w q ht
    exact ⟨hq, hgiven, hfresh q hf, hspace⟩
  · have hle := h.current.1 f hf (heq.trans hseq)
    change f.fOid ≤ fid.fOid
    omega
  · exact absurd (hseq ▸ hmem) hwhole

/-- The server's range takes the place of `lcs_space`. -/
theorem refill {r : LuSeqRange} (hlt : r.lsrStart < r.lsrEnd) (h64 : r.lsrEnd < 2 ^ 64)
    (hnew : ∀ p ∈ s.ranges, Apart r p) (hzero : r.lsrStart ≠ 0) :
    ClientInv { s with client := { s.client with lcsSpace := r }, ranges := r :: s.ranges } := by
  have hgiven : ∀ q, s.Given q → q ∉ r.seqs := by
    rintro q ⟨p, hp, hqp⟩ hq
    exact Set.disjoint_left.mp (hnew p hp) hq hqp
  refine { h with
    space := ⟨⟨hlt.le, h64⟩, fun q hq => ⟨(Nat.pos_of_ne_zero hzero).trans_le hq.1, r, ?_, hq⟩⟩
    fresh := fun q hq hor => h.fresh q hq (.inr fun hg => ?_)
    got := fun t w q ht => ?_ }
  · exact mem_cons_self
  · obtain ⟨p, hp, hqp⟩ := hg
    rcases hor with hr | hnot
    · exact hgiven q ⟨p, hp, hqp⟩ hr
    · exact hnot ⟨p, mem_cons_of_mem _ hp, hqp⟩
  · obtain ⟨hq, ⟨p, hp, hqp⟩, hf, -⟩ := h.got t w q ht
    exact ⟨hq, ⟨p, mem_cons_of_mem _ hp, hqp⟩, hf, hgiven q ⟨p, hp, hqp⟩⟩

/-- A thread that has called the server, with a sequence that is not used. -/
theorem call {whole : Bool} (ht : s.thread t = .calling whole) {r : Option ℕ}
    (hr : ∀ q, r = some q → 0 < q ∧ s.Given q ∧ s.Fresh q ∧ q ∉ s.client.lcsSpace.seqs) :
    ClientInv { s with thread := update s.thread t (.called whole r) } := by
  obtain ⟨hone, hbusy⟩ := h.alone t (by simp [ht])
  have honly : ∀ t1, update s.thread t (.called whole r) t1 ≠ .idle → t1 = t := by
    intro t1 h1
    by_contra hother
    rw [update_of_ne hother] at h1
    exact hother (hbusy t1 h1)
  refine { h with
    alone := fun t1 h1 => ⟨hone, fun t2 h2 => (honly t2 h2).trans (honly t1 h1).symm⟩
    got := fun t1 w q h1 => ?_ }
  obtain rfl := honly t1 (by simp only at h1; rw [h1]; exact SeqThread.noConfusion)
  simp only [update_self, SeqThread.called.injEq] at h1
  exact hr q h1.2

/-- The first sequence leaves `lcs_space`. -/
theorem skip (hne : luSeqRangeIsExhausted s.client.lcsSpace = false) {space : LuSeqRange}
    (hspace : space = { s.client.lcsSpace with lsrStart := s.client.lcsSpace.lsrStart + 1 }) :
    ClientInv { s with client := { s.client with lcsSpace := space } } ∧
      ∀ q, some s.client.lcsSpace.lsrStart = some q →
        0 < q ∧ s.Given q ∧ s.Fresh q ∧ q ∉ space.seqs := by
  have hlt := (luSeqRangeIsExhausted_eq_false h.space.1).mp hne
  have hsub : ∀ q ∈ space.seqs, q ∈ s.client.lcsSpace.seqs := fun q hq => by
    subst hspace
    exact ⟨(Nat.le_succ _).trans hq.1, hq.2⟩
  constructor
  · refine { h with
      space := ⟨?_, fun q hq => h.space.2 q (hsub q hq)⟩
      fresh := fun q hq hor => h.fresh q hq (hor.imp_left (hsub q))
      got := fun t w q ht => ?_ }
    · subst hspace
      exact ⟨hlt, h.space.1.2⟩
    · obtain ⟨hq, hgiven, hf, hout⟩ := h.got t w q ht
      exact ⟨hq, hgiven, hf, fun hmem => hout (hsub q hmem)⟩
  · rintro q ⟨⟩
    have hfirst : s.client.lcsSpace.lsrStart ∈ s.client.lcsSpace.seqs := ⟨le_rfl, hlt⟩
    obtain ⟨hpos, hgiven⟩ := h.space.2 _ hfirst
    refine ⟨hpos, hgiven, h.fresh _ hpos (.inl hfirst), fun hmem => ?_⟩
    subst hspace
    exact absurd hmem.1 (Nat.not_succ_le_self _)

theorem server {reply : Option LuSeqRange}
    (huse : ServerUse s (.server t reply)) (hnonzero : ServerNonzero (.server t reply))
    (hs : seqClientStep s (.server t reply) = some s') : ClientInv s' := by
  simp only [seqClientStep] at hs
  split at hs
  · next whole ht =>
    obtain ⟨r, hr, rfl⟩ := Option.map_eq_some_iff.mp hs
    have hsane : luSeqRangeIsSane s.client.lcsSpace = true := decide_eq_true h.space.1.1
    rw [seqClientAllocSeq, if_pos hsane] at hr
    by_cases hempty : luSeqRangeIsExhausted s.client.lcsSpace = true
    · rw [if_pos hempty] at hr ⊢
      cases reply with
      | none =>
        cases hr
        exact h.call ht nofun
      | some range =>
        obtain ⟨hlt, h64, hnew⟩ := huse
        have hne : luSeqRangeIsExhausted range = false :=
          (luSeqRangeIsExhausted_eq_false ⟨hlt.le, h64⟩).mpr hlt
        simp only [hne] at hr
        cases hr
        obtain ⟨hinv, hq⟩ := (h.refill hlt h64 hnew hnonzero).skip hne rfl
        exact hinv.call ht hq
    · rw [if_neg hempty] at hr ⊢
      simp only [Bool.eq_false_iff.mpr hempty] at hr
      cases hr
      obtain ⟨hinv, hq⟩ := h.skip (Bool.eq_false_iff.mpr hempty) rfl
      exact hinv.call ht hq
  · cases hs

/-- A thread returns: its sequence becomes the current one, in a FID or as used up. -/
theorem fini (hs : seqClientStep s (.fini t) = some s') : ClientInv s' := by
  simp only [seqClientStep] at hs
  split at hs
  · next whole seqnr ht =>
    obtain ⟨c, hc, rfl⟩ := Option.map_eq_some_iff.mp hs
    obtain ⟨hone, hbusy⟩ := h.alone t (by simp [ht])
    rw [seqFidAllocFini, if_pos hone] at hc
    cases hc
    have hidle : ∀ t1, update s.thread t .idle t1 = .idle := fun t1 => by
      by_cases heq : t1 = t
      · rw [heq, update_self]
      · rw [update_of_ne heq]
        by_contra hother
        exact heq (hbusy t1 hother)
    have halone : ∀ t1, update s.thread t .idle t1 ≠ .idle → s.client.lcsUpdate - 1 = 1 ∧
      ∀ t2, update s.thread t .idle t2 ≠ .idle → t2 = t1 :=
      fun t1 h1 => absurd (hidle t1) h1
    have hgot : ∀ P : ℕ → Prop, ∀ t1 w q,
        update s.thread t .idle t1 = .called w (some q) → P q := fun P t1 w q h1 => by
      rw [hidle t1] at h1
      cases h1
    cases seqnr with
    | none =>
      simp only [Option.getD_none, ne_eq, not_true_eq_false, and_false, if_false,
        Option.toList_none, ite_self, nil_append]
      exact { h with alone := halone, got := hgot _ }
    | some q =>
      obtain ⟨hpos, hgiven, ⟨hfids, hseqs, hcur⟩, hout⟩ := h.got t whole q ht
      have hother : ∀ q', 0 < q' → q' ∈ s.client.lcsSpace.seqs ∨ ¬ s.Given q' → q ≠ q' := by
        rintro q' - (hmem | hnot) rfl
        · exact hout hmem
        · exact hnot hgiven
      simp only [Option.getD_some, ne_eq, hpos.ne', not_false_eq_true, if_true, reduceCtorEq,
        Option.toList_some]
      cases whole with
      | true =>
        refine { h with
          alone := halone
          got := hgot _
          seqs := nodup_cons.mpr ⟨hseqs, h.seqs⟩
          apart := fun f hf => not_mem_cons_of_ne_of_not_mem (hfids f hf) (h.apart f hf)
          fresh := fun q' hq' hor => ?_
          zero := ⟨h.zero.1, not_mem_cons_of_ne_of_not_mem hpos.ne h.zero.2.1,
            fun h0 => absurd h0 hpos.ne'⟩
          current := ⟨fun f hf heq => absurd heq (hfids f hf), fun _ => h.width.le⟩ }
        obtain ⟨hf, hs, -⟩ := h.fresh q' hq' hor
        exact ⟨hf, not_mem_cons_of_ne_of_not_mem (hother q' hq' hor).symm hs,
          hother q' hq' hor⟩
      | false =>
        refine { h with
          alone := halone
          got := hgot _
          fids := nodup_cons.mpr ⟨fun hmem => hfids _ hmem rfl, h.fids⟩
          apart := forall_mem_cons.mpr ⟨hseqs, h.apart⟩
          fresh := fun q' hq' hor => ?_
          zero := ⟨forall_mem_cons.mpr ⟨hpos.ne', h.zero.1⟩, h.zero.2.1,
            fun h0 => absurd h0 hpos.ne'⟩
          current := ⟨forall_mem_cons.mpr ⟨fun _ => le_rfl,
            fun f hf heq => absurd heq (hfids f hf)⟩, fun hmem => absurd hmem hseqs⟩ }
        obtain ⟨hf, hs, -⟩ := h.fresh q' hq' hor
        exact ⟨forall_mem_cons.mpr ⟨hother q' hq' hor, hf⟩, hs, hother q' hq' hor⟩
  · cases hs

theorem step {op : SeqClientOp} (huse : ServerUse s op)
    (hnonzero : ServerNonzero op) (hs : seqClientStep s op = some s') : ClientInv s' := by
  cases op with
  | allocFid t =>
    simp only [seqClientStep] at hs
    split at hs
    · cases hs
    · split at hs <;> cases hs
      · next hbump => exact h.bump (Bool.eq_false_iff.mpr hbump.1) hbump.2 rfl
      · exact h.prep false
  | getSeq t =>
    simp only [seqClientStep] at hs
    split at hs
    · cases hs
    · cases hs
      exact h.prep true
  | server t reply => exact h.server huse hnonzero hs
  | fini t => exact h.fini hs
  | flush t =>
    simp only [seqClientStep] at hs
    split at hs
    · cases hs
    · split at hs <;> cases hs
      · exact h
      · have hempty : ∀ q, q ∉ lustreSeqZeroRange.seqs := fun q hq => absurd hq.2 (Nat.not_lt_zero q)
        have hfresh : ∀ q, 0 < q → s.Fresh q → (∀ f ∈ s.fids, f.fSeq ≠ q) ∧ q ∉ s.seqs ∧ 0 ≠ q :=
          fun q hq hf => ⟨hf.1, hf.2.1, hq.ne⟩
        refine { h with
          space := ⟨⟨le_rfl, Nat.two_pow_pos 64⟩, fun q hq => absurd hq (hempty q)⟩
          fresh := fun q hq hor => hfresh q hq (h.fresh q hq (.inr ?_))
          got := fun t w q ht => ?_
          zero := ⟨h.zero.1, h.zero.2.1, fun _ => rfl⟩
          current := ⟨fun f hf heq => absurd heq (h.zero.1 f hf),
            fun hmem => absurd hmem h.zero.2.1⟩ }
        · exact hor.resolve_left (hempty q)
        · obtain ⟨hq, hgiven, hf, -⟩ := h.got t w q ht
          exact ⟨hq, hgiven, hfresh q hq hf, hempty q⟩

end

end ClientInv

/-- In every interleaving of any number of threads, with a server that gives ranges without a
common sequence and without sequence zero, no FID is returned twice, no sequence is, and no FID
lies in a sequence that is returned whole. -/
theorem seqClient_distinct (type : LuCliType) {s : SeqClients}
    (h : Reach seqClientStep (fun s op => ServerUse s op ∧ ServerNonzero op) (.start type) s) :
    ClientGood s := by
  refine (h.invariant ClientInv ?_ fun s op s' hs hok hstep => hs.step hok.1 hok.2 hstep).toClientGood
  have hempty : ∀ q, q ∉ lustreSeqZeroRange.seqs := fun q hq => absurd hq.2 (Nat.not_lt_zero q)
  exact {
    fids := .nil
    seqs := .nil
    apart := nofun
    alone := fun t ht => absurd rfl ht
    space := ⟨⟨le_rfl, Nat.two_pow_pos 64⟩, fun q hq => absurd hq (hempty q)⟩
    fresh := fun q hq _ => ⟨nofun, nofun, hq.ne⟩
    got := nofun
    zero := ⟨nofun, nofun, fun _ => rfl⟩
    current := ⟨nofun, nofun⟩
    width := rfl }

/-- Two threads, one of which takes the sequence 5 whole while the other waits for its turn, and
then gets the first FID of the sequence 6. -/
theorem seqClient_distinct_two : ∃ s, Reach seqClientStep
      (fun s op => ServerUse s op ∧ ServerNonzero op) (.start .metadata) s ∧
    s.seqs = [5] ∧ s.fids = [⟨6, 1, 0⟩] ∧ ClientGood s := by
  have hrun : Reach seqClientStep (fun s op => ServerUse s op ∧ ServerNonzero op)
      (.start .metadata) _ :=
    .step (.fini 1) (.step (.server 1 none) (.step (.allocFid 1) (.step (.fini 0)
      (.step (.server 0 (some ⟨5, 7, 0, 0⟩)) (.step (.allocFid 1) (.step (.getSeq 0) .start
        ⟨trivial, trivial⟩ rfl) ⟨trivial, trivial⟩ rfl)
          ⟨⟨by decide, by decide, nofun⟩, Nat.succ_ne_zero 4⟩ rfl)
      ⟨trivial, trivial⟩ rfl) ⟨trivial, trivial⟩ rfl) ⟨trivial, trivial⟩ rfl) ⟨trivial, trivial⟩ rfl
  exact ⟨_, hrun, rfl, rfl, seqClient_distinct .metadata hrun⟩

/-- The server gives the sequence 5, which is returned whole, and then the sequence zero: it counts
as a failure in `seq_fid_alloc_fini`, and `seq_client_alloc_fid` returns a FID of the sequence 5. -/
theorem seqClient_zero : ∃ s, Reach seqClientStep ServerUse (.start .metadata) s ∧
    s.seqs = [5] ∧ s.fids = [⟨5, 0x20000, 0⟩] :=
  ⟨_, .step (.fini 0) (.step (.server 0 (some ⟨0, 1, 0, 0⟩)) (.step (.allocFid 0) (.step (.fini 0)
    (.step (.server 0 (some ⟨5, 6, 0, 0⟩)) (.step (.getSeq 0) .start trivial rfl)
      ⟨by decide, by decide, nofun⟩ rfl) trivial rfl) trivial rfl)
    ⟨by decide, by decide, forall_mem_singleton.mpr (by decide)⟩ rfl) trivial rfl, rfl, rfl⟩

end Lustre
