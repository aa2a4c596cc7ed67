import Lustre.FldCache
import Lustre.Journal
import Mathlib.Order.CompletePartialOrder
import Mathlib.Order.Interval.Set.Disjoint

/-!
# The FID sequence server (`fid_handler.c`, `fid_store.c`)

A sequence server hands out ranges of FID sequences from memory, while the range it may
still allocate from, `lss_space`, is written to disk behind it. Between the two stand two
sets of sequences: the low-water set, whose reservation is on disk and which is safe to
use, and the high-water set, whose reservation may still be in flight. When the low-water
set is used up it is replaced by the high-water one and a new reservation is written,
synchronously if the last one is not known to be committed (`lss_need_sync`).

`SeqInv` is that barrier: what has been handed out and the low-water set meet no record
that a crash may leave behind, and the high-water set meets none either unless its write
is the last one in flight and its callback has not run. Every step keeps it, as long as
the writes of a request are made (`seqServer_apart`). `seq_server_alloc_meta` goes on when
the first reservation could not be written, so that a crash brings back what it then hands
out (`seqServer_twice`). It also returns an empty range where the low-water set is used up and
the high-water set was made of nothing (`seqServer_nonempty`, `seqServer_empty`).

The controller, which hands out super-sequences and special ranges, moves one space on behind
both; nothing keeps a special range from ending past it (`seqController_good`).
-/

namespace Lustre

open Option (map_eq_some_iff mem_toList)
open Journal

/-! ## Ranges of sequences -/

variable (r : LuSeqRange) (s : LuServerSeq)

/-- `lu_seq_range_space`, in `__u64` -/
def luSeqRangeSpace : ℕ := (r.lsrEnd + 2 ^ 64 - r.lsrStart) % 2 ^ 64

def luSeqRangeIsZero : Bool := r.lsrStart = 0 && r.lsrEnd = 0

def luSeqRangeIsExhausted : Bool := luSeqRangeSpace r = 0

/-- `range_alloc`: the range allocated, and what is left of `src`. -/
def rangeAlloc (dst src : LuSeqRange) (width : ℕ) : LuSeqRange × LuSeqRange :=
  let width := min (luSeqRangeSpace src) width
  ({ dst with lsrStart := src.lsrStart, lsrEnd := (src.lsrStart + width) % 2 ^ 64 },
    { src with lsrStart := (src.lsrStart + width) % 2 ^ 64 })

/-- `-ENODEV` -/
def enodev : ℤ := -19

/-! ## The server and its store -/

/-- `struct lu_server_seq`, with the object at `lss_obj`. -/
structure LuServerSeq where
  /-- `lss_space`, what is left to allocate from -/
  lssSpace : LuSeqRange
  lssLowaterSet : LuSeqRange
  lssHiwaterSet : LuSeqRange
  lssSetWidth : ℕ
  lssWidth : ℕ
  lssNeedSync : Bool
  /-- `ss_node_id` of its site -/
  ssNodeId : ℕ
  /-- the stored `lss_space` and the writes to it -/
  lssObj : Journal LuSeqRange
  deriving DecidableEq

/-- What `seq_update_cb_add` meets. -/
inductive SeqCbIo where
  /-- the callback cannot be allocated -/
  | enomem
  /-- `dt_trans_cb_add` fails -/
  | refused
  | added
  deriving DecidableEq

/-- What `seq_store_update` meets. -/
inductive SeqStoreIo where
  /-- nothing is written: the device is read-only, with `rc` zero, or the transaction fails
  before or in the write -/
  | skipped (rc : ℤ)
  /-- the record is written -/
  | written (cb : SeqCbIo)
  deriving DecidableEq

/-- `seq_store_update` without a range for the FLD. -/
def seqStoreUpdate (sync : Bool) : SeqStoreIo → ℤ × LuServerSeq
  | .skipped rc => (rc, s)
  | .written cb =>
    if sync then (0, { s with lssObj := s.lssObj.sync s.lssSpace })
    else match cb with
      -- if the callback cannot be added then sync always
      | .enomem => (0, { s with lssObj := s.lssObj.sync s.lssSpace })
      | .refused => (0, { s with lssObj := s.lssObj.sync s.lssSpace, lssNeedSync := true })
      | .added => (0, { s with lssObj := s.lssObj.write s.lssSpace true, lssNeedSync := true })

def seqSetInit (io : SeqStoreIo) : ℤ × LuServerSeq :=
  let lo := rangeAlloc s.lssLowaterSet s.lssSpace s.lssSetWidth
  let hi := rangeAlloc s.lssHiwaterSet lo.2 s.lssSetWidth
  seqStoreUpdate { s with lssLowaterSet := lo.1, lssHiwaterSet := hi.1, lssSpace := hi.2 } true io

/-- The call of `__seq_set_init` in its two callers, which drop what it returns. -/
def seqLowaterInit (io : SeqStoreIo) : LuServerSeq :=
  if luSeqRangeIsZero s.lssLowaterSet then (seqSetInit s io).2 else s

/-- What one request meets outside of the server. -/
structure SeqIo where
  /-- the range got by `seq_client_alloc_super`, or its error; `none` is a server without
  a controller -/
  super : Option (Except ℤ LuSeqRange)
  /-- what the insertion of that range into the FLD returns, zero where there is none -/
  fldInsert : ℤ
  /-- `obd_num_exports` -/
  numExports : ℕ
  /-- the write of `__seq_set_init` in `seq_server_check_and_alloc_super` -/
  initSuper : SeqStoreIo
  /-- the write of `__seq_set_init` in `range_alloc_set` -/
  initSet : SeqStoreIo
  /-- the write of `range_alloc_set` -/
  switch : SeqStoreIo

/-- The high-water mark is reached: the branch of `range_alloc_set`. -/
def rangeSwitch (io : SeqIo) : ℤ × LuServerSeq :=
  let setSz := max s.lssSetWidth (io.numExports * s.lssWidth % 2 ^ 64)
  let hi := rangeAlloc s.lssHiwaterSet s.lssSpace (min (luSeqRangeSpace s.lssSpace) setSz)
  seqStoreUpdate { s with
    lssLowaterSet := s.lssHiwaterSet, lssHiwaterSet := hi.1, lssSpace := hi.2 } s.lssNeedSync
    io.switch

/-- The end of `range_alloc_set`. -/
def rangeTake (out : LuSeqRange) : LuSeqRange × LuServerSeq :=
  let lo := rangeAlloc out s.lssLowaterSet s.lssWidth
  (lo.1, { s with lssLowaterSet := lo.2 })

/-- `range_alloc_set`, `none` is its `LASSERTF`. -/
def rangeAllocSet (out : LuSeqRange) (io : SeqIo) : Option (ℤ × LuSeqRange × LuServerSeq) :=
  let s := seqLowaterInit s io.initSet
  let r := if luSeqRangeIsExhausted s.lssLowaterSet then rangeSwitch s io else (0, s)
  if !luSeqRangeIsExhausted r.2.lssLowaterSet || luSeqRangeIsSane r.2.lssLowaterSet then
    if r.1 = 0 then some (0, rangeTake r.2 out) else some (r.1, out, r.2)
  else none

/-- `seq_server_check_and_alloc_super`, `none` is its `LASSERT`. -/
def seqServerCheckAndAllocSuper (io : SeqIo) : Option (ℤ × LuServerSeq) :=
  if luSeqRangeIsExhausted s.lssSpace then
    match io.super with
    | none => some (enodev, s)
    | some (.error rc) => some (rc, s)
    | some (.ok super) =>
      if luSeqRangeIsSane super then
        some (io.fldInsert, seqLowaterInit { s with lssSpace := super } io.initSuper)
      else none
  else some (0, seqLowaterInit s io.initSuper)

/-- `seq_server_alloc_meta`, `none` is an `LASSERT`. -/
def seqServerAllocMeta (out : LuSeqRange) (io : SeqIo) : Option (ℤ × LuSeqRange × LuServerSeq) :=
  if luSeqRangeIsSane s.lssSpace then
    (seqServerCheckAndAllocSuper s io).bind fun r =>
      if r.1 < 0 then some (r.1, out, r.2) else rangeAllocSet r.2 out io
  else none

def seqUpdateCb : LuServerSeq :=
  { s with lssNeedSync := false, lssObj := s.lssObj.ran }

def lustreSeqZeroRange : LuSeqRange := ⟨0, 0, 0, 0⟩

/-- `seq_server_init` of a sequence server over what the store holds, `none` is its
`LASSERT`. An empty store is written with the empty range, and an error of that write is
only printed. -/
def seqServerInit (ssNodeId setWidth width : ℕ) (obj : Journal LuSeqRange) (io : SeqStoreIo) :
    Option LuServerSeq :=
  let zero := lustreSeqZeroRange
  let s : LuServerSeq := ⟨zero, zero, zero, setWidth, width, false, ssNodeId, obj⟩
  match obj.committed with
  | none =>
    some (seqStoreUpdate { s with lssSpace := { zero with lsrIndex := ssNodeId } } false io).2
  | some r => if luSeqRangeIsSane r then some { s with lssSpace := r } else none

/-! ## Runs of a server -/

/-- A server, what it has handed out, and the super-sequences it has been given. -/
structure SeqSystem where
  server : LuServerSeq
  /-- the ranges returned with `rc` zero, latest first -/
  given : List LuSeqRange
  /-- the super-sequences, latest first -/
  supers : List LuSeqRange
  deriving DecidableEq

/-- A step of a server. -/
inductive SeqOp where
  /-- `seq_server_alloc_meta` into `out` -/
  | alloc (out : LuSeqRange) (io : SeqIo)
  /-- the oldest write in flight is committed -/
  | commit
  /-- a callback of a committed write runs -/
  | callback
  /-- a crash, and the start after it -/
  | crash (io : SeqStoreIo)

/-- The super-sequence that a request takes. -/
def superTaken (io : SeqIo) : Option LuSeqRange :=
  if luSeqRangeIsExhausted s.lssSpace then
    match io.super with
    | some (.ok super) => some super
    | _ => none
  else none

/-- What a request that ends with `rc` and `out` adds to what is handed out. -/
def handed (rc : ℤ) (out : LuSeqRange) (given : List LuSeqRange) : List LuSeqRange :=
  if rc = 0 then out :: given else given

/-- One step. -/
def seqStep (s : SeqSystem) : SeqOp → Option SeqSystem
  | .alloc out io =>
    (seqServerAllocMeta s.server out io).map fun r =>
      ⟨r.2.2, handed r.1 r.2.1 s.given, (superTaken s.server io).toList ++ s.supers⟩
  | .commit => some { s with server := { s.server with lssObj := s.server.lssObj.commit } }
  | .callback =>
    if s.server.lssObj.due = 0 then some s else some { s with server := seqUpdateCb s.server }
  | .crash io =>
    (seqServerInit s.server.ssNodeId s.server.lssSetWidth s.server.lssWidth
      s.server.lssObj.crash io).map fun server => { s with server }

/-- A server that is started over a store that holds `stored`. -/
def SeqSystem.start (ssNodeId setWidth width : ℕ) (stored : Option LuSeqRange)
    (io : SeqStoreIo) : Option SeqSystem :=
  (seqServerInit ssNodeId setWidth width ⟨stored, [], 0⟩ io).map fun server =>
    ⟨server, [], stored.toList⟩

/-- The sequences of a range. -/
def LuSeqRange.seqs : Set ℕ := Set.Ico r.lsrStart r.lsrEnd

/-- Two ranges without a common sequence. -/
def Apart (a b : LuSeqRange) : Prop := Disjoint a.seqs b.seqs

instance (a b : LuSeqRange) : Decidable (Apart a b) :=
  decidable_of_iff _ Set.Ico_disjoint_Ico.symm

/-- The fields of a range are `__u64`. -/
def IsU64Range : Prop := r.lsrStart < 2 ^ 64 ∧ r.lsrEnd < 2 ^ 64

/-- The controller gives out disjoint super-sequences. -/
def SeqUse (s : SeqSystem) : SeqOp → Prop
  | .alloc _ io => ∀ r ∈ superTaken s.server io, IsU64Range r ∧ ∀ p ∈ s.supers, Apart r p
  | _ => True

instance (s : SeqSystem) (op : SeqOp) : Decidable (SeqUse s op) := by
  cases op <;> dsimp only [SeqUse, IsU64Range] <;> infer_instance

/-- Whether the record is written. -/
def SeqStoreIo.isWritten : SeqStoreIo → Bool
  | .skipped _ => false
  | .written _ => true

/-- The writes of a request are made. -/
def SeqWrites : SeqOp → Prop
  | .alloc _ io =>
    io.initSuper.isWritten = true ∧ io.initSet.isWritten = true ∧ io.switch.isWritten = true
  | _ => True

instance (op : SeqOp) : Decidable (SeqWrites op) := by
  cases op <;> dsimp only [SeqWrites] <;> infer_instance

/-! ## What the functions do to the ranges -/

/-- A range of `__u64`s whose end is not before its start. -/
def IsSane64 : Prop := r.lsrStart ≤ r.lsrEnd ∧ r.lsrEnd < 2 ^ 64

/-- `src` is split into `a` and `b`. -/
structure SplitInto (src a b : LuSeqRange) : Prop where
  sane_left : IsSane64 a
  sane_right : IsSane64 b
  left : a.seqs ⊆ src.seqs
  right : b.seqs ⊆ src.seqs
  apart : Apart a b

theorem Apart.symm {a b : LuSeqRange} (h : Apart a b) : Apart b a := Disjoint.symm h

theorem Apart.mono {a b a' b' : LuSeqRange} (h : Apart a b) (ha : a'.seqs ⊆ a.seqs)
    (hb : b'.seqs ⊆ b.seqs) : Apart a' b' := Disjoint.mono ha hb h

theorem luSeqRangeSpace_of_sane {r : LuSeqRange} (h : IsSane64 r) :
    luSeqRangeSpace r = r.lsrEnd - r.lsrStart := by
  obtain ⟨hle, hlt⟩ := h
  rw [luSeqRangeSpace]
  omega

variable {src : LuSeqRange}

/-- `range_alloc` cuts a sane range in two. -/
theorem rangeAlloc_mid (dst : LuSeqRange) (width : ℕ) (h : IsSane64 src) :
    ∃ m, src.lsrStart ≤ m ∧ m ≤ src.lsrEnd ∧ rangeAlloc dst src width =
      ({ dst with lsrStart := src.lsrStart, lsrEnd := m }, { src with lsrStart := m }) := by
  have hspace := luSeqRangeSpace_of_sane h
  obtain ⟨hle, hlt⟩ := h
  have hmid : ∃ m, src.lsrStart ≤ m ∧ m ≤ src.lsrEnd ∧
      (src.lsrStart + min (luSeqRangeSpace src) width) % 2 ^ 64 = m := by
    rw [hspace]
    exact ⟨_, by omega, by omega, rfl⟩
  obtain ⟨m, hm1, hm2, hm⟩ := hmid
  refine ⟨m, hm1, hm2, ?_⟩
  rw [rangeAlloc, hm]

theorem rangeAlloc_split (dst : LuSeqRange) (width : ℕ) (h : IsSane64 src) :
    SplitInto src (rangeAlloc dst src width).1 (rangeAlloc dst src width).2 := by
  obtain ⟨m, hm1, hm2, hm⟩ := rangeAlloc_mid dst width h
  obtain ⟨hle, hlt⟩ := h
  rw [hm]
  refine ⟨⟨hm1, ?_⟩, ⟨hm2, hlt⟩, Set.Ico_subset_Ico_right hm2, Set.Ico_subset_Ico_left hm1, ?_⟩
  · exact lt_of_le_of_lt hm2 hlt
  · exact Set.Ico_disjoint_Ico_same

theorem apart_of_isEmpty {r : LuSeqRange} (h : r.seqs = ∅) (b : LuSeqRange) : Apart r b := by
  rw [Apart, h]
  exact Set.empty_disjoint _

theorem isSane64_of_check {r : LuSeqRange} (hu : IsU64Range r) (h : luSeqRangeIsSane r = true) :
    IsSane64 r := ⟨of_decide_eq_true h, hu.2⟩

/-! ## The barrier -/

/-- The high-water set meets no record, or its write is the last one in flight and
`lss_need_sync` waits for its callback. -/
def Barrier : Prop :=
  (∀ r ∈ s.lssObj.records, Apart s.lssHiwaterSet r) ∨ s.lssNeedSync = true ∧ s.lssObj.due = 0 ∧
      ∃ older r, s.lssObj.pending = older ++ [(r, true)] ∧ Apart s.lssHiwaterSet r

/-- Where the sequences of a server are that has handed out `given` and has been given the
sequences `owned`. -/
structure Places (given : List LuSeqRange) (owned : Set ℕ) : Prop where
  sane : ∀ r ∈ [s.lssSpace, s.lssHiwaterSet, s.lssLowaterSet], IsSane64 r
  apart : (s.lssSpace :: s.lssHiwaterSet :: s.lssLowaterSet :: given).Pairwise Apart
  owns : ∀ r ∈ s.lssSpace :: s.lssHiwaterSet :: s.lssLowaterSet :: given, r.seqs ⊆ owned

/-- A record that a crash may leave behind. -/
structure Leavable (given : List LuSeqRange) (owned : Set ℕ) (r : LuSeqRange) : Prop where
  sane : IsSane64 r
  owns : r.seqs ⊆ owned
  settled : ∀ g ∈ s.lssLowaterSet :: given, Apart g r

/-- What holds between the steps of a server. -/
structure SeqInv (given : List LuSeqRange) (owned : Set ℕ) : Prop
    extends Places s given owned where
  leavable : ∀ r ∈ s.lssObj.records, Leavable s given owned r
  barrier : Barrier s
  /-- one callback at most, which resets `lss_need_sync` -/
  callback : s.lssObj.outstanding ≤ s.lssNeedSync.toNat

variable {owned' : Set ℕ}

open List

namespace Places

variable {s : LuServerSeq} {given : List LuSeqRange} {owned : Set ℕ}

section

variable (h : Places s given owned)
include h

theorem leavable : Leavable s given owned s.lssSpace where
  sane := h.sane _ (by simp)
  owns := h.owns _ (by simp)
  settled := fun g hg =>
    (rel_of_pairwise_cons h.apart (mem_cons_of_mem _ hg)).symm

theorem hiwater_apart_space : Apart s.lssHiwaterSet s.lssSpace :=
  (rel_of_pairwise_cons h.apart mem_cons_self).symm

/-- A super-sequence takes the place of `lss_space`. -/
theorem refill {r : LuSeqRange} (hr : IsSane64 r)
    (hnew : Disjoint r.seqs owned) (hsub : owned ⊆ owned') (hin : r.seqs ⊆ owned') :
    Places { s with lssSpace := r } given owned' where
  sane := by
    have hs := h.sane
    simp only [forall_mem_cons] at hs ⊢
    exact ⟨hr, hs.2⟩
  apart := by
    refine pairwise_cons.mpr ⟨fun g hg => ?_, (pairwise_cons.mp h.apart).2⟩
    exact Disjoint.mono_right (h.owns g (mem_cons_of_mem _ hg)) hnew
  owns := by
    refine forall_mem_cons.mpr ⟨hin, fun g hg => ?_⟩
    exact (h.owns g (mem_cons_of_mem _ hg)).trans hsub

/-- The high-water set takes the place of the low-water set, and a part of `lss_space` its
own. -/
theorem switch {hi rest : LuSeqRange} (hsplit : SplitInto s.lssSpace hi rest) :
    Places { s with lssLowaterSet := s.lssHiwaterSet, lssHiwaterSet := hi, lssSpace := rest }
      given owned where
  sane := by
    have hs := h.sane
    simp only [forall_mem_cons] at hs ⊢
    exact ⟨hsplit.sane_right, hsplit.sane_left, hs.2.1, hs.2.2.2⟩
  apart := by
    have ha := h.apart
    simp only [pairwise_cons, forall_mem_cons] at ha ⊢
    obtain ⟨⟨hsh, hsl, hsg⟩, ⟨hhl, hhg⟩, hlg, hg⟩ := ha
    refine ⟨⟨hsplit.apart.symm, hsh.mono hsplit.right subset_rfl,
        fun g hgm => (hsg g hgm).mono hsplit.right subset_rfl⟩,
      ⟨hsh.mono hsplit.left subset_rfl, ?_⟩, hhg, hg⟩
    exact fun g hgm => (hsg g hgm).mono hsplit.left subset_rfl
  owns := by
    have ho := h.owns
    simp only [forall_mem_cons] at ho ⊢
    exact ⟨hsplit.right.trans ho.1, hsplit.left.trans ho.1, ho.2.1, ho.2.2.2⟩

/-- A part of the low-water set is handed out. -/
theorem take {out rest : LuSeqRange} (hsplit : SplitInto s.lssLowaterSet out rest) :
    Places { s with lssLowaterSet := rest } (out :: given) owned where
  sane := by
    have hs := h.sane
    simp only [forall_mem_cons] at hs ⊢
    exact ⟨hs.1, hs.2.1, hsplit.sane_right, hs.2.2.2⟩
  apart := by
    have ha := h.apart
    simp only [pairwise_cons, forall_mem_cons] at ha ⊢
    obtain ⟨⟨hsh, hsl, hsg⟩, ⟨hhl, hhg⟩, hlg, hg⟩ := ha
    refine ⟨⟨hsh, hsl.mono subset_rfl hsplit.right, hsl.mono subset_rfl hsplit.left, hsg⟩,
      ⟨hhl.mono subset_rfl hsplit.right, hhl.mono subset_rfl hsplit.left, hhg⟩,
      ⟨hsplit.apart.symm, fun g hgm => (hlg g hgm).mono hsplit.right subset_rfl⟩, ?_, hg⟩
    exact fun g hgm => (hlg g hgm).mono hsplit.left subset_rfl
  owns := by
    have ho := h.owns
    simp only [forall_mem_cons] at ho ⊢
    exact ⟨ho.1, ho.2.1, hsplit.right.trans ho.2.2.1, hsplit.left.trans ho.2.2.1, ho.2.2.2⟩

end

end Places

/-! ## The steps keep the barrier -/

variable {r : ℤ × LuSeqRange × LuServerSeq} {io : SeqIo} {out : LuSeqRange}
  {stored : Option LuSeqRange}

section Steps

variable {s : LuServerSeq} {given : List LuSeqRange} {owned : Set ℕ}

section

variable (h : Places s given owned) (hcb : s.lssObj.outstanding ≤ s.lssNeedSync.toNat)
include h hcb

/-- A synchronous write puts `lss_space` in the place of every record. -/
theorem seqInv_sync : SeqInv { s with lssObj := s.lssObj.sync s.lssSpace } given owned where
  toPlaces := { h with }
  leavable := by
    intro r hr
    obtain rfl := mem_singleton.mp hr
    exact { h.leavable with }
  barrier := by
    refine .inl fun r hr => ?_
    obtain rfl := mem_singleton.mp hr
    exact h.hiwater_apart_space
  callback := hcb

/-- `seq_store_update` makes a reservation in memory durable: at once, or behind a barrier
where `lss_need_sync` is reset and no record meets what may be used. -/
theorem seqStoreUpdate_inv {sync : Bool}
    (hrec : sync = false → s.lssNeedSync = false ∧ ∀ r ∈ s.lssObj.records, Leavable s given owned r)
    {io : SeqStoreIo} (hio : io.isWritten = true) :
    (seqStoreUpdate s sync io).1 = 0 ∧ SeqInv (seqStoreUpdate s sync io).2 given owned := by
  cases io with
  | skipped rc => cases hio
  | written cb =>
    cases sync with
    | true => exact ⟨rfl, seqInv_sync h hcb⟩
    | false =>
      obtain ⟨hneed, hrec⟩ := hrec rfl
      have hzero : s.lssObj.outstanding = 0 := by
        rw [hneed] at hcb
        exact Nat.le_zero.mp hcb
      cases cb with
      | enomem => exact ⟨rfl, seqInv_sync h hcb⟩
      | refused =>
        have hcb' : s.lssObj.outstanding ≤ 1 := hzero.le.trans (Nat.zero_le 1)
        have hp : Places { s with lssNeedSync := true } given owned := { h with }
        exact ⟨rfl, seqInv_sync hp hcb'⟩
      | added =>
        have hdue : s.lssObj.due = 0 := Nat.eq_zero_of_add_eq_zero_right hzero
        refine ⟨rfl, { h with }, fun r hr => ?_,
          .inr ⟨rfl, hdue, s.lssObj.pending, s.lssSpace, rfl, h.hiwater_apart_space⟩, ?_⟩
        · rcases mem_records_write.mp hr with hr | rfl
          · exact { hrec r hr with }
          · exact { h.leavable with }
        · show (s.lssObj.write s.lssSpace true).outstanding ≤ 1
          rw [outstanding_write, hzero]
          exact le_rfl

end

section

variable (h : SeqInv s given owned)
include h

theorem seqSetInit_inv {io : SeqStoreIo}
    (hio : io.isWritten = true) : SeqInv (seqSetInit s io).2 given owned := by
  have hlo := rangeAlloc_split s.lssLowaterSet s.lssSetWidth (h.sane s.lssSpace (by simp))
  have hhi := rangeAlloc_split s.lssHiwaterSet s.lssSetWidth hlo.sane_right
  -- the low-water set first takes the place of the high-water one
  have hplaces := (h.toPlaces.switch hlo).switch hhi
  exact (seqStoreUpdate_inv hplaces h.callback (by simp) hio).2

theorem seqLowaterInit_inv {io : SeqStoreIo}
    (hio : io.isWritten = true) : SeqInv (seqLowaterInit s io) given owned := by
  rw [seqLowaterInit]
  split
  · exact seqSetInit_inv h hio
  · exact h

/-- The switch of the water marks: where the write may be asynchronous, the high-water set
meets no record. -/
theorem rangeSwitch_inv (hio : io.switch.isWritten = true) :
    (rangeSwitch s io).1 = 0 ∧ SeqInv (rangeSwitch s io).2 given owned := by
  have hsplit := rangeAlloc_split s.lssHiwaterSet
    (min (luSeqRangeSpace s.lssSpace) (max s.lssSetWidth (io.numExports * s.lssWidth % 2 ^ 64)))
    (h.sane s.lssSpace (by simp))
  refine seqStoreUpdate_inv (h.toPlaces.switch hsplit) h.callback (fun hneed => ⟨hneed, ?_⟩) hio
  intro r hr
  have hhi : Apart s.lssHiwaterSet r := by
    rcases h.barrier with hb | ⟨htrue, _⟩
    · exact hb r hr
    · rw [hneed] at htrue
      cases htrue
  have hleave := h.leavable r hr
  refine ⟨hleave.sane, hleave.owns, forall_mem_cons.mpr ⟨hhi, fun g hg => ?_⟩⟩
  exact hleave.settled g (mem_cons_of_mem _ hg)

/-- What is handed out leaves the low-water set. -/
theorem seqInv_take {out rest : LuSeqRange} (hsplit : SplitInto s.lssLowaterSet out rest) :
    SeqInv { s with lssLowaterSet := rest } (out :: given) owned := by
  refine ⟨h.toPlaces.take hsplit, fun r hr => ?_, h.barrier, h.callback⟩
  have hleave := h.leavable r hr
  have hlow := hleave.settled s.lssLowaterSet mem_cons_self
  refine ⟨hleave.sane, hleave.owns, forall_mem_cons.mpr
    ⟨hlow.mono hsplit.right subset_rfl, forall_mem_cons.mpr
      ⟨hlow.mono hsplit.left subset_rfl, fun g hg => ?_⟩⟩⟩
  exact hleave.settled g (mem_cons_of_mem _ hg)

theorem rangeTake_inv (out : LuSeqRange) :
    SeqInv (rangeTake s out).2 ((rangeTake s out).1 :: given) owned :=
  seqInv_take h (rangeAlloc_split out s.lssWidth (h.sane s.lssLowaterSet (by simp)))

theorem rangeAllocSet_inv
    (hset : io.initSet.isWritten = true) (hswitch : io.switch.isWritten = true)
    (hr : rangeAllocSet s out io = some r) : SeqInv r.2.2 (handed r.1 r.2.1 given) owned := by
  have hinit := seqLowaterInit_inv h hset
  rw [rangeAllocSet] at hr
  generalize seqLowaterInit s io.initSet = t at hinit hr
  have hstep : ∀ q, (if luSeqRangeIsExhausted t.lssLowaterSet then rangeSwitch t io
      else (0, t)) = q → q.1 = 0 ∧ SeqInv q.2 given owned := by
    rintro q rfl
    split
    · exact rangeSwitch_inv hinit hswitch
    · exact ⟨rfl, hinit⟩
  generalize (if luSeqRangeIsExhausted t.lssLowaterSet then rangeSwitch t io
      else ((0 : ℤ), t)) = q at hstep hr
  obtain ⟨hrc, hq⟩ := hstep q rfl
  split at hr
  · cases hr
    have htake := rangeTake_inv hq out
    generalize rangeTake q.2 out = p at htake ⊢
    exact htake
  · cases hr

theorem SeqInv.mono (hsub : owned ⊆ owned') : SeqInv s given owned' where
  __ := h
  owns := fun r hr => (h.owns r hr).trans hsub
  leavable := fun r hr => { h.leavable r hr with owns := (h.leavable r hr).owns.trans hsub }

/-- `seq_server_check_and_alloc_super`, with a super-sequence that is new to the server. -/
theorem seqServerCheckAndAllocSuper_inv
    (hio : io.initSuper.isWritten = true) (hsub : owned ⊆ owned') (hsuper : ∀ q ∈ superTaken s io,
      IsU64Range q ∧ Disjoint q.seqs owned ∧ q.seqs ⊆ owned')
    {r : ℤ × LuServerSeq} (hr : seqServerCheckAndAllocSuper s io = some r) :
    SeqInv r.2 given owned' := by
  rw [seqServerCheckAndAllocSuper] at hr
  rw [superTaken] at hsuper
  split at hr
  · next hex =>
    rw [if_pos hex] at hsuper
    split at hr
    · cases hr
      exact h.mono hsub
    · cases hr
      exact h.mono hsub
    · next super hs =>
      rw [hs] at hsuper
      obtain ⟨hu, hnew, hin⟩ := hsuper super rfl
      split at hr
      · next hsane =>
        cases hr
        have hplaces := h.toPlaces.refill (isSane64_of_check hu hsane) hnew hsub hin
        refine seqLowaterInit_inv ⟨hplaces, fun r hr => ?_, h.barrier, h.callback⟩ hio
        exact { (h.mono hsub).leavable r hr with }
      · cases hr
  · cases hr
    exact seqLowaterInit_inv (h.mono hsub) hio

/-- `seq_server_alloc_meta` whose writes are made. -/
theorem seqServerAllocMeta_inv (hio : SeqWrites (.alloc out io)) (hsub : owned ⊆ owned')
    (hsuper : ∀ q ∈ superTaken s io, IsU64Range q ∧ Disjoint q.seqs owned ∧ q.seqs ⊆ owned')
    (hr : seqServerAllocMeta s out io = some r) : SeqInv r.2.2 (handed r.1 r.2.1 given) owned' := by
  obtain ⟨hinit, hset, hswitch⟩ := hio
  rw [seqServerAllocMeta] at hr
  split at hr
  · obtain ⟨t, ht, hr⟩ := Option.bind_eq_some_iff.mp hr
    have hinv := seqServerCheckAndAllocSuper_inv h hinit hsub hsuper ht
    split at hr
    · next hneg =>
      cases hr
      rw [handed, if_neg (ne_of_lt hneg)]
      exact hinv
    · exact rangeAllocSet_inv hinv hset hswitch hr
  · cases hr

end

/-- A commit moves the barrier on: when the last write in flight is committed, the
high-water set meets no record. -/
theorem barrier_commit (hb : Barrier s) (hcb : s.lssObj.outstanding ≤ s.lssNeedSync.toNat) :
    Barrier { s with lssObj := s.lssObj.commit } := by
  rcases hb with hb | ⟨hneed, hdue, older, r, hp, hr⟩
  · exact .inl fun r hr => hb r (s.lssObj.records_commit_subset hr)
  · cases older with
    | nil =>
      refine .inl fun x hx => ?_
      rw [commit, hp] at hx
      obtain rfl := mem_singleton.mp hx
      exact hr
    | cons w older =>
      refine .inr ⟨hneed, ?_, older, r, ?_, hr⟩
      · -- the callback of the last write is the only one
        have hone : s.lssObj.commit.outstanding ≤ 1 := by
          rw [outstanding_commit]
          exact hcb.trans (Bool.toNat_le _)
        have hpending : s.lssObj.commit.pending = older ++ [(r, true)] := by
          rw [commit, hp]
          rfl
        have hlast : callbacks (older ++ [(r, true)]) =
            callbacks older + 1 := countP_append
        rw [outstanding, hpending, hlast] at hone
        change s.lssObj.commit.due = 0
        omega
      · change s.lssObj.commit.pending = _
        rw [commit, hp]
        rfl

/-- A callback resets `lss_need_sync` when nothing waits behind the barrier. -/
theorem seqUpdateCb_inv (h : SeqInv s given owned) (hdue : s.lssObj.due ≠ 0) :
    SeqInv (seqUpdateCb s) given owned where
  toPlaces := { h with }
  leavable := fun r hr => { h.leavable r hr with }
  barrier := by
    rcases h.barrier with hb | ⟨_, hzero, _⟩
    · exact .inl hb
    · exact absurd hzero hdue
  callback := by
    have hone : s.lssObj.outstanding ≤ 1 := h.callback.trans (Bool.toNat_le _)
    change s.lssObj.ran.outstanding ≤ 0
    rw [outstanding_ran (Nat.pos_of_ne_zero hdue)]
    omega

/-- The start over a store without writes in flight, whose record meets nothing that has
been handed out. -/
theorem seqServerInit_inv {ssNodeId setWidth width : ℕ}
    {io : SeqStoreIo} (hgiven : given.Pairwise Apart) (howns : ∀ g ∈ given, g.seqs ⊆ owned)
    (hstored : ∀ r ∈ stored, IsU64Range r ∧ r.seqs ⊆ owned ∧ ∀ g ∈ given, Apart g r)
    (hs : seqServerInit ssNodeId setWidth width ⟨stored, [], 0⟩ io = some s) :
    SeqInv s given owned := by
  have hzero : lustreSeqZeroRange.seqs = ∅ := Set.Ico_self 0
  have hempty : ∀ b, Apart lustreSeqZeroRange b := apart_of_isEmpty hzero
  have hsane : IsSane64 lustreSeqZeroRange := ⟨le_rfl, Nat.two_pow_pos 64⟩
  have hplaces : ∀ t : LuServerSeq, t.lssLowaterSet = lustreSeqZeroRange →
      t.lssHiwaterSet = lustreSeqZeroRange → IsSane64 t.lssSpace → t.lssSpace.seqs ⊆ owned →
      (∀ g ∈ given, Apart g t.lssSpace) → Places t given owned := by
    intro t hlo hhi ht hin hg
    refine ⟨?_, ?_, ?_⟩ <;> rw [hlo, hhi]
    · simp only [forall_mem_cons]
      exact ⟨ht, hsane, hsane, forall_mem_nil _⟩
    · simp only [pairwise_cons, forall_mem_cons]
      exact ⟨⟨(hempty _).symm, (hempty _).symm, fun g hgm => (hg g hgm).symm⟩,
        ⟨hempty _, fun g _ => hempty g⟩, fun g _ => hempty g, hgiven⟩
    · simp only [forall_mem_cons, hzero]
      exact ⟨hin, Set.empty_subset _, Set.empty_subset _, howns⟩
  cases stored with
  | none =>
    cases hs
    have hp := hplaces ⟨{ lustreSeqZeroRange with lsrIndex := ssNodeId }, lustreSeqZeroRange,
      lustreSeqZeroRange, setWidth, width, false, ssNodeId, ⟨none, [], 0⟩⟩ rfl rfl hsane
      (hzero.symm ▸ Set.empty_subset _) (fun g _ => (hempty g).symm)
    cases io with
    | skipped rc =>
      exact ⟨hp, fun r hr => absurd hr not_mem_nil, .inl fun r hr =>
        absurd hr not_mem_nil, le_rfl⟩
    | written cb =>
      exact (seqStoreUpdate_inv hp le_rfl (fun _ => ⟨rfl, fun r hr => absurd hr not_mem_nil⟩) rfl).2
  | some r =>
    obtain ⟨hu, hin, hg⟩ := hstored r rfl
    rw [seqServerInit] at hs
    dsimp only at hs
    split at hs
    · next hcheck =>
      cases hs
      have hr64 := isSane64_of_check hu hcheck
      refine ⟨hplaces _ rfl rfl hr64 hin hg, fun x hx => ?_, .inl fun x _ => hempty x, le_rfl⟩
      obtain rfl := mem_singleton.mp hx
      exact ⟨hr64, hin, forall_mem_cons.mpr ⟨hempty _, hg⟩⟩
    · cases hs

end Steps

/-- The sequences that a server has been given. -/
def SeqSystem.owned (s : SeqSystem) : Set ℕ := {x | ∃ r ∈ s.supers, x ∈ r.seqs}

/-- The step lemma: every step whose writes are made keeps the barrier. -/
theorem seqStep_inv {s s' : SeqSystem} {op : SeqOp} (h : SeqInv s.server s.given s.owned)
    (huse : SeqUse s op) (hwrites : SeqWrites op) (hs : seqStep s op = some s') :
    SeqInv s'.server s'.given s'.owned := by
  cases op with
  | alloc out io =>
    obtain ⟨r, hr, rfl⟩ := map_eq_some_iff.mp hs
    refine seqServerAllocMeta_inv h hwrites ?_ (fun q hq => ?_) hr
    · rintro x ⟨p, hp, hx⟩
      exact ⟨p, mem_append_right _ hp, hx⟩
    · obtain ⟨hu, hnew⟩ := huse q hq
      refine ⟨hu, Set.disjoint_left.mpr ?_, fun x hx => ?_⟩
      · rintro x hx ⟨p, hp, hxp⟩
        exact Set.disjoint_left.mp (hnew p hp) hx hxp
      · exact ⟨q, mem_append_left _ (mem_toList.mpr hq), hx⟩
  | commit =>
    cases hs
    exact {
      toPlaces := { h with }
      leavable := fun r hr => { h.leavable r (s.server.lssObj.records_commit_subset hr) with }
      barrier := barrier_commit h.barrier h.callback
      callback := by
        rw [outstanding_commit]
        exact h.callback }
  | callback =>
    rw [seqStep] at hs
    split at hs
    · cases hs
      exact h
    · next hdue =>
      cases hs
      exact seqUpdateCb_inv h hdue
  | crash io =>
    obtain ⟨server, hserver, rfl⟩ := map_eq_some_iff.mp hs
    have hgiven : ∀ g ∈ s.given, g ∈ s.server.lssLowaterSet :: s.given :=
      fun g hg => mem_cons_of_mem _ hg
    refine seqServerInit_inv ?_ (fun g hg => ?_) (fun r hr => ?_) hserver
    · have ha := h.apart
      simp only [pairwise_cons] at ha
      exact ha.2.2.2
    · exact h.owns g (mem_cons_of_mem _ (mem_cons_of_mem _ (hgiven g hg)))
    · have hrec : r ∈ s.server.lssObj.records :=
        mem_append_left _ (mem_toList.mpr hr)
      have hleave := h.leavable r hrec
      exact ⟨⟨lt_of_le_of_lt hleave.sane.1 hleave.sane.2, hleave.sane.2⟩, hleave.owns,
        fun g hg => hleave.settled g (hgiven g hg)⟩

open SeqSystem

/-- Where every write of a request is made, no two ranges that a server hands out have a
sequence in common, across commits, callbacks and crashes. -/
theorem seqServer_apart {ssNodeId setWidth width : ℕ} {stored : Option LuSeqRange}
    (hstored : ∀ r ∈ stored, IsU64Range r) {io : SeqStoreIo} {s0 s : SeqSystem}
    (hstart : start ssNodeId setWidth width stored io = some s0)
    (h : Reach seqStep (fun s op => SeqUse s op ∧ SeqWrites op) s0 s) : s.given.Pairwise Apart := by
  have hinv : SeqInv s.server s.given s.owned := by
    refine h.invariant (fun s => SeqInv s.server s.given s.owned) ?_
      fun s op s' hs hok hstep => seqStep_inv hs hok.1 hok.2 hstep
    obtain ⟨server, hserver, rfl⟩ := map_eq_some_iff.mp hstart
    refine seqServerInit_inv .nil (forall_mem_nil _) (fun r hr => ?_) hserver
    refine ⟨hstored r hr, fun x hx => ?_, forall_mem_nil _⟩
    exact ⟨r, mem_toList.mpr hr, hx⟩
  have ha := hinv.apart
  simp only [pairwise_cons] at ha
  exact ha.2.2.2

/-- A server started over the sequences from 16 to 32, with sets of two sequences. -/
def seqFresh : SeqSystem where
  server := ⟨⟨16, 32, 0, 0⟩, lustreSeqZeroRange, lustreSeqZeroRange, 2, 1, false, 0,
    ⟨some ⟨16, 32, 0, 0⟩, [], 0⟩⟩
  given := []
  supers := [⟨16, 32, 0, 0⟩]

theorem isU64Range_seqFresh : ∀ r ∈ some (⟨16, 32, 0, 0⟩ : LuSeqRange), IsU64Range r := by
  rintro r ⟨⟩
  exact ⟨by decide, by decide⟩

/-- A request of a server without a controller: what it meets in the first reservation and
in the switch of the sets. -/
def seqRequest (init switch : SeqStoreIo) : SeqOp :=
  .alloc lustreSeqZeroRange ⟨none, 0, 1, init, init, switch⟩

/-- A request whose writes are made. -/
def seqWritten : SeqOp := seqRequest (.written .added) (.written .added)

/-- Three requests, the last of which switches the sets with an asynchronous write, a
crash before its commit, and two requests more. -/
theorem seqServer_apart_crash :
    start 0 2 1 (some ⟨16, 32, 0, 0⟩) (.skipped 0) = some seqFresh ∧
    ∃ s, Reach seqStep (fun s op => SeqUse s op ∧ SeqWrites op) seqFresh s ∧
      s.given.map (·.lsrStart) = [21, 20, 18, 17, 16] ∧ s.given.Pairwise Apart := by
  obtain ⟨s, hs, hgiven⟩ : ∃ s, Reach seqStep (fun s op => SeqUse s op ∧ SeqWrites op) seqFresh s ∧
      s.given.map (·.lsrStart) = [21, 20, 18, 17, 16] := exists_reach
    [seqWritten, seqWritten, seqWritten, .crash (.skipped 0), seqWritten, seqWritten]
    (by decide +kernel)
  have hstart : start 0 2 1 (some ⟨16, 32, 0, 0⟩) (.skipped 0) = some seqFresh := rfl
  exact ⟨hstart, s, hs, hgiven, seqServer_apart isU64Range_seqFresh hstart hs⟩

/-- The first reservation cannot be written, the request goes on, and a crash brings the
sequence it has handed out back. -/
theorem seqServer_twice : start 0 2 1 (some ⟨16, 32, 0, 0⟩) (.skipped 0) = some seqFresh ∧
    ∃ s, Reach seqStep SeqUse seqFresh s ∧ ¬ s.given.Pairwise Apart :=
  ⟨rfl, exists_reach [seqRequest (.skipped (-5)) (.written .added), .crash (.skipped 0), seqWritten]
    (by decide +kernel)⟩

/-- The same with a switch of the sets that cannot be written: that request fails, but the
next one uses the new low-water set, whose own reservation is still in flight. -/
theorem seqServer_twice_switch :
    ∃ s, Reach seqStep SeqUse seqFresh s ∧ ¬ s.given.Pairwise Apart :=
  exists_reach [seqWritten, seqWritten, seqWritten, seqWritten,
    seqRequest (.written .added) (.skipped (-5)), seqWritten, .crash (.skipped 0), seqWritten]
    (by decide +kernel)

/-! ## Ranges without a sequence -/

/-- What `seq_client_alloc_super` returns: it passes on no exhausted range, and its errors are
negative. -/
def superChecked : Option (Except ℤ LuSeqRange) → Bool
  | none => true
  | some (.error rc) => rc < 0
  | some (.ok r) => r.lsrStart < 2 ^ 64 && r.lsrEnd < 2 ^ 64 && !luSeqRangeIsExhausted r

/-- A step of a server that is given checked super-sequences. -/
def seqChecked : SeqOp → Bool
  | .alloc _ io => superChecked io.super
  | _ => true

/-- A request finds a sequence: in a set that is not used up, or in the sets it is about to
make. -/
def SeqStocked (s : LuServerSeq) : Prop :=
  0 < s.lssWidth ∧ if luSeqRangeIsZero s.lssLowaterSet then 0 < s.lssSetWidth
    else luSeqRangeIsExhausted s.lssLowaterSet = false ∨
      luSeqRangeIsExhausted s.lssHiwaterSet = false
  deriving Decidable

/-- The ranges of a server are sane, in memory and in what a crash may leave behind. -/
structure SeqSane (s : LuServerSeq) : Prop where
  ranges : ∀ r ∈ [s.lssSpace, s.lssHiwaterSet, s.lssLowaterSet], IsSane64 r
  stored : ∀ r ∈ s.lssObj.records, IsSane64 r

theorem luSeqRangeIsExhausted_eq_false {r : LuSeqRange} (h : IsSane64 r) :
    luSeqRangeIsExhausted r = false ↔ r.lsrStart < r.lsrEnd := by
  simp [luSeqRangeIsExhausted, luSeqRangeSpace_of_sane h, Nat.sub_eq_zero_iff_le]

/-- `range_alloc` takes a sequence where there is one and the width lets it. -/
theorem rangeAlloc_pos (dst : LuSeqRange) (width : ℕ) (h : IsSane64 src) :
    (rangeAlloc dst src width).1.lsrStart < (rangeAlloc dst src width).1.lsrEnd ↔
      src.lsrStart < src.lsrEnd ∧ 0 < width := by
  have hspace := luSeqRangeSpace_of_sane h
  obtain ⟨hle, hlt⟩ := h
  simp only [rangeAlloc, hspace]
  omega

/-- `seq_store_update` writes `lss_space` and changes nothing in memory but `lss_need_sync`. -/
theorem seqStoreUpdate_fields (s : LuServerSeq) (sync : Bool) (io : SeqStoreIo) :
    ∃ obj need, (seqStoreUpdate s sync io).2 = { s with lssObj := obj, lssNeedSync := need } ∧
      ∀ r ∈ obj.records, r ∈ s.lssObj.records ∨ r = s.lssSpace := by
  cases io with
  | skipped rc => exact ⟨_, _, rfl, fun r hr => .inl hr⟩
  | written cb =>
    have hsync : ∀ r ∈ (s.lssObj.sync s.lssSpace).records, r ∈ s.lssObj.records ∨ r = s.lssSpace :=
      fun r hr => .inr (mem_singleton.mp hr)
    cases sync with
    | true => exact ⟨_, _, rfl, hsync⟩
    | false =>
      cases cb with
      | enomem | refused => exact ⟨_, _, rfl, hsync⟩
      | added => exact ⟨_, _, rfl, fun r hr => mem_records_write.mp hr⟩

namespace SeqSane

variable {s : LuServerSeq}

section

variable (h : SeqSane s)
include h

theorem space : IsSane64 s.lssSpace := h.ranges _ (by simp)

theorem hiwater : IsSane64 s.lssHiwaterSet := h.ranges _ (by simp)

theorem lowater : IsSane64 s.lssLowaterSet := h.ranges _ (by simp)

theorem store (sync : Bool) (io : SeqStoreIo) : SeqSane (seqStoreUpdate s sync io).2 := by
  obtain ⟨obj, need, heq, hrec⟩ := seqStoreUpdate_fields s sync io
  rw [heq]
  refine ⟨h.ranges, fun r hr => ?_⟩
  rcases hrec r hr with hr | rfl
  · exact h.stored r hr
  · exact h.space

theorem update {space hi lo : LuSeqRange} (hspace : IsSane64 space)
    (hhi : IsSane64 hi) (hlo : IsSane64 lo) :
    SeqSane { s with lssSpace := space, lssHiwaterSet := hi, lssLowaterSet := lo } :=
  ⟨by simp [hspace, hhi, hlo], h.stored⟩

/-- `__seq_set_init` fills the low-water set from what there is. -/
theorem setInit (io : SeqStoreIo) : ∃ u, (seqSetInit s io).2 = u ∧ SeqSane u ∧
    u.lssWidth = s.lssWidth ∧ u.lssSetWidth = s.lssSetWidth ∧
    (u.lssLowaterSet.lsrStart < u.lssLowaterSet.lsrEnd ↔
      s.lssSpace.lsrStart < s.lssSpace.lsrEnd ∧ 0 < s.lssSetWidth) ∧
    (u.lssHiwaterSet.lsrStart < u.lssHiwaterSet.lsrEnd → 0 < s.lssSetWidth) := by
  have hspace := h.space
  have hlo := rangeAlloc_split s.lssLowaterSet s.lssSetWidth hspace
  have hhi := rangeAlloc_split s.lssHiwaterSet s.lssSetWidth hlo.sane_right
  have hsane := (h.update hhi.sane_right hhi.sane_left hlo.sane_left).store true io
  obtain ⟨obj, need, heq, -⟩ := seqStoreUpdate_fields _ true io
  rw [heq] at hsane
  refine ⟨_, heq, hsane, rfl, rfl, rangeAlloc_pos _ _ hspace, ?_⟩
  exact fun hpos => ((rangeAlloc_pos _ _ hlo.sane_right).mp hpos).2

theorem lowaterInit (io : SeqStoreIo) : SeqSane (seqLowaterInit s io) := by
  rw [seqLowaterInit]
  split
  · obtain ⟨u, heq, hu, -⟩ := h.setInit io
    exact heq ▸ hu
  · exact h

theorem switch (io : SeqIo) : SeqSane (rangeSwitch s io).2 ∧
    (rangeSwitch s io).2.lssLowaterSet = s.lssHiwaterSet ∧
    (rangeSwitch s io).2.lssWidth = s.lssWidth := by
  have hsplit := rangeAlloc_split s.lssHiwaterSet
    (min (luSeqRangeSpace s.lssSpace) (max s.lssSetWidth (io.numExports * s.lssWidth % 2 ^ 64)))
    h.space
  refine ⟨(h.update hsplit.sane_right hsplit.sane_left h.hiwater).store
    _ _, ?_⟩
  obtain ⟨obj, need, heq, -⟩ := seqStoreUpdate_fields _ s.lssNeedSync io.switch
  rw [rangeSwitch, heq]
  exact ⟨rfl, rfl⟩

/-- The low-water set is filled at most twice in a request: with what is in the two sets then
there is a sequence in one of them where `SeqStocked` says so. -/
theorem lowaterInit_twice (hspace : s.lssSpace.lsrStart < s.lssSpace.lsrEnd)
    (io io' : SeqStoreIo) {u : LuServerSeq} (hu : seqLowaterInit (seqLowaterInit s io) io' = u) :
    0 < u.lssWidth ∧ (luSeqRangeIsExhausted u.lssLowaterSet = false ∨
      luSeqRangeIsExhausted u.lssHiwaterSet = false) ↔ SeqStocked s := by
  obtain ⟨v, hv, hsane, hwidth, hset, hlo, hhi⟩ := h.setInit io
  by_cases hzero : luSeqRangeIsZero s.lssLowaterSet = true
  · have hexh := luSeqRangeIsExhausted_eq_false hsane.lowater
    have hexh' := luSeqRangeIsExhausted_eq_false hsane.hiwater
    simp only [SeqStocked, if_pos hzero]
    rw [seqLowaterInit, seqLowaterInit, if_pos hzero, hv] at hu
    split at hu
    · -- the set is zero again, so its width is
      next hagain =>
      obtain ⟨w, hw, hsane', hwidth', -, hlo', hhi'⟩ := hsane.setInit io'
      rw [hw] at hu
      subst hu
      have hnone : ¬ 0 < s.lssSetWidth := by
        simp only [luSeqRangeIsZero, Bool.and_eq_true, decide_eq_true_eq] at hagain
        omega
      rw [luSeqRangeIsExhausted_eq_false hsane'.lowater,
        luSeqRangeIsExhausted_eq_false hsane'.hiwater, hlo',
        hwidth', hwidth]
      rw [hset] at hlo' hhi' ⊢
      tauto
    · subst hu
      rw [hexh, hexh', hlo, hwidth]
      tauto
  · have hfix : ∀ io, seqLowaterInit s io = s := fun io => if_neg hzero
    rw [hfix, hfix] at hu
    subst hu
    simp only [SeqStocked, if_neg hzero]

/-- `range_alloc_set`: a range that is handed out has a sequence where one of the sets has
one. -/
theorem allocSet {u : LuServerSeq} (hu : seqLowaterInit s io.initSet = u)
    (hr : rangeAllocSet s out io = some r) :
    SeqSane r.2.2 ∧ (r.1 = 0 → (r.2.1.lsrStart < r.2.1.lsrEnd ↔ 0 < u.lssWidth ∧
      (luSeqRangeIsExhausted u.lssLowaterSet = false ∨
        luSeqRangeIsExhausted u.lssHiwaterSet = false))) := by
  have hsane : SeqSane u := hu ▸ h.lowaterInit io.initSet
  have hlo := hsane.lowater
  have hhi := hsane.hiwater
  obtain ⟨hswitch, hswlo, hwidth⟩ := hsane.switch io
  simp only [rangeAllocSet, hu] at hr
  rw [luSeqRangeIsExhausted_eq_false hhi]
  -- the range is taken from the low-water set, as the switch left it
  have htake : ∀ q : LuServerSeq, SeqSane q → SeqSane (rangeTake q out).2 ∧
      ((rangeTake q out).1.lsrStart < (rangeTake q out).1.lsrEnd ↔
        q.lssLowaterSet.lsrStart < q.lssLowaterSet.lsrEnd ∧ 0 < q.lssWidth) := by
    intro q hq
    have hqlo := hq.lowater
    exact ⟨hq.update hq.space hq.hiwater
      (rangeAlloc_split out q.lssWidth hqlo).sane_right, rangeAlloc_pos out _ hqlo⟩
  split at hr
  · next hex =>
    split at hr
    · split at hr <;> cases hr
      · refine ⟨(htake _ hswitch).1, fun _ => ?_⟩
        rw [(htake _ hswitch).2, hswlo, hwidth, hex]
        simp [and_comm]
      · next hrc => exact ⟨hswitch, fun h0 => absurd h0 hrc⟩
    · cases hr
  · next hex =>
    rw [Bool.not_eq_true] at hex
    simp only [hex, Bool.not_false, Bool.true_or, if_true] at hr
    cases hr
    refine ⟨(htake _ hsane).1, fun _ => ?_⟩
    rw [(htake _ hsane).2, ← luSeqRangeIsExhausted_eq_false hlo, hex]
    simp

/-- `seq_server_check_and_alloc_super` finds or gets a space that is not used up. -/
theorem checkAndAllocSuper (hio : superChecked io.super = true)
    {r : ℤ × LuServerSeq} (hr : seqServerCheckAndAllocSuper s io = some r) :
    SeqSane r.2 ∧ (0 ≤ r.1 → ∃ space, SeqSane { s with lssSpace := space } ∧
      space.lsrStart < space.lsrEnd ∧
        r.2 = seqLowaterInit { s with lssSpace := space } io.initSuper) := by
  rw [seqServerCheckAndAllocSuper] at hr
  split at hr
  · split at hr
    · cases hr
      exact ⟨h, fun h0 => absurd h0 (by simp [enodev])⟩
    · next rc hs =>
      cases hr
      rw [hs, superChecked, decide_eq_true_eq] at hio
      exact ⟨h, fun h0 => absurd h0 (not_le.mpr hio)⟩
    · next super hs =>
      split at hr
      · next hcheck =>
        cases hr
        simp only [hs, superChecked, Bool.and_eq_true, decide_eq_true_eq, Bool.not_eq_true'] at hio
        have hsup : IsSane64 super := isSane64_of_check hio.1 hcheck
        have hsane : SeqSane { s with lssSpace := super } := h.update hsup h.hiwater h.lowater
        exact ⟨hsane.lowaterInit _, fun _ => ⟨super, hsane,
          (luSeqRangeIsExhausted_eq_false hsup).mp hio.2, rfl⟩⟩
      · cases hr
  · next hex =>
    cases hr
    have hpos := (luSeqRangeIsExhausted_eq_false h.space).mp (Bool.eq_false_iff.mpr hex)
    exact ⟨h.lowaterInit _, fun _ => ⟨s.lssSpace, h, hpos, rfl⟩⟩

theorem allocMeta (hio : superChecked io.super = true) (hr : seqServerAllocMeta s out io = some r) :
    SeqSane r.2.2 ∧ (r.1 = 0 → (r.2.1.lsrStart < r.2.1.lsrEnd ↔ SeqStocked s)) := by
  rw [seqServerAllocMeta] at hr
  split at hr
  · obtain ⟨t, ht, hr⟩ := Option.bind_eq_some_iff.mp hr
    obtain ⟨hsane, hspace⟩ := h.checkAndAllocSuper hio ht
    split at hr
    · next hneg =>
      cases hr
      exact ⟨hsane, fun h0 => absurd h0 (ne_of_lt hneg)⟩
    · next hneg =>
      obtain ⟨space, hs, hpos, heq⟩ := hspace (not_lt.mp hneg)
      obtain ⟨hsane', hiff⟩ := hsane.allocSet rfl hr
      refine ⟨hsane', fun h0 => (hiff h0).trans ?_⟩
      rw [heq]
      exact hs.lowaterInit_twice hpos _ _ rfl
  · cases hr

end

theorem serverInit {ssNodeId setWidth width : ℕ}
    {io : SeqStoreIo} (hstored : ∀ r ∈ stored, IsU64Range r)
    (hs : seqServerInit ssNodeId setWidth width ⟨stored, [], 0⟩ io = some s) : SeqSane s := by
  have hinv : SeqInv s [] Set.univ := by
    refine seqServerInit_inv .nil (forall_mem_nil _) (fun r hr => ?_) hs
    exact ⟨hstored r hr, Set.subset_univ _, forall_mem_nil _⟩
  exact ⟨hinv.sane, fun r hr => (hinv.leavable r hr).sane⟩

theorem step {s s' : SeqSystem} {op : SeqOp} (h : SeqSane s.server) (hop : seqChecked op = true)
    (hs : seqStep s op = some s') : SeqSane s'.server := by
  cases op with
  | alloc out io =>
    obtain ⟨r, hr, rfl⟩ := map_eq_some_iff.mp hs
    exact (h.allocMeta hop hr).1
  | commit =>
    cases hs
    exact ⟨h.ranges, fun r hr => h.stored r (s.server.lssObj.records_commit_subset hr)⟩
  | callback =>
    rw [seqStep] at hs
    split at hs <;> cases hs
    · exact h
    · exact ⟨h.ranges, h.stored⟩
  | crash io =>
    obtain ⟨server, hserver, rfl⟩ := map_eq_some_iff.mp hs
    refine serverInit (fun r hr => ?_) hserver
    have hsane := h.stored r (mem_append_left _ (mem_toList.mpr hr))
    exact ⟨lt_of_le_of_lt hsane.1 hsane.2, hsane.2⟩

end SeqSane

/-- In every state of a server, started over any remaining space, a request that returns zero
hands out a sequence exactly where a set has one. -/
theorem seqServer_nonempty {ssNodeId setWidth width : ℕ} {stored : Option LuSeqRange}
    (hstored : ∀ r ∈ stored, IsU64Range r) {io0 : SeqStoreIo} {s0 s : SeqSystem}
    (hstart : start ssNodeId setWidth width stored io0 = some s0)
    (h : Reach seqStep (fun _ op => seqChecked op = true) s0 s)
    {out out' : LuSeqRange} {io : SeqIo} {server' : LuServerSeq}
    (hio : superChecked io.super = true)
    (hr : seqServerAllocMeta s.server out io = some (0, out', server')) :
    out'.lsrStart < out'.lsrEnd ↔ SeqStocked s.server := by
  have hsane : SeqSane s.server := by
    refine h.invariant (fun s => SeqSane s.server) ?_ fun s op s' hs hok hstep => hs.step hok hstep
    obtain ⟨server, hserver, rfl⟩ := map_eq_some_iff.mp hstart
    exact SeqSane.serverInit hstored hserver
  exact (hsane.allocMeta hio hr).2 rfl

/-- A request of a server that is given the sequences from 32 to 64 where it asks. -/
def seqSupplied : SeqIo :=
  ⟨some (.ok ⟨32, 64, 0, 0⟩), 0, 1, .written .added, .written .added, .written .added⟩

/-- A server with 16 sequences left gives out three of them, with a change of the sets and a
crash in between, and then a fourth. -/
theorem seqServer_nonempty_fourth : ∃ s out' server',
    Reach seqStep (fun _ op => seqChecked op = true) seqFresh s ∧ s.given.length = 3 ∧
      seqServerAllocMeta s.server lustreSeqZeroRange seqSupplied = some (0, out', server') ∧
      SeqStocked s.server ∧ out'.lsrStart < out'.lsrEnd := by
  have hstart : start 0 2 1 (some ⟨16, 32, 0, 0⟩) (.skipped 0) = some seqFresh := rfl
  obtain ⟨s, hrun, hgiven, hstock, hzero⟩ : ∃ s,
      Reach seqStep (fun _ op => seqChecked op = true) seqFresh s ∧ s.given.length = 3 ∧
      SeqStocked s.server ∧
      (seqServerAllocMeta s.server lustreSeqZeroRange seqSupplied).map Prod.fst = some 0 :=
    exists_reach [.alloc lustreSeqZeroRange seqSupplied, .alloc lustreSeqZeroRange seqSupplied,
      .commit, .callback, .crash (.written .added), .alloc lustreSeqZeroRange seqSupplied]
      (by decide +kernel)
  obtain ⟨⟨rc, out', server'⟩, hr, rfl⟩ := map_eq_some_iff.mp hzero
  exact ⟨s, out', server', hrun, hgiven, hr, hstock,
    (seqServer_nonempty isU64Range_seqFresh hstart hrun rfl hr).mpr hstock⟩

/-- A server that is started over two sequences. -/
def seqShort : SeqSystem where
  server := { seqFresh.server with
    lssSpace := ⟨16, 18, 0, 0⟩, lssObj := ⟨some ⟨16, 18, 0, 0⟩, [], 0⟩ }
  given := []
  supers := [⟨16, 18, 0, 0⟩]

/-- The start over two sequences leaves the high-water set empty. When they are handed out it
takes the place of the low-water set, and a request returns zero with an empty range. -/
theorem seqServer_empty : start 0 2 1 (some ⟨16, 18, 0, 0⟩) (.skipped 0) = some seqShort ∧
    ∃ s, Reach seqStep (fun _ op => seqChecked op = true) seqShort s ∧
      ∃ server', seqServerAllocMeta s.server lustreSeqZeroRange seqSupplied =
        some (0, ⟨18, 18, 0, 0⟩, server') := by
  obtain ⟨s, hs, heq⟩ : ∃ s, Reach seqStep (fun _ op => seqChecked op = true) seqShort s ∧
      (seqServerAllocMeta s.server lustreSeqZeroRange seqSupplied).map (fun r => (r.1, r.2.1)) =
        some (0, ⟨18, 18, 0, 0⟩) := exists_reach
    [.alloc lustreSeqZeroRange seqSupplied, .alloc lustreSeqZeroRange seqSupplied]
    (by decide +kernel)
  obtain ⟨⟨rc, out, server'⟩, hr, hout⟩ := map_eq_some_iff.mp heq
  cases hout
  exact ⟨rfl, s, hs, server', hr⟩

/-! ## The controller -/

/-- `__seq_server_alloc_super` into `out`, `none` is its `LASSERT`. A failure to insert the range
into the FLD is one of the write. -/
def seqServerAllocSuper (s : LuServerSeq) (out : LuSeqRange) (io : SeqStoreIo) :
    Option (ℤ × LuSeqRange × LuServerSeq) :=
  if luSeqRangeIsSane s.lssSpace then
    -- -ENOSPC
    if luSeqRangeIsExhausted s.lssSpace then some (-28, out, s)
    else
      let r := rangeAlloc out s.lssSpace s.lssWidth
      let w := seqStoreUpdate { s with lssSpace := r.2 } true io
      some (w.1, r.1, w.2)
  else none

def seqServerAllocSpec (s : LuServerSeq) (spec : LuSeqRange) (io : SeqStoreIo) : ℤ × LuServerSeq :=
  -- -EINVAL
  if spec.lsrEnd ≤ spec.lsrStart then (-22, s)
  else if spec.lsrFlags ≠ luSeqRangeMdt ∧ spec.lsrFlags ≠ luSeqRangeOst then (-22, s)
  else if s.lssSpace.lsrStart ≤ spec.lsrStart then
    seqStoreUpdate { s with lssSpace := { s.lssSpace with lsrStart := spec.lsrEnd } } true io
  -- -ENOSPC
  else (-28, s)

/-- A controller and the ranges it has allocated, latest first. -/
structure SeqController where
  server : LuServerSeq
  /-- the ranges of the allocations that returned zero -/
  given : List LuSeqRange
  deriving DecidableEq

/-- An allocation of a controller. -/
inductive CtlOp where
  /-- `seq_server_alloc_super` -/
  | super (out : LuSeqRange) (io : SeqStoreIo)
  /-- `seq_server_alloc_spec` -/
  | spec (spec : LuSeqRange) (io : SeqStoreIo)

/-- One allocation. -/
def ctlStep (s : SeqController) : CtlOp → Option SeqController
  | .super out io => (seqServerAllocSuper s.server out io).map fun r =>
      ⟨r.2.2, handed r.1 r.2.1 s.given⟩
  | .spec spec io =>
    let r := seqServerAllocSpec s.server spec io
    some ⟨r.2, handed r.1 spec s.given⟩

/-- A special range that is not refused ends in the space that is left. -/
def CtlFits (s : SeqController) : CtlOp → Prop
  | .super _ _ => True
  | .spec spec _ => spec.lsrStart < spec.lsrEnd →
      spec.lsrFlags = luSeqRangeMdt ∨ spec.lsrFlags = luSeqRangeOst →
      s.server.lssSpace.lsrStart ≤ spec.lsrStart → spec.lsrEnd ≤ s.server.lssSpace.lsrEnd

/-- What a controller of the sequences `space` promises. -/
structure CtlGood (space : LuSeqRange) (s : SeqController) : Prop where
  /-- the next allocation finds a sane space -/
  sane : luSeqRangeIsSane s.server.lssSpace = true
  /-- what is allocated is of the controller's space -/
  inside : ∀ g ∈ s.given, space.lsrStart ≤ g.lsrStart ∧ g.lsrEnd ≤ space.lsrEnd
  /-- nothing is allocated twice -/
  apart : s.given.Pairwise Apart

/-- The space that is left is the end of the controller's, behind what is allocated. -/
structure CtlInv (space : LuSeqRange) (s : SeqController) : Prop where
  sane : IsSane64 s.server.lssSpace
  start_le : space.lsrStart ≤ s.server.lssSpace.lsrStart
  end_eq : s.server.lssSpace.lsrEnd = space.lsrEnd
  before : ∀ g ∈ s.given, space.lsrStart ≤ g.lsrStart ∧ g.lsrEnd ≤ s.server.lssSpace.lsrStart
  apart : s.given.Pairwise Apart

namespace CtlInv

variable {space : LuSeqRange} {s : SeqController}

theorem good (h : CtlInv space s) : CtlGood space s where
  sane := decide_eq_true h.sane.1
  inside := fun g hg =>
    ⟨(h.before g hg).1, (h.before g hg).2.trans (h.sane.1.trans h.end_eq.le)⟩
  apart := h.apart

/-- The space is moved on past `out`, which is handed out where the store is written. -/
theorem advance (h : CtlInv space s) (out : LuSeqRange) {start : ℕ}
    (hout : s.server.lssSpace.lsrStart ≤ out.lsrStart) (hend : out.lsrEnd ≤ start)
    (hstart : s.server.lssSpace.lsrStart ≤ start) (hle : start ≤ s.server.lssSpace.lsrEnd)
    (rc : ℤ) (io : SeqStoreIo) : CtlInv space ⟨(seqStoreUpdate { s.server with
      lssSpace := { s.server.lssSpace with lsrStart := start } } true io).2,
        handed rc out s.given⟩ := by
  obtain ⟨obj, need, heq, -⟩ := seqStoreUpdate_fields { s.server with
    lssSpace := { s.server.lssSpace with lsrStart := start } } true io
  rw [heq]
  have hbefore : ∀ g ∈ s.given, space.lsrStart ≤ g.lsrStart ∧ g.lsrEnd ≤ start :=
    fun g hg => ⟨(h.before g hg).1, (h.before g hg).2.trans hstart⟩
  refine ⟨⟨hle, h.sane.2⟩, h.start_le.trans hstart, h.end_eq, ?_, ?_⟩ <;>
    simp only [handed] <;> split
  · exact forall_mem_cons.mpr ⟨⟨h.start_le.trans hout, hend⟩, hbefore⟩
  · exact hbefore
  · refine pairwise_cons.mpr ⟨fun g hg => ?_, h.apart⟩
    exact Set.Ico_disjoint_Ico.mpr (min_le_iff.mpr (.inr
      (le_max_iff.mpr (.inl ((h.before g hg).2.trans hout)))))
  · exact h.apart

/-- The step lemma: an allocation returns, and leaves a sane space exactly where its range ends
in the space that is left. -/
theorem step (h : CtlInv space s) (op : CtlOp) : ∃ s', ctlStep s op = some s' ∧
    (CtlFits s op → CtlInv space s') ∧ (CtlGood space s' → CtlFits s op) := by
  cases op with
  | super out io =>
    simp only [ctlStep, seqServerAllocSuper, if_pos (show luSeqRangeIsSane _ = true from
      decide_eq_true h.sane.1)]
    split
    · exact ⟨_, rfl, fun _ => h, fun _ => trivial⟩
    · obtain ⟨m, hm1, hm2, halloc⟩ := rangeAlloc_mid out s.server.lssWidth h.sane
      rw [halloc]
      refine ⟨_, rfl, fun _ => ?_, fun _ => trivial⟩
      exact h.advance { out with lsrStart := s.server.lssSpace.lsrStart, lsrEnd := m } le_rfl le_rfl
        hm1 hm2 _ io
  | spec spec io =>
    simp only [ctlStep, seqServerAllocSpec]
    refine ⟨_, rfl, ?_⟩
    split
    · next hrefused =>
      exact ⟨fun _ => h, fun _ hlt => absurd hrefused (not_le.mpr hlt)⟩
    · next hlt =>
      split
      · next hflags =>
        exact ⟨fun _ => h, fun _ _ hor => (hor.elim hflags.1 hflags.2).elim⟩
      · next hflags =>
        split
        · next hstart =>
          constructor
          · intro hfits
            have hend := hfits (not_le.mp hlt) (by tauto) hstart
            exact h.advance spec hstart le_rfl (hstart.trans (not_le.mp hlt).le) hend _ io
          · rintro ⟨hsane, -, -⟩ - - -
            obtain ⟨obj, need, heq, -⟩ := seqStoreUpdate_fields { s.server with
              lssSpace := { s.server.lssSpace with lsrStart := spec.lsrEnd } } true io
            rw [heq] at hsane
            exact of_decide_eq_true hsane
        · next hstart => exact ⟨fun _ => h, fun _ _ _ hle => absurd hle hstart⟩

end CtlInv

/-- In every run of allocations whose special ranges end in the space that is left, the space
stays sane and what is allocated lies in the controller's space without a common sequence. From
there any allocation returns, and keeps all that exactly where its range ends in the space. -/
theorem seqController_good {s0 : LuServerSeq} (hsane : IsSane64 s0.lssSpace) {s : SeqController}
    (h : Reach ctlStep CtlFits ⟨s0, []⟩ s) : CtlGood s0.lssSpace s ∧
      ∀ op, ∃ s', ctlStep s op = some s' ∧ (CtlGood s0.lssSpace s' ↔ CtlFits s op) := by
  have hinv : CtlInv s0.lssSpace s := by
    refine h.invariant (CtlInv s0.lssSpace)
      ⟨hsane, le_rfl, rfl, forall_mem_nil _, .nil⟩ fun s op s' hs hfits hstep => ?_
    obtain ⟨t, ht, hkeep, -⟩ := hs.step op
    cases ht.symm.trans hstep
    exact hkeep hfits
  refine ⟨hinv.good, fun op => ?_⟩
  obtain ⟨s', hs', hkeep, hfits⟩ := hinv.step op
  exact ⟨s', hs', hfits, fun h => (hkeep h).good⟩

/-- A controller of the sequences from 16 to 32 allocates the range from 20 to 24. -/
theorem seqController_good_spec : ∃ s', ctlStep ⟨seqFresh.server, []⟩
    (.spec ⟨20, 24, 0, 0⟩ (.written .added)) = some s' ∧ CtlGood ⟨16, 32, 0, 0⟩ s' := by
  have hsane : IsSane64 seqFresh.server.lssSpace := ⟨by decide, by decide⟩
  obtain ⟨s', hs', hiff⟩ := (seqController_good hsane .start).2
    (.spec ⟨20, 24, 0, 0⟩ (.written .added))
  refine ⟨s', hs', hiff.mpr ?_⟩
  intro _ _ _
  decide

/-- The special range from 20 to 64 is allocated of the sequences from 16 to 32, and the assertion
of the next allocation fails. -/
theorem seqController_spec_past : ∃ s, ctlStep ⟨seqFresh.server, []⟩
      (.spec ⟨20, 64, 0, 0⟩ (.written .added)) = some s ∧ s.given = [⟨20, 64, 0, 0⟩] ∧
    s.server.lssSpace = ⟨64, 32, 0, 0⟩ ∧
      ctlStep s (.super lustreSeqZeroRange (.written .added)) = none :=
  ⟨_, rfl, rfl, rfl, rfl⟩

end Lustre
