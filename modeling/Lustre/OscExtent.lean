import Lustre.Run
import Lustre.SpanRow
import Mathlib.Algebra.Order.Ring.Int
import Mathlib.Tactic.NormNum.Basic

/-!
# Extents of the client write cache

Dirty pages of an object wait in extents, each covering a range of chunks of the server and
carrying the grant for them: the extent tax and a chunk size for each chunk. `osc_extent_find` and
`osc_extent_expand` grow an extent by a chunk at either end or make a new one,
`osc_extent_release` and `osc_extent_find` merge neighbours, `osc_extent_truncate` cuts an extent
off and `osc_extent_finish` removes it after its pages were written.

This file has these functions as they work on one object under one DLM lock. An assertion that
fails is `none`. The red-black tree is the list of its extents in order. Page indices and grants
are natural numbers, far below the `2 ^ 64` and `2 ^ 32` that they may not reach.
-/

namespace Lustre

open List

/-! ## Chunks -/

/-- What does not change while an object is cached. -/
structure OscConf where
  pageShift : ℕ
  clChunkbits : ℕ
  clGrantExtentTax : ℕ
  /-- first page of the lock, `cld_start` -/
  cldStart : ℕ
  /-- last page of the lock, `cld_end` -/
  cldEnd : ℕ
  /-- the largest value of `cl_max_pages_per_rpc` -/
  maxBrwPages : ℕ
  /-- a chunk is at least a page -/
  shift_le : pageShift ≤ clChunkbits

namespace OscConf

variable (P : OscConf)

/-- Bits of the number of pages of a chunk. -/
def ppcBits : ℕ := P.clChunkbits - P.pageShift

/-- Pages of a chunk. -/
def ppc : ℕ := 1 <<< P.ppcBits

/-- Bytes of a chunk. -/
def chunksize : ℕ := 1 <<< P.clChunkbits

def pageSize : ℕ := 1 <<< P.pageShift

/-- The chunk of a page. -/
def chunkOf (index : ℕ) : ℕ := index >>> P.ppcBits

/-- `index & chunk_mask` -/
def chunkMask (index : ℕ) : ℕ := index >>> P.ppcBits <<< P.ppcBits

/-- The grant for a new extent of one chunk. -/
def need : ℕ := P.chunksize + P.clGrantExtentTax

/-- The first page of a chunk that the lock covers. -/
def chunkFirst (k : ℕ) : ℕ := max (k * P.ppc) P.cldStart

/-- The last page of a chunk that the lock covers. -/
def chunkLast (k : ℕ) : ℕ := min ((k + 1) * P.ppc - 1) P.cldEnd

variable {P} {i j k : ℕ}

theorem ppc_eq : P.ppc = 2 ^ P.ppcBits := by rw [ppc, Nat.one_shiftLeft]

theorem ppc_pos : 0 < P.ppc := by
  rw [ppc_eq]
  exact Nat.two_pow_pos _

theorem chunkOf_eq : P.chunkOf i = i / P.ppc := by rw [chunkOf, Nat.shiftRight_eq_div_pow, ppc_eq]

theorem chunkMask_eq : P.chunkMask i = P.chunkOf i * P.ppc := by
  rw [chunkMask, Nat.shiftLeft_eq, ppc_eq, chunkOf]

theorem chunksize_eq : P.chunksize = P.ppc * P.pageSize := by
  rw [chunksize, pageSize, ppc_eq, Nat.one_shiftLeft, Nat.one_shiftLeft, ← Nat.pow_add, ppcBits,
    Nat.sub_add_cancel P.shift_le]

theorem pageSize_pos : 0 < P.pageSize := by
  rw [pageSize, Nat.one_shiftLeft]
  exact Nat.two_pow_pos _

theorem chunksize_pos : 0 < P.chunksize := by
  rw [chunksize_eq]
  exact Nat.mul_pos ppc_pos pageSize_pos

theorem pageSize_le : P.pageSize ≤ P.chunksize := by
  rw [chunksize_eq]
  exact Nat.le_mul_of_pos_left _ ppc_pos

theorem chunkOf_mono (h : i ≤ j) : P.chunkOf i ≤ P.chunkOf j := by
  rw [chunkOf_eq, chunkOf_eq]
  exact Nat.div_le_div_right h

theorem lt_of_chunkOf_lt (h : P.chunkOf i < P.chunkOf j) : i < j := by
  by_contra hle
  exact absurd (chunkOf_mono (not_lt.mp hle)) (not_le.mpr h)

theorem chunkOf_eq_iff : P.chunkOf i = k ↔ k * P.ppc ≤ i ∧ i < (k + 1) * P.ppc := by
  rw [chunkOf_eq]
  constructor
  · intro h
    subst h
    refine ⟨Nat.div_mul_le_self i P.ppc, ?_⟩
    rw [mul_comm]
    exact Nat.lt_mul_div_succ i ppc_pos
  · intro h
    exact Nat.div_eq_of_lt_le h.1 h.2

theorem chunkFirst_mono (h : j ≤ k) : P.chunkFirst j ≤ P.chunkFirst k :=
  max_le_max (Nat.mul_le_mul_right _ h) le_rfl

theorem chunkLast_mono (h : j ≤ k) : P.chunkLast j ≤ P.chunkLast k :=
  min_le_min (Nat.sub_le_sub_right (Nat.mul_le_mul_right _ (Nat.succ_le_succ h)) 1) le_rfl

theorem chunkOf_chunkFirst (h : P.cldStart ≤ i) :
    P.chunkOf (P.chunkFirst (P.chunkOf i)) = P.chunkOf i := by
  have hi := chunkOf_eq_iff.mp (rfl : P.chunkOf i = P.chunkOf i)
  refine chunkOf_eq_iff.mpr ⟨le_max_left _ _, ?_⟩
  refine max_lt (hi.1.trans_lt hi.2) (h.trans_lt hi.2)

theorem chunkOf_chunkLast (h : i ≤ P.cldEnd) :
    P.chunkOf (P.chunkLast (P.chunkOf i)) = P.chunkOf i := by
  have hi := chunkOf_eq_iff.mp (rfl : P.chunkOf i = P.chunkOf i)
  refine chunkOf_eq_iff.mpr ⟨le_min ?_ (hi.1.trans h), (min_le_left _ _).trans_lt ?_⟩
  · omega
  · omega

theorem chunkOf_mul : P.chunkOf (k * P.ppc) = k :=
  chunkOf_eq_iff.mpr ⟨le_rfl, Nat.mul_lt_mul_of_pos_right (Nat.lt_succ_self k) ppc_pos⟩

/-- The last page of a chunk that begins before the lock ends is in it. -/
theorem chunkOf_chunkLast_of_le (h : k * P.ppc ≤ P.cldEnd) : P.chunkOf (P.chunkLast k) = k := by
  have hlast := chunkOf_chunkLast h
  rwa [chunkOf_mul] at hlast

theorem le_chunkLast (h : i ≤ P.cldEnd) : i ≤ P.chunkLast (P.chunkOf i) := by
  have hi := chunkOf_eq_iff.mp (rfl : P.chunkOf i = P.chunkOf i)
  exact le_min (by omega) h

theorem chunkFirst_le (h : P.cldStart ≤ i) : P.chunkFirst (P.chunkOf i) ≤ i :=
  max_le (chunkOf_eq_iff.mp rfl).1 h

theorem chunkLast_lt_chunkFirst (h : j < k) : P.chunkLast j < P.chunkFirst k := by
  have hle : (j + 1) * P.ppc ≤ k * P.ppc := Nat.mul_le_mul_right _ h
  have hpos : 0 < (j + 1) * P.ppc := Nat.mul_pos (Nat.succ_pos j) ppc_pos
  have hlast : P.chunkLast j ≤ (j + 1) * P.ppc - 1 := min_le_left _ _
  have hfirst : k * P.ppc ≤ P.chunkFirst k := le_max_left _ _
  omega

end OscConf

/-! ## Extents -/

inductive OscExtentState where
  /-- just made or destroyed -/
  | inv
  /-- somebody writes into it -/
  | active
  /-- ready to be written out -/
  | cache
  /-- its pages are being locked -/
  | locking
  /-- its pages are locked -/
  | lockDone
  | rpc
  /-- being truncated -/
  | trunc
  deriving DecidableEq

/-- `oe_state > OES_CACHE` -/
def OscExtentState.busy : OscExtentState → Bool
  | .inv => false
  | .active => false
  | .cache => false
  | .locking => true
  | .lockDone => true
  | .rpc => true
  | .trunc => true

/-- A page of an extent. -/
structure OscAsyncPage where
  /-- `osc_index` -/
  index : ℕ
  /-- bytes to write, `oap_count` -/
  oapCount : ℕ
  deriving DecidableEq

structure OscExtent where
  oeState : OscExtentState
  oeStart : ℕ
  oeEnd : ℕ
  /-- the last page it may grow to -/
  oeMaxEnd : ℕ
  /-- grant it carries -/
  oeGrants : ℕ
  /-- those that write into it -/
  oeUsers : ℕ
  /-- it is to be written soon -/
  oeUrgent : Bool
  /-- somebody waits for it to be written -/
  oeFsyncWait : Bool
  /-- it is truncated when its last user leaves -/
  oeTruncPending : Bool
  /-- `oe_pages`; `oe_nr_pages` is the length -/
  oePages : List OscAsyncPage
  deriving DecidableEq

variable (P : OscConf) (x : OscExtent)

namespace OscExtent

/-- The chunk it starts in. -/
def lo : ℕ := P.chunkOf x.oeStart

/-- The chunk it ends in. -/
def hi : ℕ := P.chunkOf x.oeEnd

def overlapped (x y : OscExtent) : Bool := !(x.oeEnd < y.oeStart || y.oeEnd < x.oeStart)

end OscExtent

/-- The extent that `osc_extent_find` starts with: the chunk of the page, inside of the lock and of
the RPC slot. -/
def oscExtentInit (index maxPages : ℕ) : OscExtent :=
  let maxEnd := min (index - index % maxPages + maxPages - 1) P.cldEnd
  { oeState := .inv, oeMaxEnd := maxEnd
    oeStart := max (P.chunkMask index) P.cldStart
    oeEnd := min (P.chunkMask (index + P.ppc) - 1) maxEnd
    oeGrants := 0, oeUsers := 0, oeUrgent := false, oeFsyncWait := false
    oeTruncPending := false, oePages := [] }

/-- `osc_extent_hold`: one user more. -/
def oscExtentHold : Option OscExtent :=
  lassert (x.oeState = .active ∨ x.oeState = .cache)
    (some { x with oeState := .active, oeUsers := x.oeUsers + 1 })

/-- When `osc_extent_merge` merges. -/
def CanMerge (maxExtentPages : ℕ) (cur victim : OscExtent) : Prop :=
  victim.oeState = .cache ∧ victim.oeFsyncWait = false ∧ cur.oeMaxEnd = victim.oeMaxEnd ∧
    (P.chunkOf cur.oeStart = P.chunkOf victim.oeEnd + 1 ∨
      P.chunkOf cur.oeEnd + 1 = P.chunkOf victim.oeStart) ∧
    cur.oeEnd - cur.oeStart + 1 + victim.oeEnd - victim.oeStart + 1 ≤ maxExtentPages

instance {P : OscConf} {maxExtentPages : ℕ} {cur victim : OscExtent} :
    Decidable (CanMerge P maxExtentPages cur victim) := by
  unfold CanMerge
  infer_instance

/-- What `osc_extent_merge` makes of `cur`: the tax is counted once for the whole. -/
def OscExtent.absorb (cur victim : OscExtent) : OscExtent :=
  { cur with
    oeStart := min cur.oeStart victim.oeStart
    oeEnd := max cur.oeEnd victim.oeEnd
    oeGrants := cur.oeGrants + (victim.oeGrants - P.clGrantExtentTax)
    oeUrgent := cur.oeUrgent || victim.oeUrgent
    oePages := victim.oePages ++ cur.oePages }

/-- Does a page stay in a truncated file? -/
def keepPage (truncIndex : ℕ) (tail : Bool) (p : OscAsyncPage) : Bool :=
  p.index < truncIndex || (p.index == truncIndex && tail)

/-- The part of `osc_extent_truncate` under the object lock, for an extent that keeps the pages
`kept`, some of them: the last chunk that stays, and the chunks whose grant is freed. `tail` is
`partial`. -/
def truncTo (kept : List OscAsyncPage) (truncChunk chunks : ℕ) : Option (OscExtent × ℕ) :=
  let grants := chunks <<< P.clChunkbits
  let oeEnd := min ((truncChunk + 1) <<< P.ppcBits - 1) x.oeMaxEnd
  lassert (x.oeStart ≤ oeEnd) <| lassert (0 < x.oeGrants - grants) <|
    some ({ x with oePages := kept, oeGrants := x.oeGrants - grants, oeEnd := oeEnd }, grants)

/-- `osc_extent_truncate`: the extent, and the grant that is free. -/
def oscExtentTruncate (truncIndex : ℕ) (tail : Bool) : Option (OscExtent × ℕ) :=
  let kept := x.oePages.filter (keepPage truncIndex tail)
  let truncChunk := P.chunkOf truncIndex
  let inChunk := kept.filter fun p => P.chunkOf p.index == truncChunk
  lassert (x.oeState = .trunc) <|
  lassert (truncIndex + tail.toNat ≤ x.oeStart → kept = []) <|
    if kept = [] then lassert (inChunk = []) (some ({ x with oePages := [], oeGrants := 0 }, x.oeGrants))
    else if inChunk = [] then
      lassert (0 < truncChunk)
        (truncTo P x kept (truncChunk - 1) (P.chunkOf x.oeEnd - truncChunk + 1))
    else truncTo P x kept truncChunk (P.chunkOf x.oeEnd - truncChunk)

/-- One page of the walk of `osc_extent_finish`, which remembers the offset and the count of the
last page. -/
def takePage (last : ℕ × ℤ) (p : OscAsyncPage) : ℕ × ℤ :=
  if last.1 ≤ p.index <<< P.pageShift then (p.index <<< P.pageShift, p.oapCount) else last

/-- Offset and count of the last page. -/
def lastPage (pages : List OscAsyncPage) : ℕ × ℤ := pages.foldl (takePage P) (0, -1)

/-- The grant of an extent that the server does not use: all of it when nothing was sent, else what
is left of the last page when the blocks of the server are smaller than a page. -/
def lostGrant (sent : Bool) (blockBits : ℕ) : ℤ :=
  let last := lastPage P x.oePages
  let blocksize : ℤ := 2 ^ blockBits
  if sent = false then x.oeGrants
  else if blocksize < P.pageSize ∧ last.2 ≠ P.pageSize then
    let offset : ℤ := (last.1 : ℤ) % P.pageSize
    let count := last.2 + offset % blocksize
    let tail := (offset + last.2) % blocksize
    P.pageSize - (if tail = 0 then count else count + (blocksize - tail))
  else 0

/-! ## Well-formed extents -/

/-- The grant for the chunks from `lo` to `hi`. -/
def OscConf.fullGrant (lo hi : ℕ) : ℕ :=
  P.clGrantExtentTax + P.chunksize * (hi - lo + 1)

/-- What holds of every extent in the tree. -/
structure OscExtent.Wf : Prop where
  start_eq : x.oeStart = P.chunkFirst (x.lo P)
  end_eq : x.oeEnd = P.chunkLast (x.hi P)
  max_eq : x.oeMaxEnd = P.chunkLast (P.chunkOf x.oeMaxEnd)
  start_le_end : x.oeStart ≤ x.oeEnd
  hi_le_max : x.hi P ≤ P.chunkOf x.oeMaxEnd
  slot : x.oeMaxEnd < x.lo P * P.ppc + P.maxBrwPages
  inside : ∀ p ∈ x.oePages, x.oeStart ≤ p.index ∧ p.index ≤ x.oeEnd
  counts : ∀ p ∈ x.oePages, 0 < p.oapCount ∧ p.oapCount ≤ P.pageSize
  alive : x.oeState ≠ .inv
  sent : x.oeState = .rpc → x.oePages ≠ []
  /-- it carries the grant for its chunks, or has been emptied by a truncate -/
  grants : x.oeGrants = P.fullGrant (x.lo P) (x.hi P) ∨
    (x.oeState = .trunc ∧ x.oePages = [] ∧ x.oeGrants = 0)

open OscConf

section

variable {P : OscConf} {x y : OscExtent} {index maxPages : ℕ}

theorem OscConf.fullGrant_pos {lo hi : ℕ} : 0 < P.fullGrant lo hi :=
  Nat.add_pos_right _ (Nat.mul_pos chunksize_pos (Nat.succ_pos _))

namespace OscExtent.Wf

section

variable (h : x.Wf P)
include h

theorem lo_le_hi : x.lo P ≤ x.hi P := chunkOf_mono h.start_le_end

/-- Only a truncate takes all of the grant. -/
theorem grants_eq (hstate : x.oeState ≠ .trunc) : x.oeGrants = P.fullGrant (x.lo P) (x.hi P) :=
  h.grants.resolve_right fun he => hstate he.1

theorem end_le : x.oeEnd ≤ x.oeMaxEnd := by
  rw [h.end_eq, h.max_eq]
  exact chunkLast_mono h.hi_le_max

theorem le_cldEnd : x.oeMaxEnd ≤ P.cldEnd := by
  rw [h.max_eq]
  exact min_le_right _ _

/-- The end of a chunk, cut off where the extent may not grow any more. -/
theorem min_max_eq {k : ℕ} (hk : k ≤ P.chunkOf x.oeMaxEnd) :
    min ((k + 1) <<< P.ppcBits - 1) x.oeMaxEnd = P.chunkLast k := by
  have hle : (k + 1) * P.ppc ≤ (P.chunkOf x.oeMaxEnd + 1) * P.ppc :=
    Nat.mul_le_mul_right _ (Nat.succ_le_succ hk)
  rw [Nat.shiftLeft_eq, ← ppc_eq, h.max_eq, chunkLast, chunkLast,
    ← min_assoc, min_eq_left (Nat.sub_le_sub_right hle 1)]

theorem le_start : P.cldStart ≤ x.oeStart := by
  rw [h.start_eq]
  exact le_max_right _ _

end

/-- Extents of different chunks have different pages. -/
theorem end_lt_start (hx : x.Wf P) (hy : y.Wf P) (h : x.hi P < y.lo P) : x.oeEnd < y.oeStart := by
  rw [hx.end_eq, hy.start_eq]
  exact chunkLast_lt_chunkFirst h

end OscExtent.Wf

/-! ### Growing and merging -/

theorem OscConf.fullGrant_add {lo hi : ℕ} (h : lo ≤ hi) (n : ℕ) :
    P.fullGrant lo (hi + n) = P.fullGrant lo hi + P.chunksize * n := by
  have heq : hi + n - lo + 1 = hi - lo + 1 + n := by omega
  rw [fullGrant, fullGrant, heq, mul_add _ _ n, add_assoc]

theorem OscConf.fullGrant_succ {lo hi : ℕ} (h : lo ≤ hi) :
    P.fullGrant lo (hi + 1) = P.fullGrant lo hi + P.chunksize := by
  rw [fullGrant_add h, mul_one]

/-- The grant of two neighbours is the grant of the whole and one more tax. -/
theorem OscConf.fullGrant_join {lo mid hi : ℕ} (h1 : lo ≤ mid) (h2 : mid < hi) :
    P.fullGrant lo mid + (P.fullGrant (mid + 1) hi - P.clGrantExtentTax) = P.fullGrant lo hi := by
  have heq : hi - lo + 1 = mid - lo + 1 + (hi - (mid + 1) + 1) := by omega
  rw [fullGrant, fullGrant, fullGrant, heq, mul_add P.chunksize (mid - lo + 1),
    Nat.add_sub_cancel_left, add_assoc]

namespace OscExtent.Wf

/-- An extent grows by the chunk before it. -/
theorem growStart {k start : ℕ} (h : x.Wf P) (hstate : x.oeState ≠ .trunc) (hk : k + 1 = x.lo P)
    (hstart : start = P.chunkFirst k) (hchunk : P.chunkOf start = k)
    (hslot : x.oeMaxEnd < k * P.ppc + P.maxBrwPages) :
    Wf P { x with oeStart := start, oeGrants := x.oeGrants + P.chunksize } := by
  have hle : start ≤ x.oeStart := by
    rw [hstart, h.start_eq]
    exact chunkFirst_mono (by omega)
  refine { h with start_eq := ?_, start_le_end := ?_, slot := ?_, inside := ?_, grants := .inl ?_ }
  · exact hstart.trans (congrArg P.chunkFirst hchunk.symm)
  · exact hle.trans h.start_le_end
  · show x.oeMaxEnd < P.chunkOf start * P.ppc + P.maxBrwPages
    rw [hchunk]
    exact hslot
  · intro p hp
    exact ⟨hle.trans (h.inside p hp).1, (h.inside p hp).2⟩
  · show x.oeGrants + P.chunksize = P.fullGrant (P.chunkOf start) (x.hi P)
    rw [hchunk, h.grants_eq hstate, ← fullGrant_succ h.lo_le_hi, fullGrant, fullGrant, ← hk,
      Nat.add_sub_add_right]

/-- An extent grows by the chunk after it. -/
theorem growEnd {stop : ℕ} (h : x.Wf P) (hstate : x.oeState ≠ .trunc)
    (hstop : stop = P.chunkLast (x.hi P + 1)) (hchunk : P.chunkOf stop = x.hi P + 1)
    (hmax : x.hi P + 1 ≤ P.chunkOf x.oeMaxEnd) :
    Wf P { x with oeEnd := stop, oeGrants := x.oeGrants + P.chunksize } := by
  have hle : x.oeEnd ≤ stop := by
    rw [hstop, h.end_eq]
    exact chunkLast_mono (Nat.le_succ _)
  refine { h with end_eq := ?_, start_le_end := ?_, hi_le_max := ?_, inside := ?_, grants := .inl ?_ }
  · exact hstop.trans (congrArg P.chunkLast hchunk.symm)
  · exact h.start_le_end.trans hle
  · exact hchunk.le.trans hmax
  · intro p hp
    exact ⟨(h.inside p hp).1, (h.inside p hp).2.trans hle⟩
  · show x.oeGrants + P.chunksize = P.fullGrant (x.lo P) (P.chunkOf stop)
    rw [hchunk, h.grants_eq hstate, fullGrant_succ h.lo_le_hi]

end OscExtent.Wf

theorem OscExtent.lo_absorb : (x.absorb P y).lo P = min (x.lo P) (y.lo P) := by
  have hmono : Monotone P.chunkOf := fun _ _ => chunkOf_mono
  exact hmono.map_min

theorem OscExtent.hi_absorb : (x.absorb P y).hi P = max (x.hi P) (y.hi P) := by
  have hmono : Monotone P.chunkOf := fun _ _ => chunkOf_mono
  exact hmono.map_max

/-- Two neighbours in the cache become one extent. -/
theorem OscExtent.Wf.absorb (hx : x.Wf P) (hy : y.Wf P) (hxs : x.oeState ≠ .trunc)
    (hys : y.oeState ≠ .trunc) (hmax : x.oeMaxEnd = y.oeMaxEnd)
    (hadj : x.lo P = y.hi P + 1 ∨ x.hi P + 1 = y.lo P) :
    (x.absorb P y).Wf P ∧ (x.absorb P y).oeGrants + P.clGrantExtentTax = x.oeGrants + y.oeGrants := by
  have hlo := lo_absorb (x := x) (y := y) (P := P)
  have hhi := hi_absorb (x := x) (y := y) (P := P)
  have hxlo := hx.lo_le_hi
  have hylo := hy.lo_le_hi
  have hgrants : (x.absorb P y).oeGrants = P.fullGrant ((x.absorb P y).lo P) ((x.absorb P y).hi P) := by
    rw [hlo, hhi]
    show x.oeGrants + (y.oeGrants - P.clGrantExtentTax) = _
    rw [hx.grants_eq hxs, hy.grants_eq hys]
    rcases hadj with hadj | hadj
    · rw [min_eq_right (by omega), max_eq_left (by omega), hadj,
        ← fullGrant_join hylo (by omega : y.hi P < x.hi P)]
      simp only [fullGrant]
      omega
    · rw [min_eq_left (by omega), max_eq_right (by omega), ← hadj,
        ← fullGrant_join hxlo (by omega : x.hi P < y.hi P)]
  refine ⟨?_, ?_⟩
  · constructor
    case start_eq =>
      rw [hlo]
      show min x.oeStart y.oeStart = _
      have hmono : Monotone P.chunkFirst := fun _ _ => chunkFirst_mono
      rw [hmono.map_min, ← hx.start_eq, ← hy.start_eq]
    case end_eq =>
      rw [hhi]
      show max x.oeEnd y.oeEnd = _
      have hmono : Monotone P.chunkLast := fun _ _ => chunkLast_mono
      rw [hmono.map_max, ← hx.end_eq, ← hy.end_eq]
    case max_eq => exact hx.max_eq
    case start_le_end =>
      exact (min_le_left _ _).trans (hx.start_le_end.trans (le_max_left _ _))
    case hi_le_max =>
      rw [hhi]
      refine max_le hx.hi_le_max ?_
      show y.hi P ≤ P.chunkOf x.oeMaxEnd
      rw [hmax]
      exact hy.hi_le_max
    case slot =>
      rw [hlo]
      show x.oeMaxEnd < _
      rcases min_choice (x.lo P) (y.lo P) with heq | heq
      · rw [heq]
        exact hx.slot
      · rw [heq, hmax]
        exact hy.slot
    case inside =>
      intro p hp
      rcases mem_append.mp hp with hpy | hpx
      · have hin := hy.inside p hpy
        exact ⟨(min_le_right _ _).trans hin.1, hin.2.trans (le_max_right _ _)⟩
      · have hin := hx.inside p hpx
        exact ⟨(min_le_left _ _).trans hin.1, hin.2.trans (le_max_left _ _)⟩
    case counts =>
      intro p hp
      rcases mem_append.mp hp with hpy | hpx
      · exact hy.counts p hpy
      · exact hx.counts p hpx
    case alive => exact hx.alive
    case sent =>
      intro hrpc hnil
      exact hx.sent hrpc (append_eq_nil_iff.mp hnil).2
    case grants => exact .inl hgrants
  · show x.oeGrants + (y.oeGrants - P.clGrantExtentTax) + P.clGrantExtentTax = _
    have hle : P.clGrantExtentTax ≤ y.oeGrants := by
      rw [hy.grants_eq hys]
      exact Nat.le_add_right _ _
    omega

/-! ### Cutting an extent off -/

/-- What a truncate makes of an extent. -/
structure Truncated (P : OscConf) (x y : OscExtent) (truncIndex : ℕ) (tail : Bool) (grants : ℕ) :
    Prop where
  wf : y.Wf P
  grants_eq : y.oeGrants + grants = x.oeGrants
  lo_eq : y.lo P = x.lo P
  hi_le : y.hi P ≤ x.hi P
  state : y.oeState = .trunc
  users : y.oeUsers = x.oeUsers
  /-- without pages it has no grant; with pages it has, and it began before the new end -/
  pages : y.oePages = [] ∧ y.oeGrants = 0 ∧ y.oeEnd = x.oeEnd ∨
    y.oePages ≠ [] ∧ 0 < y.oeGrants ∧ x.oeStart < truncIndex + tail.toNat

/-- The pages that stay lie in the chunks up to `truncChunk`. -/
theorem truncTo_spec {kept : List OscAsyncPage} {truncChunk chunks : ℕ} {tail : Bool}
    (h : x.Wf P) (hstate : x.oeState = .trunc) (hgrants : x.oeGrants = P.fullGrant (x.lo P) (x.hi P))
    (hlo : x.lo P ≤ truncChunk) (hhi : truncChunk + chunks = x.hi P) (hkept : kept ≠ [])
    (hpages : ∀ p ∈ kept, p ∈ x.oePages ∧ P.chunkOf p.index ≤ truncChunk)
    (hbegin : x.oeStart < index + tail.toNat) :
    ∃ y grants, truncTo P x kept truncChunk chunks = some (y, grants) ∧
      Truncated P x y index tail grants := by
  have hmax : truncChunk ≤ P.chunkOf x.oeMaxEnd := le_trans (by omega) h.hi_le_max
  have hchunk : P.chunkOf (P.chunkLast truncChunk) = truncChunk := by
    refine chunkOf_chunkLast_of_le ?_
    have hmul : truncChunk * P.ppc ≤ x.hi P * P.ppc := Nat.mul_le_mul_right _ (by omega)
    have hstop : x.hi P * P.ppc ≤ x.oeEnd := (chunkOf_eq_iff.mp rfl).1
    exact hmul.trans (hstop.trans (h.end_le.trans h.le_cldEnd))
  have hfree : chunks <<< P.clChunkbits = P.chunksize * chunks := by
    rw [Nat.shiftLeft_eq, chunksize, Nat.one_shiftLeft, mul_comm]
  have hsplit : x.oeGrants = P.fullGrant (x.lo P) truncChunk + P.chunksize * chunks := by
    rw [hgrants, ← hhi, fullGrant_add hlo]
  have hleft : x.oeGrants - chunks <<< P.clChunkbits = P.fullGrant (x.lo P) truncChunk := by
    rw [hfree, hsplit, Nat.add_sub_cancel]
  have hinside : ∀ p ∈ kept, x.oeStart ≤ p.index ∧ p.index ≤ P.chunkLast truncChunk := by
    intro p hp
    obtain ⟨hmem, hle⟩ := hpages p hp
    have hin := h.inside p hmem
    have hcld : p.index ≤ P.cldEnd := hin.2.trans (h.end_le.trans h.le_cldEnd)
    exact ⟨hin.1, (le_chunkLast hcld).trans (chunkLast_mono hle)⟩
  have hstart : x.oeStart ≤ P.chunkLast truncChunk := by
    obtain ⟨p, hp⟩ := exists_mem_of_ne_nil kept hkept
    exact (hinside p hp).1.trans (hinside p hp).2
  simp only [truncTo]
  rw [h.min_max_eq hmax, hleft, lassert_pos hstart, lassert_pos fullGrant_pos]
  refine ⟨_, _, rfl, ?_⟩
  constructor
  case wf =>
    refine { h with end_eq := ?_, start_le_end := hstart, hi_le_max := hchunk.le.trans hmax
                    inside := hinside, counts := ?_, sent := fun _ => hkept, grants := .inl ?_ }
    · exact congrArg P.chunkLast hchunk.symm
    · intro p hp
      exact h.counts p (hpages p hp).1
    · show P.fullGrant (x.lo P) truncChunk = P.fullGrant (x.lo P) (P.chunkOf (P.chunkLast truncChunk))
      rw [hchunk]
  case grants_eq =>
    rw [hfree, hsplit]
  case lo_eq => rfl
  case hi_le =>
    show P.chunkOf (P.chunkLast truncChunk) ≤ x.hi P
    omega
  case state => exact hstate
  case users => rfl
  case pages => exact .inr ⟨hkept, fullGrant_pos, hbegin⟩

theorem keepPage_le {p : OscAsyncPage} {tail : Bool} (h : keepPage index tail p = true) :
    p.index ≤ index ∧ p.index < index + tail.toNat := by
  simp only [keepPage, Bool.or_eq_true, decide_eq_true_eq, Bool.and_eq_true, beq_iff_eq] at h
  rcases h with hlt | ⟨heq, htail⟩
  · omega
  · rw [htail, heq]
    simp

/-- A truncate that reaches an extent finds no assertion broken. -/
theorem oscExtentTruncate_spec (tail : Bool) (h : x.Wf P) (hstate : x.oeState = .trunc)
    (hgrants : 0 < x.oeGrants) (hindex : index ≤ x.oeEnd) :
    ∃ y grants, oscExtentTruncate P x index tail = some (y, grants) ∧
      Truncated P x y index tail grants := by
  have hfull : x.oeGrants = P.fullGrant (x.lo P) (x.hi P) :=
    h.grants.resolve_right fun he => by omega
  -- a page that stays lies before the new end, and in the extent
  have hmem : ∀ p ∈ x.oePages.filter (keepPage index tail),
      p ∈ x.oePages ∧ P.chunkOf p.index ≤ P.chunkOf index ∧ x.oeStart < index + tail.toNat := by
    intro p hp
    obtain ⟨hpx, hkeep⟩ := mem_filter.mp hp
    have hle := keepPage_le hkeep
    exact ⟨hpx, chunkOf_mono hle.1, (h.inside p hpx).1.trans_lt hle.2⟩
  have hbefore : index + tail.toNat ≤ x.oeStart → x.oePages.filter (keepPage index tail) = [] := by
    intro hle
    refine eq_nil_iff_forall_not_mem.mpr fun p hp => ?_
    exact absurd (hmem p hp).2.2 (not_lt.mpr hle)
  have hhi : P.chunkOf index ≤ x.hi P := chunkOf_mono hindex
  simp only [oscExtentTruncate]
  rw [lassert_pos hstate, lassert_pos hbefore]
  split
  case isTrue hnil =>
    rw [lassert_pos (by rw [hnil]; rfl)]
    refine ⟨_, _, rfl, ?_⟩
    constructor
    case wf =>
      refine { h with inside := forall_mem_nil _, counts := forall_mem_nil _,
                      sent := ?_, grants := .inr ⟨hstate, rfl, rfl⟩ }
      intro hrpc
      cases hstate.symm.trans hrpc
    case grants_eq => exact zero_add _
    case lo_eq => rfl
    case hi_le => exact le_rfl
    case state => exact hstate
    case users => rfl
    case pages => exact .inl ⟨rfl, rfl, rfl⟩
  case isFalse hkept =>
    obtain ⟨q, hq⟩ := exists_mem_of_ne_nil _ hkept
    have hlo : x.lo P ≤ P.chunkOf q.index := chunkOf_mono (h.inside q (hmem q hq).1).1
    split
    case isTrue hnone =>
      -- no page stays in the chunk of the new end: that chunk goes as well
      have hlt : ∀ p ∈ x.oePages.filter (keepPage index tail), P.chunkOf p.index < P.chunkOf index := by
        intro p hp
        refine lt_of_le_of_ne (hmem p hp).2.1 fun heq => ?_
        have hin : p ∈ (x.oePages.filter (keepPage index tail)).filter
            fun p => P.chunkOf p.index == P.chunkOf index := mem_filter.mpr ⟨hp, by simp [heq]⟩
        rw [hnone] at hin
        exact absurd hin not_mem_nil
      have hq' := hlt q hq
      rw [lassert_pos (Nat.zero_lt_of_lt hq')]
      refine truncTo_spec h hstate hfull (by omega) ?_ hkept ?_ (hmem q hq).2.2
      · show P.chunkOf index - 1 + (x.hi P - P.chunkOf index + 1) = x.hi P
        omega
      · intro p hp
        have := hlt p hp
        exact ⟨(hmem p hp).1, by omega⟩
    case isFalse =>
      refine truncTo_spec h hstate hfull (hlo.trans (hmem q hq).2.1) ?_ hkept ?_ (hmem q hq).2.2
      · show P.chunkOf index + (x.hi P - P.chunkOf index) = x.hi P
        omega
      · intro p hp
        exact ⟨(hmem p hp).1, (hmem p hp).2.1⟩

/-! ### Grant that is given back -/

/-- The offset of a page, and a count of at most a page. -/
def IsPage (P : OscConf) (last : ℕ × ℤ) : Prop :=
  last.1 % P.pageSize = 0 ∧ 1 ≤ last.2 ∧ last.2 ≤ P.pageSize

theorem isPage_of (p : OscAsyncPage) (h : 0 < p.oapCount ∧ p.oapCount ≤ P.pageSize) :
    IsPage P (p.index <<< P.pageShift, p.oapCount) := by
  refine ⟨?_, ?_, ?_⟩
  · rw [Nat.shiftLeft_eq, pageSize, Nat.one_shiftLeft, Nat.mul_mod_left]
  · show (1 : ℤ) ≤ p.oapCount
    exact_mod_cast h.1
  · show (p.oapCount : ℤ) ≤ P.pageSize
    exact_mod_cast h.2

theorem foldl_takePage (pages : List OscAsyncPage)
    (h : ∀ p ∈ pages, 0 < p.oapCount ∧ p.oapCount ≤ P.pageSize) :
    ∀ {last : ℕ × ℤ}, IsPage P last → IsPage P (pages.foldl (takePage P) last) := by
  induction pages with
  | nil => exact fun hlast => hlast
  | cons p pages ih =>
    intro last hlast
    refine ih (forall_mem_cons.mp h).2 ?_
    rw [takePage]
    split
    · exact isPage_of p (h p mem_cons_self)
    · exact hlast

theorem isPage_lastPage (pages : List OscAsyncPage) (hne : pages ≠ [])
    (h : ∀ p ∈ pages, 0 < p.oapCount ∧ p.oapCount ≤ P.pageSize) : IsPage P (lastPage P pages) := by
  cases pages with
  | nil => exact absurd rfl hne
  | cons p pages =>
    refine foldl_takePage pages (forall_mem_cons.mp h).2 ?_
    rw [takePage, if_pos (Nat.zero_le _)]
    exact isPage_of p (h p mem_cons_self)

/-- Rounding up to whole blocks stays inside of a page made of blocks. -/
theorem round_up_le {c b m : ℤ} (hb : 0 < b) (hc : c < b * m) : c + (b - c % b) ≤ b * m := by
  have hdiv : c / b < m := Int.ediv_lt_of_lt_mul hb (by rwa [mul_comm])
  have hmod := Int.emod_add_mul_ediv c b
  have hmul : b * (c / b + 1) ≤ b * m := Int.mul_le_mul_of_nonneg_left hdiv hb.le
  rw [mul_add, mul_one] at hmul
  omega

/-- An extent gives back no more than it carries. -/
theorem OscExtent.Wf.lostGrant_le (h : x.Wf P) (sent : Bool) (blockBits : ℕ)
    (hstate : x.oeState ≠ .trunc) (hsent : sent = true → x.oeState = .rpc) :
    0 ≤ lostGrant P x sent blockBits ∧ lostGrant P x sent blockBits ≤ x.oeGrants := by
  have hpage : (P.pageSize : ℤ) ≤ x.oeGrants := by
    have hle : P.pageSize ≤ P.fullGrant (x.lo P) (x.hi P) := by
      rw [fullGrant, mul_add, mul_one]
      have := pageSize_le (P := P)
      omega
    rw [h.grants_eq hstate]
    exact_mod_cast hle
  cases sent with
  | false =>
    simp only [lostGrant, if_true]
    omega
  | true =>
    obtain ⟨hoff, hpos, hle⟩ := isPage_lastPage x.oePages (h.sent (hsent rfl)) h.counts
    simp only [lostGrant, Bool.true_eq_false, if_false]
    split
    · next hblock =>
      have hoffset : ((lastPage P x.oePages).1 : ℤ) % P.pageSize = 0 := by exact_mod_cast hoff
      have hdvd : ∃ m : ℤ, (P.pageSize : ℤ) = 2 ^ blockBits * m := by
        have hlt : blockBits < P.pageShift := by
          have hpow : 2 ^ blockBits < P.pageSize := by exact_mod_cast hblock.1
          rw [pageSize, Nat.one_shiftLeft] at hpow
          exact (Nat.pow_lt_pow_iff_right (by decide)).mp hpow
        refine ⟨2 ^ (P.pageShift - blockBits), ?_⟩
        rw [← pow_add, Nat.add_sub_cancel' hlt.le, pageSize, Nat.one_shiftLeft]
        exact_mod_cast rfl
      obtain ⟨m, hm⟩ := hdvd
      have hlt : (lastPage P x.oePages).2 < 2 ^ blockBits * m := by
        rw [← hm]
        exact lt_of_le_of_ne hle hblock.2
      have hb : (0 : ℤ) < 2 ^ blockBits := pow_pos (by decide) blockBits
      have hround := round_up_le hb hlt
      rw [hoffset, Int.zero_emod, add_zero, zero_add]
      split
      · omega
      · omega
    · omega

end

end Lustre
