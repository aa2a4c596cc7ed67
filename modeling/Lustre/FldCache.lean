import Lustre.Run
import Mathlib.Algebra.GroupWithZero.Nat
import Mathlib.Data.List.Perm.Basic

/-!
# The FLD location cache (`fld_cache.c`)

The cache maps FID sequences to the index of the server that holds them. It is a
list of entries, one half-open range each, kept sorted by start, and a second
list that orders the same entries by age. Inserting a range merges it with,
trims, overwrites or splits the entry it meets first (`fldCacheOverlapHandle`),
and a fix-up pass with restarts (`fldFixNewList`) then repairs the list against
the entries behind it.

Entries are linked into two lists, so each carries an identity `fceId`, which
stands for its address. A failed `LASSERT` is `none`.
-/

namespace Lustre

/-! ## Ranges and entries -/

def luSeqRangeMdt : ℕ := 0

def luSeqRangeOst : ℕ := 1

/-- `struct lu_seq_range`: the sequences `[lsrStart, lsrEnd)` live on server
`lsrIndex` of type `lsrFlags`. -/
structure LuSeqRange where
  lsrStart : ℕ
  /-- one past the last sequence -/
  lsrEnd : ℕ
  lsrIndex : ℕ
  lsrFlags : ℕ
  deriving DecidableEq

def luSeqRangeIsSane (r : LuSeqRange) : Bool := r.lsrStart ≤ r.lsrEnd

def luSeqRangeWithin (r : LuSeqRange) (seq : ℕ) : Bool := r.lsrStart ≤ seq && seq < r.lsrEnd

structure FldCacheEntry where
  /-- identity of the entry -/
  fceId : ℕ
  /-- the range it caches -/
  fceRange : LuSeqRange
  deriving DecidableEq

/-- `struct fld_cache`, without its name and lock. `fciEntries` is the list at
`fci_entries_head`, `fciLru` the list at `fci_lru`, newest first. `nextId` hands
out identities to new entries. -/
structure FldCache where
  /-- the entries, in list order -/
  fciEntries : List FldCacheEntry
  /-- the entries by age, newest first -/
  fciLru : List ℕ
  /-- number of entries -/
  fciCacheCount : ℤ
  /-- preferred number of entries -/
  fciCacheSize : ℤ
  /-- how far below it to shrink -/
  fciThreshold : ℤ
  /-- entries are never evicted -/
  fciNoShrink : Bool
  /-- `fst_count`: lookups -/
  fstCount : ℕ
  /-- `fst_cache`: lookups that hit -/
  fstCache : ℕ
  /-- next unused identity -/
  nextId : ℕ
  deriving DecidableEq

def fldCacheInit (cacheSize cacheThreshold : ℤ) (noShrink : Bool) : FldCache :=
  ⟨[], [], 0, cacheSize, cacheThreshold, noShrink, 0, 0, 0⟩

variable (cache : FldCache)

/-- `fld_cache_entry_delete`: unlink an entry from both lists. -/
def fldCacheEntryDelete (id : ℕ) : FldCache :=
  { cache with
    fciEntries := cache.fciEntries.filter fun f => f.fceId ≠ id
    fciLru := cache.fciLru.filter fun i => i ≠ id
    fciCacheCount := cache.fciCacheCount - 1 }

/-! ## The fix-up pass -/

/-- What one walk over the list came to. -/
structure FixWalk where
  /-- the walk changed an overlap and starts over -/
  restart : Bool
  /-- the list it leaves -/
  entries : List FldCacheEntry
  /-- the entries it deleted -/
  deleted : List ℕ
  deriving DecidableEq

/-- The walk goes on past `f`, which stays in the list. -/
def FixWalk.keep (f : FldCacheEntry) (w : FixWalk) : FixWalk :=
  { w with entries := f :: w.entries }

/-- The walk goes on, `f` having been deleted. -/
def FixWalk.drop (f : FldCacheEntry) (w : FixWalk) : FixWalk :=
  { w with deleted := f.fceId :: w.deleted }

/-- The loop body of `fld_fix_new_list`, with `fCurr` the current entry and the
entries behind it: one walk to the end of the list or to the first restart. -/
def fldFixWalk (fCurr : FldCacheEntry) : List FldCacheEntry → Option FixWalk
  | [] =>
    if luSeqRangeIsSane fCurr.fceRange then some ⟨false, [fCurr], []⟩ else none
  | fNext :: rest =>
    let c := fCurr.fceRange
    let n := fNext.fceRange
    if ¬ luSeqRangeIsSane c then none
    else if c.lsrFlags ≠ n.lsrFlags then (fldFixWalk fNext rest).map (.keep fCurr)
    else if ¬ c.lsrStart ≤ n.lsrStart then none
    else if c.lsrEnd = n.lsrStart then
      -- merge with the next range
      if c.lsrIndex ≠ n.lsrIndex then (fldFixWalk fNext rest).map (.keep fCurr)
      else
        (fldFixWalk { fNext with fceRange := { n with lsrStart := c.lsrStart } } rest).map
          (.drop fCurr)
    else if n.lsrStart < c.lsrEnd then
      -- the current range overlaps the next one
      if c.lsrIndex = n.lsrIndex then
        some ⟨true, { fNext with fceRange :=
          { n with lsrStart := c.lsrStart, lsrEnd := max c.lsrEnd n.lsrEnd } } :: rest,
          [fCurr.fceId]⟩
      else if n.lsrEnd ≤ c.lsrEnd then
        some ⟨true, { fNext with fceRange := c } :: rest, [fCurr.fceId]⟩
      else
        some ⟨true, fCurr :: { fNext with fceRange := { n with lsrStart := c.lsrEnd } } :: rest, []⟩
    else if c.lsrStart = n.lsrStart ∧ c.lsrEnd = n.lsrEnd then
      -- kill duplicates
      (fldFixWalk fNext rest).map (.drop fCurr)
    else (fldFixWalk fNext rest).map (.keep fCurr)

/-- Walk until a walk does not restart; returns the list and the deleted entries. -/
def fldFixLoop : ℕ → List FldCacheEntry → Option (List FldCacheEntry × List ℕ)
  | 0, _ => none
  | _ + 1, [] => some ([], [])
  | fuel + 1, f :: rest =>
    match fldFixWalk f rest with
    | none => none
    | some w =>
      if w.restart then (fldFixLoop fuel w.entries).map fun (l, del) => (l, w.deleted ++ del)
      else some (w.entries, w.deleted)

/-- Every restart makes the entries cover fewer places in total, counting one
extra place for each entry. -/
def fixMeasure (l : List FldCacheEntry) : ℕ :=
  (l.map fun f => f.fceRange.lsrEnd - f.fceRange.lsrStart + 1).sum

def fldFixNewList : Option FldCache :=
  (fldFixLoop (fixMeasure cache.fciEntries + 1) cache.fciEntries).map fun (l, del) =>
    { cache with
      fciEntries := l
      fciLru := cache.fciLru.filter fun i => i ∉ del
      fciCacheCount := cache.fciCacheCount - del.length }

/-! ## Insertion -/

/-- `fld_cache_entry_add`: link a new entry between `pre` and `post`, make it the
newest, and fix the list up. -/
def fldCacheEntryAdd (pre : List FldCacheEntry) (fNew : FldCacheEntry) (post : List FldCacheEntry) :
    Option FldCache :=
  fldFixNewList { cache with
    fciEntries := pre ++ fNew :: post
    fciLru := fNew.fceId :: cache.fciLru
    fciCacheCount := cache.fciCacheCount + 1 }

/-- The loop of `fld_cache_shrink`: delete the oldest entries while the cache is
larger than it should be. The argument is the age list, oldest first. -/
def fldShrinkLoop (cache : FldCache) : List ℕ → FldCache
  | [] => cache
  | id :: older =>
    if cache.fciCacheCount + cache.fciThreshold > cache.fciCacheSize then
      fldShrinkLoop (fldCacheEntryDelete cache id) older
    else cache

def fldCacheShrink : FldCache :=
  if cache.fciCacheCount < cache.fciCacheSize then cache
  else fldShrinkLoop cache cache.fciLru.reverse

/-- Split a list behind the entry `id`. -/
def splitBehind (id : ℕ) : List FldCacheEntry → Option (List FldCacheEntry × List FldCacheEntry)
  | [] => none
  | f :: rest =>
    if f.fceId = id then some ([f], rest)
    else (splitBehind id rest).map fun (pre, post) => (f :: pre, post)

/-- `fld_cache_punch_hole`: cut `fCurr` into three, with `fNew` in the middle.
`alloc` says whether the third piece could be allocated; it comes zeroed, and
`lsr_flags` is never written. -/
def fldCachePunchHole (alloc : Bool) (pre : List FldCacheEntry) (fCurr fNew : FldCacheEntry)
    (post : List FldCacheEntry) : Option FldCache :=
  if ¬ alloc then some cache
  else
    let fldt : FldCacheEntry :=
      ⟨cache.nextId, ⟨fNew.fceRange.lsrEnd, fCurr.fceRange.lsrEnd, fCurr.fceRange.lsrIndex, 0⟩⟩
    let cache := { cache with nextId := cache.nextId + 1 }
    let fCurr := { fCurr with fceRange :=
      { fCurr.fceRange with lsrEnd := fNew.fceRange.lsrStart } }
    (fldCacheEntryAdd cache (pre ++ [fCurr]) fNew post).bind fun cache =>
      (splitBehind fNew.fceId cache.fciEntries).bind fun (pre, post) =>
        fldCacheEntryAdd cache pre fldt post

/-- `fld_cache_overlap_handle`: `fCurr`, between `pre` and `post`, is the first
entry of the same type that `fNew` meets. -/
def fldCacheOverlapHandle (alloc : Bool) (pre : List FldCacheEntry) (fCurr fNew : FldCacheEntry)
    (post : List FldCacheEntry) : Option FldCache :=
  let c := fCurr.fceRange
  let range := fNew.fceRange
  if c.lsrIndex = range.lsrIndex then
    fldFixNewList { cache with fciEntries := pre ++ { fCurr with fceRange :=
      { c with lsrStart := min c.lsrStart range.lsrStart,
               lsrEnd := max c.lsrEnd range.lsrEnd } } :: post }
  else if range.lsrStart ≤ c.lsrStart ∧ c.lsrEnd ≤ range.lsrEnd then
    -- case 1: the new range overshadows the existing one
    fldFixNewList { cache with fciEntries := pre ++ { fCurr with fceRange := range } :: post }
  else if c.lsrStart < range.lsrStart ∧ range.lsrEnd < c.lsrEnd then
    -- case 2: the new range fits within the existing one
    fldCachePunchHole cache alloc pre fCurr fNew post
  else if range.lsrEnd ≤ c.lsrEnd then
    -- case 3: the new range ends inside the existing one
    if ¬ range.lsrStart ≤ c.lsrStart then none
    else
      fldCacheEntryAdd cache pre fNew
        ({ fCurr with fceRange := { c with lsrStart := range.lsrEnd } } :: post)
  else if c.lsrStart ≤ range.lsrStart then
    -- case 4: the new range starts inside the existing one
    if ¬ c.lsrEnd ≤ range.lsrEnd then none
    else
      fldCacheEntryAdd cache
        (pre ++ [{ fCurr with fceRange := { c with lsrEnd := range.lsrStart } }]) fNew post
  else some cache

/-- The loop of `fld_cache_insert_nolock`: `pre` has been passed. -/
def fldInsertLoop (cache : FldCache) (alloc : Bool) (fNew : FldCacheEntry)
    (pre : List FldCacheEntry) : List FldCacheEntry → Option FldCache
  | [] => fldCacheEntryAdd cache pre fNew []
  | fCurr :: post =>
    let c := fCurr.fceRange
    let range := fNew.fceRange
    if range.lsrEnd < c.lsrStart ∨ (range.lsrEnd = c.lsrStart ∧ range.lsrFlags ≠ c.lsrFlags) then
      fldCacheEntryAdd cache pre fNew (fCurr :: post)
    else if range.lsrStart < c.lsrEnd ∧ range.lsrFlags = c.lsrFlags then
      fldCacheOverlapHandle cache alloc pre fCurr fNew post
    else fldInsertLoop cache alloc fNew (pre ++ [fCurr]) post

def fldCacheInsertNolock (alloc : Bool) (fNew : FldCacheEntry) : Option FldCache :=
  let cache := if cache.fciNoShrink then cache else fldCacheShrink cache
  fldInsertLoop cache alloc fNew [] cache.fciEntries

/-- `fld_cache_insert`: the range becomes a new entry (`fld_cache_entry_create`
asserts that it is sane). -/
def fldCacheInsert (alloc : Bool) (range : LuSeqRange) : Option FldCache :=
  if ¬ luSeqRangeIsSane range then none
  else fldCacheInsertNolock { cache with nextId := cache.nextId + 1 } alloc ⟨cache.nextId, range⟩

/-! ## Lookup -/

/-- What `fld_cache_lookup` returns. -/
structure FldLookup where
  /-- the return value is 0, not `-ENOENT` -/
  found : Bool
  /-- the output range -/
  range : LuSeqRange
  deriving DecidableEq

/-- The loop of `fld_cache_lookup`. `prev` is the entry passed last; the output
range `out` becomes the range that holds the sequence, or else the last one
before the first range behind the sequence. -/
def fldLookupLoop (seq : ℕ) (out : LuSeqRange) : Option LuSeqRange → List FldCacheEntry → FldLookup
  | _, [] => ⟨false, out⟩
  | prev, flde :: rest =>
    if flde.fceRange.lsrStart > seq then ⟨false, prev.getD out⟩
    else if luSeqRangeWithin flde.fceRange seq then ⟨true, flde.fceRange⟩
    else fldLookupLoop seq out (some flde.fceRange) rest

/-- `fld_cache_lookup`, with the cache and its statistics. -/
def fldCacheLookup (seq : ℕ) (out : LuSeqRange) : FldLookup × FldCache :=
  let r := fldLookupLoop seq out none cache.fciEntries
  (r, { cache with
    fstCount := cache.fstCount + 1
    fstCache := if r.found then cache.fstCache + 1 else cache.fstCache })

end Lustre
