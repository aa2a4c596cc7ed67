import Lustre.FldCache

/-!
# The FLD index of a server (`fld_index.c`)

A server keeps its FLD in an index on disk, with a copy of every record in its cache, which
never shrinks. A range that is created is looked up first: by its contract the lookup of a
sequence that is in no range returns the range to its left, and a new range that starts where
that one ends is merged into it.

`fld_cache_lookup` writes the left range into a buffer of the thread, and `fld_index_lookup`
copies the buffer only where the sequence is found. So a failed lookup leaves the caller's
range as it was, and no record is ever merged: the contract is kept exactly where the range
to the left is in the caller's range already and there is nothing to merge (`fldIndex_left`).
-/

namespace Lustre

/-- `struct lu_server_fld`: its cache, and the records of the index at `lsf_obj`. -/
structure LuServerFld where
  lsfCache : FldCache
  /-- the records, latest first; a record is found by its start -/
  lsfObj : List LuSeqRange
  deriving DecidableEq

/-- What `fld_index_lookup` returns. -/
structure FldIndexLookup where
  /-- the return value -/
  rc : ℤ
  /-- the output range -/
  range : LuSeqRange
  /-- the cache, with its statistics -/
  cache : FldCache
  deriving DecidableEq

/-- `fld_index_lookup` into `range`, with what the buffer `fti_rec` of the thread holds. -/
def fldIndexLookup (fld : LuServerFld) (ftiRec : LuSeqRange) (seq : ℕ) (range : LuSeqRange) :
    FldIndexLookup :=
  let r := fldCacheLookup fld.lsfCache seq ftiRec
  if r.1.found then
    -- -ENOENT, if the range does not hold the sequence
    ⟨if luSeqRangeWithin r.1.range seq then 0 else -2, r.1.range, r.2⟩
  else ⟨-2, range, r.2⟩

/-- `lu_seq_range_compare_loc`: the locations differ. -/
def luSeqRangeCompareLoc (r1 r2 : LuSeqRange) : Bool :=
  r1.lsrIndex ≠ r2.lsrIndex || r1.lsrFlags ≠ r2.lsrFlags

def fldCacheDeleteNolock (cache : FldCache) (range : LuSeqRange) : FldCache :=
  match cache.fciEntries.find? fun f => range.lsrStart = f.fceRange.lsrStart ||
      (range.lsrEnd = f.fceRange.lsrEnd && range.lsrFlags = f.fceRange.lsrFlags) with
  | some f => fldCacheEntryDelete cache f.fceId
  | none => cache

/-- What `fld_index_create` meets: what the two operations on the index return, and whether
the cache entry and the third piece of a split entry could be allocated. -/
structure FldCreateIo where
  dtDelete : ℤ
  dtInsert : ℤ
  /-- `fld_cache_entry_create` -/
  entry : Bool
  /-- `fld_cache_punch_hole` -/
  piece : Bool
  deriving DecidableEq

/-- `fld_index_create`, `none` is an `LASSERT` of the cache. -/
def fldIndexCreate (fld : LuServerFld) (ftiRec newRange : LuSeqRange) (io : FldCreateIo) :
    Option (ℤ × LuServerFld) :=
  let look := fldIndexLookup fld ftiRec newRange.lsrStart ⟨0, 0, 0, 0⟩
  let fld := { fld with lsfCache := look.cache }
  let range := look.range
  -- -EEXIST
  if look.rc ≠ -2 then some (if look.rc = 0 then -17 else look.rc, fld)
  else
    let merge := newRange.lsrStart = range.lsrEnd ∧ range.lsrEnd ≠ 0 ∧
      luSeqRangeCompareLoc newRange range = false
    if merge ∧ io.dtDelete ≠ 0 then some (io.dtDelete, fld)
    else
      let tmp := if merge then { newRange with lsrStart := range.lsrStart } else newRange
      let obj := if merge then fld.lsfObj.filter fun r => r.lsrStart ≠ range.lsrStart
        else fld.lsfObj
      if io.dtInsert ≠ 0 then some (io.dtInsert, { fld with lsfObj := obj })
      -- -ENOMEM
      else if ¬ io.entry then some (-12, { fld with lsfObj := tmp :: obj })
      else
        let cache := if merge then fldCacheDeleteNolock fld.lsfCache newRange else fld.lsfCache
        (fldCacheInsert cache io.piece newRange).map fun cache => (0, ⟨cache, tmp :: obj⟩)

/-- `r` is a cached range immediately to the left of `seq`: none ends later and not above it. -/
def IsLeft (cache : FldCache) (seq : ℕ) (r : LuSeqRange) : Prop :=
  (∃ f ∈ cache.fciEntries, f.fceRange = r) ∧ r.lsrEnd ≤ seq ∧
    ∀ f ∈ cache.fciEntries, f.fceRange.lsrEnd ≤ seq → f.fceRange.lsrEnd ≤ r.lsrEnd

/-- `r` is the cached range that `newRange` is to be merged into: it ends where that starts, at
the same location. -/
def IsMergeable (cache : FldCache) (newRange r : LuSeqRange) : Prop :=
  IsLeft cache newRange.lsrStart r ∧ r.lsrStart < r.lsrEnd ∧ r.lsrEnd = newRange.lsrStart ∧
    luSeqRangeCompareLoc newRange r = false

/-- No entry holds the sequence, so that the walk finds none. -/
theorem fldLookupLoop_miss {seq : ℕ} {out : LuSeqRange} {l : List FldCacheEntry} :
    ∀ prev, (∀ f ∈ l, luSeqRangeWithin f.fceRange seq = false) →
      (fldLookupLoop seq out prev l).found = false := by
  induction l with
  | nil => exact fun _ _ => rfl
  | cons flde rest ih =>
    intro prev hmiss
    obtain ⟨hflde, hrest⟩ := List.forall_mem_cons.mp hmiss
    rw [fldLookupLoop]
    split
    · rfl
    · rw [hflde]
      exact ih _ hrest

/-- A failed lookup leaves the caller's range alone. -/
theorem fldIndexLookup_miss {fld : LuServerFld} {seq : ℕ}
    (hmiss : ∀ f ∈ fld.lsfCache.fciEntries, luSeqRangeWithin f.fceRange seq = false)
    (ftiRec range : LuSeqRange) : ∃ cache, fldIndexLookup fld ftiRec seq range = ⟨-2, range, cache⟩ := by
  have hfound : (fldCacheLookup fld.lsfCache seq ftiRec).1.found = false :=
    fldLookupLoop_miss none hmiss
  rw [fldIndexLookup, hfound]
  exact ⟨_, rfl⟩

/-- A range whose start no cached range holds becomes a record of its own. -/
theorem fldIndexCreate_miss {fld fld' : LuServerFld} {newRange ftiRec : LuSeqRange} {io : FldCreateIo}
    (hmiss : ∀ f ∈ fld.lsfCache.fciEntries, luSeqRangeWithin f.fceRange newRange.lsrStart = false)
    (hcreate : fldIndexCreate fld ftiRec newRange io = some (0, fld')) :
    fld'.lsfObj = newRange :: fld.lsfObj := by
  obtain ⟨cache, hlook⟩ := fldIndexLookup_miss hmiss ftiRec ⟨0, 0, 0, 0⟩
  -- the range was zeroed, so it ends at zero and is not merged
  simp only [fldIndexCreate, hlook, ne_eq, not_true_eq_false, false_and, and_false, if_false] at hcreate
  split at hcreate
  · next hinsert => exact absurd (congrArg Prod.fst (Option.some.inj hcreate)) hinsert
  · split at hcreate
    · cases hcreate
    · obtain ⟨cache', -, heq⟩ := Option.map_eq_some_iff.mp hcreate
      cases heq
      rfl

/-- A new range whose start no cached range holds: the lookup of the start returns `-ENOENT`. Its
output is the range to the left, and the new range is merged into that one if it can be, exactly
where the caller's range was the range to the left and nothing can be merged into. -/
theorem fldIndex_left (fld : LuServerFld) (newRange ftiRec range : LuSeqRange) (io : FldCreateIo)
    (hmiss : ∀ f ∈ fld.lsfCache.fciEntries, luSeqRangeWithin f.fceRange newRange.lsrStart = false) :
    (fldIndexLookup fld ftiRec newRange.lsrStart range).rc = -2 ∧
    (((∀ r, IsLeft fld.lsfCache newRange.lsrStart r →
        (fldIndexLookup fld ftiRec newRange.lsrStart range).range = r) ∧
      ∀ fld' r, fldIndexCreate fld ftiRec newRange io = some (0, fld') →
        IsMergeable fld.lsfCache newRange r →
        fld'.lsfObj = { newRange with lsrStart := r.lsrStart } ::
          fld.lsfObj.filter fun x => x.lsrStart ≠ r.lsrStart) ↔
      (∀ r, IsLeft fld.lsfCache newRange.lsrStart r → range = r) ∧
      ∀ fld' r, fldIndexCreate fld ftiRec newRange io = some (0, fld') →
        ¬ IsMergeable fld.lsfCache newRange r) := by
  obtain ⟨cache, hlook⟩ := fldIndexLookup_miss hmiss ftiRec range
  rw [hlook]
  refine ⟨rfl, and_congr_right fun _ => forall₃_congr fun fld' r hcreate => ?_⟩
  refine ⟨fun hmerge hm => ?_, fun hno hm => absurd hm hno⟩
  -- the record that was added starts behind the range to its left
  have hadded := (fldIndexCreate_miss hmiss hcreate).symm.trans (hmerge hm)
  have hstart := congrArg LuSeqRange.lsrStart (List.cons.inj hadded).1
  obtain ⟨-, hlt, hend, -⟩ := hm
  exact absurd hstart (Nat.ne_of_gt (hend ▸ hlt))

/-- A server whose cache and index hold the sequences from 1024 to 2048. -/
def oneRange : LuServerFld where
  lsfCache := { fldCacheInit 0 0 true with
    fciEntries := [⟨0, 1024, 2048, 3, luSeqRangeMdt⟩], fciLru := [0], fciCacheCount := 1, nextId := 1 }
  lsfObj := [⟨1024, 2048, 3, luSeqRangeMdt⟩]

/-- The only range of that server is to the left of every sequence behind it. -/
theorem isLeft_oneRange {seq : ℕ} {r : LuSeqRange} (h : 2048 ≤ seq) :
    IsLeft oneRange.lsfCache seq r ↔ r = ⟨1024, 2048, 3, luSeqRangeMdt⟩ := by
  constructor
  · rintro ⟨⟨f, hf, rfl⟩, -⟩
    exact congrArg FldCacheEntry.fceRange (List.mem_singleton.mp hf)
  · rintro rfl
    exact ⟨⟨_, List.mem_singleton.mpr rfl, rfl⟩, h,
      List.forall_mem_singleton.mpr fun _ => Nat.le_refl _⟩

/-- The lookup of 4096 with the range to its left in the caller's range, and the create of a
range from there: it does not touch that range, so it is a record of its own. -/
theorem fldIndex_left_apart :
    IsLeft oneRange.lsfCache 4096 ⟨1024, 2048, 3, luSeqRangeMdt⟩ ∧
    (fldIndexLookup oneRange ⟨0, 0, 0, 0⟩ 4096 ⟨1024, 2048, 3, luSeqRangeMdt⟩).range =
      ⟨1024, 2048, 3, luSeqRangeMdt⟩ ∧
    (fldIndexCreate oneRange ⟨0, 0, 0, 0⟩ ⟨4096, 5120, 3, luSeqRangeMdt⟩ ⟨0, 0, true, true⟩).map
      Prod.fst = some 0 := by
  have hleft := @isLeft_oneRange 4096
  have h := (fldIndex_left oneRange ⟨4096, 5120, 3, luSeqRangeMdt⟩ ⟨0, 0, 0, 0⟩
    ⟨1024, 2048, 3, luSeqRangeMdt⟩ ⟨0, 0, true, true⟩ (by decide)).2.mpr ⟨?_, ?_⟩
  · have hl := (hleft (by decide)).mpr rfl
    exact ⟨hl, h.1 _ hl, by decide +kernel⟩
  · exact fun r hr => ((hleft (by decide)).mp hr).symm
  · rintro - r - ⟨hr, -, hend, -⟩
    rw [(hleft (by decide)).mp hr] at hend
    cases hend

/-- The lookup of 2048 leaves a zeroed range as it is, and the range from there, of the same
server, becomes a second record. -/
theorem fldIndex_left_lost : IsLeft oneRange.lsfCache 2048 ⟨1024, 2048, 3, luSeqRangeMdt⟩ ∧
    (fldIndexLookup oneRange ⟨0, 0, 0, 0⟩ 2048 ⟨0, 0, 0, 0⟩).range = ⟨0, 0, 0, 0⟩ ∧
    (fldIndexCreate oneRange ⟨0, 0, 0, 0⟩ ⟨2048, 3072, 3, luSeqRangeMdt⟩ ⟨0, 0, true, true⟩).map
      (fun r => (r.1, r.2.lsfObj)) = some (0, [⟨2048, 3072, 3, luSeqRangeMdt⟩,
        ⟨1024, 2048, 3, luSeqRangeMdt⟩]) := by
  exact ⟨(isLeft_oneRange (Nat.le_refl _)).mpr rfl, by decide, by decide +kernel⟩

end Lustre
