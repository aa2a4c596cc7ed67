import Lustre.FldInsert

/-!
# The FLD cache as a last-writer-wins map

A run inserts ranges, evicts and looks sequences up. What the cache is for: a
lookup that succeeds names the server of the *latest* inserted range that holds
the sequence, and as long as nothing is evicted it succeeds for every sequence
that was inserted. `FldMap` says this of one state, `fldCache_lastWriterWins`
proves it for every state of every run whose insertions are spared the
situations that `FldSpared` excludes, and shows that such runs never trip an
assertion. `fldCache_splitOst` is a run that is not spared.
-/

namespace Lustre

/-! ## Runs -/

/-- A cache together with what has happened to it. -/
structure FldRun where
  cache : FldCache
  /-- the ranges inserted so far, latest first -/
  inserted : List LuSeqRange
  /-- some entry has been evicted -/
  evicted : Bool
  deriving DecidableEq

/-- An operation on the cache. -/
inductive FldOp where
  /-- `fld_cache_insert`; `alloc` says whether a further entry could be allocated -/
  | insert (alloc : Bool) (range : LuSeqRange)
  /-- `fld_cache_shrink` -/
  | shrink
  /-- `fld_cache_lookup`; `out` is what the output range holds before -/
  | lookup (seq : ℕ) (out : LuSeqRange)
  deriving DecidableEq

/-- One operation. -/
def fldStep (s : FldRun) : FldOp → Option FldRun
  | .insert alloc range =>
    (fldCacheInsert s.cache alloc range).map fun cache =>
      ⟨cache, range :: s.inserted,
        s.evicted || decide ((fldCacheEvicted s.cache).fciEntries ≠ s.cache.fciEntries)⟩
  | .shrink =>
    some { s with
      cache := fldCacheShrink s.cache
      evicted := s.evicted || decide ((fldCacheShrink s.cache).fciEntries ≠ s.cache.fciEntries) }
  | .lookup seq out => some { s with cache := (fldCacheLookup s.cache seq out).2 }

/-- The empty cache. -/
def fldStart (size threshold : ℤ) (noShrink : Bool) : FldRun :=
  ⟨fldCacheInit size threshold noShrink, [], false⟩

/-- The latest inserted range that holds the sequence. -/
def lastInserted (inserted : List LuSeqRange) (seq : ℕ) : Option LuSeqRange :=
  inserted.find? fun r => luSeqRangeWithin r seq

/-- What users of the cache promise: inserted ranges are sane, of one of the two
types, and ranges of different type share no sequence. -/
def FldUse (s : FldRun) : FldOp → Prop
  | .insert _ range =>
    luSeqRangeIsSane range = true ∧
    (range.lsrFlags = luSeqRangeMdt ∨ range.lsrFlags = luSeqRangeOst) ∧
    ∀ r ∈ s.inserted, r.lsrFlags ≠ range.lsrFlags →
      ∀ seq, luSeqRangeWithin r seq = true → luSeqRangeWithin range seq = false
  | _ => True

/-- The situations an insertion has to be spared: an empty range; an entry of the
same type and another server that starts before the range and ends with it; and
such an entry that reaches beyond the range, unless there is memory for a third
piece and the type is MDT. -/
def FldSpared (s : FldRun) : FldOp → Prop
  | .insert alloc range =>
    range.lsrStart < range.lsrEnd ∧
    ∀ f ∈ (fldCacheEvicted s.cache).fciEntries,
      f.fceRange.lsrFlags = range.lsrFlags → f.fceRange.lsrIndex ≠ range.lsrIndex →
      f.fceRange.lsrStart < range.lsrStart → f.fceRange.lsrEnd ≠ range.lsrEnd ∧
      (range.lsrEnd < f.fceRange.lsrEnd → alloc = true ∧ range.lsrFlags = luSeqRangeMdt)
  | _ => True

/-- The cache is a last-writer-wins map. -/
structure FldMap (s : FldRun) : Prop where
  /-- entries are sorted and disjoint -/
  sorted : s.cache.fciEntries.Pairwise fun a b => a.fceRange.lsrEnd ≤ b.fceRange.lsrStart
  /-- no entry is empty -/
  nonempty : ∀ f ∈ s.cache.fciEntries, f.fceRange.lsrStart < f.fceRange.lsrEnd
  /-- the counter counts the entries -/
  count : s.cache.fciCacheCount = s.cache.fciEntries.length
  /-- a successful lookup names the server of the latest range -/
  latest : ∀ seq out range, (fldCacheLookup s.cache seq out).1 = ⟨true, range⟩ →
    luSeqRangeWithin range seq = true ∧ ∃ r, lastInserted s.inserted seq = some r ∧
      range.lsrIndex = r.lsrIndex ∧ range.lsrFlags = r.lsrFlags
  /-- without evictions, lookups succeed for what was inserted and nothing else -/
  found : s.evicted = false → ∀ seq out, (fldCacheLookup s.cache seq out).1.found = true ↔
    ∃ r ∈ s.inserted, luSeqRangeWithin r seq = true

/-! ## Lookups -/

/-- What the lookup finds is what the list says, and in a list in order it may stop at the first
entry behind the sequence. -/
theorem fldLookupLoop_spec (seq : ℕ) (out : LuSeqRange) {l : List FldCacheEntry} (ht : Tidy l) :
    ∀ prev, let r := fldLookupLoop seq out prev l
      r.found = true ∧ luSeqRangeWithin r.range seq = true ∧
        cachedAt l seq = some (r.range.lsrIndex, r.range.lsrFlags) ∨
      r.found = false ∧ cachedAt l seq = none := by
  induction l with
  | nil => exact fun _ => .inr ⟨rfl, rfl⟩
  | cons f l ih =>
    intro prev
    obtain ⟨hf, hsep, hl⟩ := tidy_cons.mp ht
    rw [fldLookupLoop]
    split
    · next hgt =>
      refine .inr ⟨rfl, cachedAt_eq_none (List.forall_mem_cons.mpr ⟨?_, fun g hg => ?_⟩)⟩
      · rw [← Bool.not_eq_true, luSeqRangeWithin_iff]
        omega
      · have := hsep g hg
        rw [← Bool.not_eq_true, luSeqRangeWithin_iff]
        omega
    · rw [cachedAt]
      split
      · next hw => exact .inl ⟨rfl, hw, rfl⟩
      · exact ih hl _

/-! ## The invariant -/

theorem mem_of_lastInserted {inserted : List LuSeqRange} {seq : ℕ} {r : LuSeqRange}
    (h : lastInserted inserted seq = some r) : r ∈ inserted ∧ luSeqRangeWithin r seq = true := by
  have hw := List.find?_some h
  exact ⟨List.mem_of_find?_eq_some h, hw⟩

/-- Index and type of the latest inserted range that holds the sequence. -/
def serverOf (inserted : List LuSeqRange) (seq : ℕ) : Option (ℕ × ℕ) :=
  (lastInserted inserted seq).map fun r => (r.lsrIndex, r.lsrFlags)

theorem serverOf_cons (r : LuSeqRange) (inserted : List LuSeqRange) (seq : ℕ) :
    serverOf (r :: inserted) seq =
      if luSeqRangeWithin r seq then some (r.lsrIndex, r.lsrFlags) else serverOf inserted seq := by
  rw [serverOf, lastInserted, List.find?_cons]
  split
  · next hw => rw [if_pos hw]; rfl
  · next hw => rw [if_neg (by rw [hw]; exact Bool.false_ne_true)]; rfl

/-- The invariant of a run: the cache is in order, it agrees with the history
where it knows something, and it knows everything until something is evicted. -/
structure FldInv (s : FldRun) : Prop where
  inv : CacheInv s.cache
  agrees : ∀ seq p, cachedAt s.cache.fciEntries seq = some p → serverOf s.inserted seq = some p
  complete : s.evicted = false → ∀ seq, cachedAt s.cache.fciEntries seq = serverOf s.inserted seq

variable {s : FldRun}

theorem FldInv.fldMap (h : FldInv s) : FldMap s where
  __ := h.inv.tidy
  count := h.inv.count
  latest seq out range hlook := by
    have hspec := fldLookupLoop_spec seq out h.inv.tidy none
    rw [show fldLookupLoop seq out none _ = _ from hlook] at hspec
    obtain ⟨-, hw, hat⟩ := hspec.resolve_right nofun
    obtain ⟨r, hr, heq⟩ := Option.map_eq_some_iff.mp (h.agrees seq _ hat)
    obtain ⟨hidx, hfl⟩ := Prod.mk.inj heq
    exact ⟨hw, r, hr, hidx.symm, hfl.symm⟩
  found hev seq out := by
    rcases fldLookupLoop_spec seq out h.inv.tidy none with ⟨hfound, -, hat⟩ | ⟨hmiss, hat⟩
    · refine iff_of_true hfound ?_
      obtain ⟨r, hr, -⟩ := Option.map_eq_some_iff.mp (h.agrees seq _ hat)
      exact ⟨r, mem_of_lastInserted hr⟩
    · refine iff_of_false (fun hfound => Bool.false_ne_true (hmiss.symm.trans hfound)) ?_
      rintro ⟨r, hr, hw⟩
      rw [h.complete hev, serverOf, Option.map_eq_none_iff] at hat
      exact List.find?_eq_none.mp hat r hr hw

variable {range : LuSeqRange}

/-- Where an entry is, a range of its type was inserted, so a range of the other
type is elsewhere. -/
theorem FldInv.apart (h : FldInv s) (hdisj : ∀ r ∈ s.inserted, r.lsrFlags ≠ range.lsrFlags →
      ∀ seq, luSeqRangeWithin r seq = true → luSeqRangeWithin range seq = false)
    {f : FldCacheEntry} (hf : f ∈ s.cache.fciEntries)
    (hfl : f.fceRange.lsrFlags ≠ range.lsrFlags) (hne : range.lsrStart < range.lsrEnd) :
    f.fceRange.lsrEnd ≤ range.lsrStart ∨ range.lsrEnd ≤ f.fceRange.lsrStart := by
  by_contra hno
  have hfne := h.inv.tidy.nonempty f hf
  -- a sequence that both hold
  have hwf : luSeqRangeWithin f.fceRange (max f.fceRange.lsrStart range.lsrStart) = true := by
    rw [luSeqRangeWithin_iff]
    omega
  have hwr : luSeqRangeWithin range (max f.fceRange.lsrStart range.lsrStart) = true := by
    rw [luSeqRangeWithin_iff]
    omega
  obtain ⟨r, hr, heq⟩ := Option.map_eq_some_iff.mp
    (h.agrees _ _ (h.inv.tidy.cachedAt_of_mem hf hwf))
  have hrfl : r.lsrFlags ≠ range.lsrFlags := by
    rw [(Prod.mk.inj heq).2]
    exact hfl
  obtain ⟨hmem, hw⟩ := mem_of_lastInserted hr
  rw [hdisj r hmem hrfl _ hw] at hwr
  cases hwr

/-- A promised and spared insertion is writable. -/
theorem FldInv.writable (h : FldInv s) {alloc : Bool}
    (huse : FldUse s (.insert alloc range)) (hspared : FldSpared s (.insert alloc range)) :
    Writable alloc (fldCacheEvicted s.cache).fciEntries range := by
  obtain ⟨-, -, hdisj⟩ := huse
  obtain ⟨hne, hmeet⟩ := hspared
  obtain ⟨-, hforget⟩ := fldCacheEvicted_spec h.inv
  exact {
    nonempty := hne
    apart := fun f hf hfl => h.apart hdisj (hforget.sub.subset hf) hfl hne
    noTail := fun f hf hfl hidx hs => (hmeet f hf hfl hidx hs).1
    split := fun f hf hfl hidx hs he => (hmeet f hf hfl hidx hs).2 he }

theorem FldInv.evict (h : FldInv s) {cache : FldCache} (hinv : CacheInv cache)
    (hforget : Forgets s.cache cache) : FldInv { s with
      cache := cache
      evicted := s.evicted || decide (cache.fciEntries ≠ s.cache.fciEntries) } where
  inv := hinv
  agrees seq p hp := h.agrees seq p (hforget.cachedAt h.inv.tidy hp)
  complete hev seq := by
    obtain ⟨hev', hsame⟩ := Bool.or_eq_false_iff.mp hev
    have hsame' : cache.fciEntries = s.cache.fciEntries := not_not.mp (of_decide_eq_false hsame)
    rw [hsame']
    exact h.complete hev' seq

theorem FldInv.write (h : FldInv s) {cache : FldCache} (hw : Written s.cache range cache) :
    FldInv { s with cache := cache, inserted := range :: s.inserted } where
  inv := hw.inv
  agrees seq p hp := by
    rw [hw.located] at hp
    rw [serverOf_cons]
    split at hp
    · next hin => rw [if_pos hin]; exact hp
    · next hin => rw [if_neg hin]; exact h.agrees seq p hp
  complete hev seq := by
    rw [hw.located, serverOf_cons, h.complete hev]

/-- The step lemma: a promised and spared operation succeeds and keeps the
invariant. -/
theorem fldStep_spec (h : FldInv s) (a : FldOp) (huse : FldUse s a)
    (hspared : FldSpared s a) : ∃ s', fldStep s a = some s' ∧ FldInv s' := by
  cases a with
  | insert alloc range =>
    obtain ⟨cache, hrun, hw⟩ := fldCacheInsert_spec h.inv (h.writable huse hspared)
    obtain ⟨hinv, hforget⟩ := fldCacheEvicted_spec h.inv
    refine ⟨_, by rw [fldStep, hrun]; rfl, ?_⟩
    exact (h.evict hinv hforget).write hw
  | shrink =>
    obtain ⟨hinv, hforget⟩ := fldCacheShrink_spec h.inv
    exact ⟨_, rfl, h.evict hinv hforget⟩
  | lookup seq out =>
    -- a lookup only counts
    exact ⟨_, rfl, ⟨{ h.inv with }, h.inv.tidy⟩, h.agrees, h.complete⟩

theorem fldInv_start (size threshold : ℤ) (noShrink : Bool) :
    FldInv (fldStart size threshold noShrink) :=
  ⟨cacheInv_init size threshold noShrink, nofun, fun _ _ => rfl⟩

/-- In every state of every run whose insertions are spared, the cache is a
last-writer-wins map, and the next such operation trips no assertion. -/
theorem fldCache_lastWriterWins (size threshold : ℤ) (noShrink : Bool) (s : FldRun)
    (h : Reach fldStep (fun s a => FldUse s a ∧ FldSpared s a)
      (fldStart size threshold noShrink) s) :
    FldMap s ∧ ∀ a, FldUse s a → FldSpared s a → ∃ s', fldStep s a = some s' := by
  have hinv : FldInv s := by
    refine h.invariant FldInv (fldInv_start size threshold noShrink) fun t a t' ht hok hstep => ?_
    obtain ⟨t'', hstep', ht'⟩ := fldStep_spec ht a hok.1 hok.2
    rw [hstep] at hstep'
    exact Option.some.inj hstep' ▸ ht'
  refine ⟨hinv.fldMap, fun a huse hspared => ?_⟩
  obtain ⟨s', hstep, -⟩ := fldStep_spec hinv a huse hspared
  exact ⟨s', hstep⟩

/-- A run that splits an MDT range: the lookup behind the hole still names the
old server. -/
theorem fldCache_lastWriterWins_hole :
    ∃ s, Reach fldStep (fun s a => FldUse s a ∧ FldSpared s a) (fldStart 100 10 false) s ∧
      (fldCacheLookup s.cache 25 ⟨0, 0, 0, 0⟩).1 = ⟨true, 20, 30, 0, 0⟩ ∧ FldMap s := by
  have hrun : Reach fldStep (fun s a => FldUse s a ∧ FldSpared s a) (fldStart 100 10 false) _ :=
    .step (.insert true ⟨10, 20, 1, 0⟩) (.step (.insert true ⟨0, 30, 0, 0⟩) .start
        ⟨⟨rfl, .inl rfl, nofun⟩, by decide, nofun⟩ rfl)
      ⟨⟨rfl, .inl rfl, fun r hr hne => absurd (List.mem_singleton.mp hr ▸ rfl) hne⟩,
        by decide, by decide⟩ rfl
  exact ⟨_, hrun, by decide, (fldCache_lastWriterWins 100 10 false _ hrun).1⟩

/-- Splitting an OST range loses the type of its third piece: the users' promises
alone do not make the cache a last-writer-wins map. -/
theorem fldCache_splitOst : ¬ ∀ (size threshold : ℤ) (noShrink : Bool) (s : FldRun),
      Reach fldStep FldUse (fldStart size threshold noShrink) s → FldMap s := by
  intro hall
  have hrun : Reach fldStep FldUse (fldStart 100 10 false) _ :=
    .step (.insert true ⟨10, 20, 1, luSeqRangeOst⟩)
      (.step (.insert true ⟨0, 30, 0, luSeqRangeOst⟩) .start ⟨rfl, .inr rfl, nofun⟩ rfl)
      ⟨rfl, .inr rfl, fun r hr hne => absurd (List.mem_singleton.mp hr ▸ rfl) hne⟩ rfl
  obtain ⟨-, r, hr, -, hflags⟩ := (hall 100 10 false _ hrun).latest 25 ⟨0, 0, 0, 0⟩
    ⟨20, 30, 0, 0⟩ (by decide)
  -- the latest range that holds 25 is the first one, of type OST
  have hlast : lastInserted [⟨10, 20, 1, luSeqRangeOst⟩, ⟨0, 30, 0, luSeqRangeOst⟩] 25 =
      some ⟨0, 30, 0, luSeqRangeOst⟩ := by decide
  cases hlast.symm.trans hr
  cases hflags

end Lustre
