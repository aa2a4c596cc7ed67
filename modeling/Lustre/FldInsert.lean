import Lustre.FldFix

/-!
# Insertions into the FLD cache

Given a cache whose lists are linked properly (`Linked`) and in order (`Tidy`),
an insertion writes its range over the map that the entries stand for
(`fldCacheInsert_spec`), and an eviction only forgets (`fldCacheShrink_spec`).

The insertion has to be spared three situations, which `Writable` excludes: the
range is empty; it ends exactly where an entry of another server ends that starts
before it, which trips an assertion; or it falls strictly inside such an entry,
and either memory runs out or the entry is not of the type that a zeroed
structure has.
-/

namespace Lustre

/-! ## Well-linked caches -/

open FldCacheEntry (fceId)

/-- Both lists hold the same entries, which are counted and have identities of
their own. -/
structure Linked (cache : FldCache) : Prop where
  lru : cache.fciLru.Perm (cache.fciEntries.map fceId)
  nodup : (cache.fciEntries.map fceId).Nodup
  count : cache.fciCacheCount = cache.fciEntries.length
  fresh : ∀ f ∈ cache.fciEntries, f.fceId < cache.nextId

/-- A cache between operations. -/
structure CacheInv (cache : FldCache) : Prop extends Linked cache where
  tidy : Tidy cache.fciEntries

theorem cacheInv_init (size threshold : ℤ) (noShrink : Bool) :
    CacheInv (fldCacheInit size threshold noShrink) where
  lru := List.Perm.refl _
  nodup := List.nodup_nil
  count := rfl
  fresh _ h := absurd h List.not_mem_nil
  tidy := tidy_nil

variable {cache : FldCache} {l : List FldCacheEntry}

open List

/-- Rewriting ranges in place leaves the cache linked. -/
theorem Linked.rewrite (h : Linked cache) (hids : l.map fceId = cache.fciEntries.map fceId) :
    Linked { cache with fciEntries := l } where
  lru := by rw [hids]; exact h.lru
  nodup := by rw [hids]; exact h.nodup
  count := by
    have hlen : l.length = cache.fciEntries.length := by
      rw [← length_map fceId, hids, length_map]
    rw [hlen]
    exact h.count
  fresh f hf := by
    have hmem : f.fceId ∈ cache.fciEntries.map fceId :=
      hids ▸ mem_map_of_mem hf
    obtain ⟨g, hg, heq⟩ := mem_map.mp hmem
    exact heq ▸ h.fresh g hg

/-- Linking a new entry in leaves the cache linked. -/
theorem Linked.add (h : Linked cache) {fNew : FldCacheEntry} (pre post : List FldCacheEntry)
    (hids : (pre ++ post).map fceId = cache.fciEntries.map fceId)
    (hnew : fNew.fceId ∉ cache.fciEntries.map fceId) (hnext : fNew.fceId < cache.nextId) :
    Linked { cache with
      fciEntries := pre ++ fNew :: post
      fciLru := fNew.fceId :: cache.fciLru
      fciCacheCount := cache.fciCacheCount + 1 } := by
  have hl := h.rewrite hids
  have hperm : ((pre ++ fNew :: post).map fceId).Perm (fNew.fceId :: (pre ++ post).map fceId) :=
    (perm_middle).map fceId
  refine ⟨(hl.lru.cons _).trans hperm.symm, hperm.nodup_iff.mpr ?_, ?_, ?_⟩
  · rw [hids]
    exact nodup_cons.mpr ⟨hnew, h.nodup⟩
  · have hlen := hl.count
    change cache.fciCacheCount + 1 = ((pre ++ fNew :: post).length : ℤ)
    rw [hlen, length_append, length_append, length_cons]
    omega
  · obtain ⟨hpre, hpost⟩ := forall_mem_append.mp hl.fresh
    exact forall_mem_append.mpr ⟨hpre, forall_mem_cons.mpr ⟨hnext, hpost⟩⟩

/-- Unlinking an entry leaves the cache linked. -/
theorem Linked.delete (h : Linked cache) {id : ℕ} (hid : id ∈ cache.fciLru) :
    Linked (fldCacheEntryDelete cache id) := by
  have hmap : (cache.fciEntries.filter fun f => f.fceId ≠ id).map fceId =
      (cache.fciEntries.map fceId).filter fun i => i ≠ id := by
    rw [filter_map]
    rfl
  refine ⟨?_, ?_, ?_, fun f hf => h.fresh f (mem_of_mem_filter hf)⟩
  · change (cache.fciLru.filter fun i => i ≠ id).Perm
      ((cache.fciEntries.filter fun f => f.fceId ≠ id).map fceId)
    rw [hmap]
    exact h.lru.filter _
  · change ((cache.fciEntries.filter fun f => f.fceId ≠ id).map fceId).Nodup
    rw [hmap]
    exact h.nodup.filter _
  · -- exactly one entry carries the identity
    have hmem : id ∈ cache.fciEntries.map fceId := h.lru.mem_iff.mp hid
    have herase : ((cache.fciEntries.map fceId).filter fun i => i ≠ id) =
        (cache.fciEntries.map fceId).erase id := by
      rw [h.nodup.erase_eq_filter]
      exact filter_congr fun i _ => by by_cases hi : i = id <;> simp [hi]
    have hlen : (cache.fciEntries.filter fun f => f.fceId ≠ id).length =
        cache.fciEntries.length - 1 := by
      rw [← length_map fceId, hmap, herase, length_erase_of_mem hmem, length_map]
    have hpos : 0 < cache.fciEntries.length := by
      rw [← length_map fceId]
      exact length_pos_of_mem hmem
    change cache.fciCacheCount - 1 = ((cache.fciEntries.filter fun f => f.fceId ≠ id).length : ℤ)
    rw [hlen, h.count]
    omega

/-! ## Evictions -/

/-- `cache'` has forgotten some entries of `cache`. -/
structure Forgets (cache cache' : FldCache) : Prop where
  sub : cache'.fciEntries.Sublist cache.fciEntries
  next : cache'.nextId = cache.nextId

theorem Tidy.sublist {l l' : List FldCacheEntry} (h : Tidy l) (hs : l'.Sublist l) : Tidy l' :=
  ⟨h.sorted.sublist hs, fun f hf => h.nonempty f (hs.subset hf)⟩

/-- What is still known after an eviction was known before. -/
theorem Forgets.cachedAt {cache cache' : FldCache} (h : Forgets cache cache')
    (ht : Tidy cache.fciEntries) {seq : ℕ} {p : ℕ × ℕ}
    (hp : cachedAt cache'.fciEntries seq = some p) : cachedAt cache.fciEntries seq = some p := by
  obtain ⟨f, hf, hw, rfl⟩ := mem_of_cachedAt hp
  exact ht.cachedAt_of_mem (h.sub.subset hf) hw

theorem fldShrinkLoop_spec (ids : List ℕ) :
    ∀ cache, Linked cache → ids.Nodup → (∀ id ∈ ids, id ∈ cache.fciLru) →
      Linked (fldShrinkLoop cache ids) ∧ Forgets cache (fldShrinkLoop cache ids) := by
  induction ids with
  | nil => exact fun cache h _ _ => ⟨h, List.Sublist.refl _, rfl⟩
  | cons id ids ih =>
    intro cache h hnd hmem
    obtain ⟨hid, hnd'⟩ := nodup_cons.mp hnd
    rw [fldShrinkLoop]
    split
    · have hmem' : ∀ i ∈ ids, i ∈ (fldCacheEntryDelete cache id).fciLru := by
        intro i hi
        refine mem_filter.mpr ⟨hmem i (mem_cons_of_mem _ hi), ?_⟩
        have hne : i ≠ id := fun heq => hid (heq ▸ hi)
        simp [hne]
      obtain ⟨hl, hsub, hnext⟩ :=
        ih _ (h.delete (hmem id mem_cons_self)) hnd' hmem'
      exact ⟨hl, hsub.trans filter_sublist, hnext⟩
    · exact ⟨h, List.Sublist.refl _, rfl⟩

/-- An eviction leaves the cache in order and only forgets. -/
theorem fldCacheShrink_spec (h : CacheInv cache) :
    CacheInv (fldCacheShrink cache) ∧ Forgets cache (fldCacheShrink cache) := by
  rw [fldCacheShrink]
  split
  · exact ⟨h, List.Sublist.refl _, rfl⟩
  · have hnd : cache.fciLru.reverse.Nodup :=
      (reverse_perm _).nodup_iff.mpr (h.lru.nodup_iff.mpr h.nodup)
    obtain ⟨hl, hf⟩ := fldShrinkLoop_spec cache.fciLru.reverse cache h.toLinked hnd
      fun id hid => mem_reverse.mp hid
    exact ⟨⟨hl, h.tidy.sublist hf.sub⟩, hf⟩

/-! ## The fix-up pass on a linked cache -/

/-- The pass on a fixable list: the cache is in order again and means the same. -/
theorem fldFixNewList_spec (h : Linked cache) (hfix : Fixable cache.fciEntries) :
    ∃ cache', fldFixNewList cache = some cache' ∧ CacheInv cache' ∧
      (∀ seq, cachedAt cache'.fciEntries seq = cachedAt cache.fciEntries seq) ∧
      cache'.nextId = cache.nextId ∧
      ∀ f ∈ cache'.fciEntries, f.fceId ∈ cache.fciEntries.map fceId := by
  obtain ⟨l, del, hrun, htidy, hloc, hids⟩ :=
    fldFixLoop_spec _ cache.fciEntries hfix (Nat.lt_succ_self _)
  have hnd : (l.map fceId ++ del).Nodup := hids.nodup_iff.mpr h.nodup
  obtain ⟨hnl, -, hdisj⟩ := nodup_append.mp hnd
  have hsub : ∀ f ∈ l, f.fceId ∈ cache.fciEntries.map fceId := fun f hf =>
    hids.mem_iff.mp (mem_append_left _ (mem_map_of_mem hf))
  rw [fldFixNewList, hrun]
  refine ⟨_, rfl, ⟨⟨?_, hnl, ?_, fun f hf => ?_⟩, htidy⟩, hloc, rfl, hsub⟩
  · -- the age list loses what the pass deleted
    have hfilter : ((l.map fceId ++ del).filter fun i => i ∉ del) = l.map fceId := by
      rw [filter_append]
      have hl : ((l.map fceId).filter fun i => i ∉ del) = l.map fceId :=
        filter_eq_self.mpr fun i hi => decide_eq_true fun hd => hdisj i hi i hd rfl
      have hd : (del.filter fun i => i ∉ del) = [] :=
        filter_eq_nil_iff.mpr fun i hi => by simp [hi]
      rw [hl, hd, append_nil]
    exact hfilter ▸ ((h.lru.trans hids.symm).filter _)
  · have hlen := hids.length_eq
    rw [length_append, length_map, length_map] at hlen
    change cache.fciCacheCount - (del.length : ℤ) = (l.length : ℤ)
    rw [h.count, ← hlen]
    omega
  · obtain ⟨g, hg, heq⟩ := mem_map.mp (hsub f hf)
    exact heq ▸ h.fresh g hg

/-- `x` touches no other entry of its server, so no merge involves it. -/
def Isolated (x : FldCacheEntry) (l : List FldCacheEntry) : Prop :=
  ∀ g ∈ l, g.fceRange.lsrIndex = x.fceRange.lsrIndex →
    g.fceRange.lsrEnd ≠ x.fceRange.lsrStart ∧ x.fceRange.lsrEnd ≠ g.fceRange.lsrStart

/-- A walk over a list in order does not restart, and an isolated entry is in the
list it leaves. -/
theorem fldFixWalk_tidy (l : List FldCacheEntry) :
    ∀ f, Tidy (f :: l) → ∃ w, fldFixWalk f l = some w ∧ w.restart = false ∧
      ∀ x ∈ f :: l, Isolated x (f :: l) → x ∈ w.entries := by
  induction l with
  | nil =>
    intro f h
    obtain ⟨hf, -, -⟩ := tidy_cons.mp h
    refine ⟨⟨false, [f], []⟩, ?_, rfl, fun x hx _ => hx⟩
    simp [fldFixWalk, luSeqRangeIsSane, Nat.le_of_lt hf]
  | cons n l ih =>
    intro f h
    obtain ⟨hf, hsep, hl⟩ := tidy_cons.mp h
    obtain ⟨hn, hnsep, hl'⟩ := tidy_cons.mp hl
    have hfe := hsep n mem_cons_self
    rcases fldFixWalk_cases (Nat.le_of_lt hf) (Nat.le_trans (Nat.le_of_lt hf) hfe) with
      ⟨-, hwalk⟩ | ⟨-, ⟨htouch, hidx, hwalk⟩ | ⟨hov, -⟩⟩
    · obtain ⟨w, hw, hr, hin⟩ := ih n hl
      rw [hwalk, hw]
      refine ⟨_, rfl, hr, forall_mem_cons.mpr ⟨fun _ => mem_cons_self, fun x hx hiso => ?_⟩⟩
      exact mem_cons_of_mem _ (hin x hx (forall_mem_cons.mp hiso).2)
    · have hstretch : Tidy ({ n with fceRange :=
          { n.fceRange with lsrStart := f.fceRange.lsrStart } } :: l) :=
        tidy_cons.mpr ⟨Nat.lt_trans (Nat.lt_of_lt_of_le hf hfe) hn, hnsep, hl'⟩
      obtain ⟨w, hw, hr, hin⟩ := ih _ hstretch
      rw [hwalk, hw]
      refine ⟨_, rfl, hr, ?_⟩
      -- neither of the merged entries is isolated
      simp only [Isolated, forall_mem_cons] at hin ⊢
      refine ⟨fun hiso => absurd htouch (hiso.2.1 hidx.symm).2,
        fun hiso => absurd htouch (hiso.1 hidx).1, fun x hx hiso => ?_⟩
      obtain ⟨hxf, hxn, hxl⟩ := hiso
      exact hin.2 x hx ⟨fun hgx => ⟨(hxn hgx).1, (hxf (hidx.trans hgx)).2⟩, hxl⟩
    · omega

/-- The pass keeps an isolated entry of a list in order. -/
theorem mem_of_fldFixNewList {cache cache' : FldCache} (htidy : Tidy cache.fciEntries)
    (hrun : fldFixNewList cache = some cache') {x : FldCacheEntry} (hx : x ∈ cache.fciEntries)
    (hiso : Isolated x cache.fciEntries) : x ∈ cache'.fciEntries := by
  rw [fldFixNewList] at hrun
  cases hl : cache.fciEntries with
  | nil => rw [hl] at hx; cases hx
  | cons f l =>
    rw [hl] at htidy hx hiso hrun
    obtain ⟨w, hw, hr, hin⟩ := fldFixWalk_tidy l f htidy
    simp only [fldFixLoop, hw, hr, Bool.false_eq_true, if_false, Option.map_some,
      Option.some.injEq] at hrun
    rw [← hrun]
    exact hin x hx hiso

/-! ## Writing a range -/

/-- `cache'` is in order, and is `cache` with the range written over it. -/
structure Written (cache : FldCache) (r : LuSeqRange) (cache' : FldCache) : Prop where
  inv : CacheInv cache'
  /-- the range decides where it lies, the old entries elsewhere -/
  located : ∀ seq, cachedAt cache'.fciEntries seq =
    if luSeqRangeWithin r seq then some (r.lsrIndex, r.lsrFlags)
    else cachedAt cache.fciEntries seq

/-- What an insertion needs of the entries it meets. -/
structure Writable (alloc : Bool) (l : List FldCacheEntry) (r : LuSeqRange) : Prop where
  nonempty : r.lsrStart < r.lsrEnd
  apart : ∀ f ∈ l, f.fceRange.lsrFlags ≠ r.lsrFlags →
    f.fceRange.lsrEnd ≤ r.lsrStart ∨ r.lsrEnd ≤ f.fceRange.lsrStart
  /-- no entry of another server starts before the range and ends with it -/
  noTail : ∀ f ∈ l, f.fceRange.lsrFlags = r.lsrFlags → f.fceRange.lsrIndex ≠ r.lsrIndex →
    f.fceRange.lsrStart < r.lsrStart → f.fceRange.lsrEnd ≠ r.lsrEnd
  /-- an entry of another server around the range can be split -/
  split : ∀ f ∈ l, f.fceRange.lsrFlags = r.lsrFlags → f.fceRange.lsrIndex ≠ r.lsrIndex →
    f.fceRange.lsrStart < r.lsrStart → r.lsrEnd < f.fceRange.lsrEnd →
    alloc = true ∧ r.lsrFlags = luSeqRangeMdt

theorem Fixable.append (hl : Fixable l) : ∀ pre : List FldCacheEntry, Tidy pre →
      (∀ f ∈ pre, ∀ g ∈ l, f.fceRange.lsrEnd ≤ g.fceRange.lsrStart) → Fixable (pre ++ l) := by
  intro pre
  induction pre with
  | nil => exact fun _ _ => hl
  | cons f pre ih =>
    intro htidy hsep
    obtain ⟨hf, hpre, htidy'⟩ := tidy_cons.mp htidy
    obtain ⟨hsep, hsepl⟩ := forall_mem_cons.mp hsep
    exact .old _ _ hf (forall_mem_append.mpr ⟨hpre, hsep⟩) (ih htidy' hsepl)

theorem tidy_append {l m : List FldCacheEntry} : Tidy (l ++ m) ↔ Tidy l ∧ Tidy m ∧
      ∀ f ∈ l, ∀ g ∈ m, f.fceRange.lsrEnd ≤ g.fceRange.lsrStart := by
  constructor
  · rintro ⟨hs, hn⟩
    obtain ⟨hl, hm, hlm⟩ := pairwise_append.mp hs
    obtain ⟨hnl, hnm⟩ := forall_mem_append.mp hn
    exact ⟨⟨hl, hnl⟩, ⟨hm, hnm⟩, hlm⟩
  · rintro ⟨⟨hl, hnl⟩, ⟨hm, hnm⟩, hlm⟩
    exact ⟨pairwise_append.mpr ⟨hl, hm, hlm⟩, forall_mem_append.mpr ⟨hnl, hnm⟩⟩

section Insert

variable {cache : FldCache} {alloc : Bool} {fNew : FldCacheEntry} {pre post : List FldCacheEntry}

/-- Entries that end before the range know nothing about its sequences. -/
theorem cachedAt_before {seq : ℕ} {r : LuSeqRange}
    (hpre : ∀ f ∈ pre, f.fceRange.lsrEnd ≤ r.lsrStart) (hseq : luSeqRangeWithin r seq = true) :
    cachedAt pre seq = none := by
  refine cachedAt_eq_none fun f hf => ?_
  have hle := hpre f hf
  rw [luSeqRangeWithin_iff] at hseq
  rw [Bool.eq_false_iff, ne_eq, luSeqRangeWithin_iff]
  omega

/-- Finish an insertion: the list built around the range is fixable, and read
from the left it is the old list with the range written over it. -/
theorem written_of_fixable {cache cache1 : FldCache} {r : LuSeqRange} (hlink : Linked cache1)
    (hl : cache1.fciEntries = pre ++ l) (hpre : Tidy pre)
    (hsep : ∀ f ∈ pre, ∀ g ∈ l, f.fceRange.lsrEnd ≤ g.fceRange.lsrStart) (hfix : Fixable l)
    (hbefore : ∀ f ∈ pre, f.fceRange.lsrEnd ≤ r.lsrStart)
    {old : List FldCacheEntry} (hold : cache.fciEntries = pre ++ old)
    (hmean : ∀ seq, cachedAt l seq =
      if luSeqRangeWithin r seq then some (r.lsrIndex, r.lsrFlags) else cachedAt old seq) :
    ∃ cache', fldFixNewList cache1 = some cache' ∧ Written cache r cache' := by
  obtain ⟨cache', hrun, hinv, hloc, -, -⟩ :=
    fldFixNewList_spec hlink (hl ▸ hfix.append pre hpre hsep)
  refine ⟨cache', hrun, hinv, fun seq => ?_⟩
  rw [hloc, hl, hold, cachedAt_append, cachedAt_append, hmean]
  split
  · next hw => rw [cachedAt_before hbefore hw, Option.none_or]
  · rfl

/-- The new entry fits before everything that follows. -/
theorem fldCacheEntryAdd_gap (fNew : FldCacheEntry) (h : CacheInv cache)
    (hl : cache.fciEntries = pre ++ post) (hnew : fNew.fceId ∉ cache.fciEntries.map fceId)
    (hnext : fNew.fceId < cache.nextId) (hne : fNew.fceRange.lsrStart < fNew.fceRange.lsrEnd)
    (hbefore : ∀ f ∈ pre, f.fceRange.lsrEnd ≤ fNew.fceRange.lsrStart)
    (hafter : ∀ f ∈ post, fNew.fceRange.lsrEnd ≤ f.fceRange.lsrStart) :
    ∃ cache', fldCacheEntryAdd cache pre fNew post = some cache' ∧
      Written cache fNew.fceRange cache' := by
  obtain ⟨hpre, hpost, hsep⟩ := tidy_append.mp (hl ▸ h.tidy)
  refine written_of_fixable (h.toLinked.add _ _ (by rw [hl]) hnew hnext) rfl hpre (fun f hf => ?_)
    (tidy_cons.mpr ⟨hne, hafter, hpost⟩).fixable hbefore hl fun seq => rfl
  exact forall_mem_cons.mpr ⟨hbefore f hf, hsep f hf⟩

variable {fCurr : FldCacheEntry}

/-- `fCurr` is the first entry of the new range's type that the range meets. -/
structure Meets (cache : FldCache) (alloc : Bool) (fNew : FldCacheEntry)
    (pre : List FldCacheEntry) (fCurr : FldCacheEntry) (post : List FldCacheEntry) : Prop where
  inv : CacheInv cache
  entries : cache.fciEntries = pre ++ fCurr :: post
  new : fNew.fceId ∉ cache.fciEntries.map fceId
  next : fNew.fceId < cache.nextId
  writable : Writable alloc cache.fciEntries fNew.fceRange
  before : ∀ f ∈ pre, f.fceRange.lsrEnd ≤ fNew.fceRange.lsrStart
  /-- the entry starts at the latest where the range ends -/
  starts : fCurr.fceRange.lsrStart ≤ fNew.fceRange.lsrEnd
  /-- the range starts inside the entry or before it -/
  ends : fNew.fceRange.lsrStart < fCurr.fceRange.lsrEnd
  flags : fNew.fceRange.lsrFlags = fCurr.fceRange.lsrFlags

/-- The entries up to `fCurr`, which is cut at the start of the range. -/
abbrev cutAt (pre : List FldCacheEntry) (fCurr fNew : FldCacheEntry) : List FldCacheEntry :=
  pre ++ [{ fCurr with fceRange := { fCurr.fceRange with lsrEnd := fNew.fceRange.lsrStart } }]

namespace Meets

variable (m : Meets cache alloc fNew pre fCurr post)

include m

theorem tidy_pre : Tidy pre := (tidy_append.mp (m.entries ▸ m.inv.tidy)).1

theorem tidy_curr : Tidy (fCurr :: post) := (tidy_append.mp (m.entries ▸ m.inv.tidy)).2.1

theorem pre_curr : ∀ f ∈ pre, f.fceRange.lsrEnd ≤ fCurr.fceRange.lsrStart := fun f hf =>
  (tidy_append.mp (m.entries ▸ m.inv.tidy)).2.2 f hf fCurr mem_cons_self

theorem curr_post : ∀ f ∈ post, fCurr.fceRange.lsrEnd ≤ f.fceRange.lsrStart :=
  (tidy_cons.mp m.tidy_curr).2.1

theorem pre_post : ∀ f ∈ pre, ∀ g ∈ post, f.fceRange.lsrEnd ≤ g.fceRange.lsrStart := fun f hf g hg =>
  (tidy_append.mp (m.entries ▸ m.inv.tidy)).2.2 f hf g (mem_cons_of_mem _ hg)

theorem mem_curr : fCurr ∈ cache.fciEntries := by
  rw [m.entries]
  exact mem_append_right _ mem_cons_self

/-- An entry of the other type behind `fCurr` starts behind the range. -/
theorem post_other : ∀ f ∈ post, fNew.fceRange.lsrFlags ≠ f.fceRange.lsrFlags →
    fNew.fceRange.lsrEnd ≤ f.fceRange.lsrStart := by
  intro f hf hne
  have hmem : f ∈ cache.fciEntries := by
    rw [m.entries]
    exact mem_append_right _ (mem_cons_of_mem _ hf)
  have hc := m.curr_post f hf
  have hs := m.ends
  have hn := m.inv.tidy.nonempty f hmem
  rcases m.writable.apart f hmem (Ne.symm hne) with hle | hle
  · omega
  · exact hle

/-- The entry belongs to the same server: it grows. -/
theorem written_grow (hidx : fCurr.fceRange.lsrIndex = fNew.fceRange.lsrIndex) :
    ∃ cache', fldFixNewList { cache with fciEntries := pre ++ { fCurr with fceRange :=
      { fCurr.fceRange with
        lsrStart := min fCurr.fceRange.lsrStart fNew.fceRange.lsrStart,
        lsrEnd := max fCurr.fceRange.lsrEnd fNew.fceRange.lsrEnd } } :: post } = some cache' ∧
      Written cache fNew.fceRange cache' := by
  obtain ⟨hc, hsep, hpost⟩ := tidy_cons.mp m.tidy_curr
  have hs := m.starts
  have he := m.ends
  refine written_of_fixable (m.inv.toLinked.rewrite (by rw [m.entries]; simp)) rfl m.tidy_pre
    (fun f hf => forall_mem_cons.mpr ⟨?_, m.pre_post f hf⟩)
    (.fresh _ _ ?_ hpost (fun f hf => ?_) fun f hf hne => ?_) m.before m.entries fun seq => ?_
  · exact Nat.le_min.mpr ⟨m.pre_curr f hf, m.before f hf⟩
  · change min fCurr.fceRange.lsrStart fNew.fceRange.lsrStart <
      max fCurr.fceRange.lsrEnd fNew.fceRange.lsrEnd
    omega
  · have := hsep f hf
    change min fCurr.fceRange.lsrStart fNew.fceRange.lsrStart ≤ f.fceRange.lsrStart
    omega
  · exact Nat.max_le.mpr ⟨hsep f hf, m.post_other f hf (m.flags ▸ hne)⟩
  · simp only [cachedAt, luSeqRangeWithin_iff]
    by_cases hr : fNew.fceRange.lsrStart ≤ seq ∧ seq < fNew.fceRange.lsrEnd
    · rw [if_pos hr, if_pos (by omega), hidx, m.flags]
    · rw [if_neg hr]
      by_cases hcur : fCurr.fceRange.lsrStart ≤ seq ∧ seq < fCurr.fceRange.lsrEnd
      · rw [if_pos hcur, if_pos (by omega)]
      · rw [if_neg hcur, if_neg (by omega)]

/-- The entry is covered: the range takes its place. -/
theorem written_overshadow (hs : fNew.fceRange.lsrStart ≤ fCurr.fceRange.lsrStart)
    (he : fCurr.fceRange.lsrEnd ≤ fNew.fceRange.lsrEnd) :
    ∃ cache', fldFixNewList { cache with fciEntries :=
      pre ++ { fCurr with fceRange := fNew.fceRange } :: post } = some cache' ∧
      Written cache fNew.fceRange cache' := by
  obtain ⟨hc, hsep, hpost⟩ := tidy_cons.mp m.tidy_curr
  refine written_of_fixable (m.inv.toLinked.rewrite (by rw [m.entries]; simp)) rfl m.tidy_pre
    (fun f hf => forall_mem_cons.mpr ⟨m.before f hf, m.pre_post f hf⟩)
    (.fresh _ _ m.writable.nonempty hpost (fun f hf => ?_) m.post_other) m.before m.entries
    fun seq => ?_
  · exact Nat.le_trans hs (Nat.le_trans (Nat.le_of_lt hc) (hsep f hf))
  · simp only [cachedAt, luSeqRangeWithin_iff]
    split
    · rfl
    · rw [if_neg (by omega)]

/-- The range ends inside the entry, which keeps its end. -/
theorem written_head (hs : fNew.fceRange.lsrStart ≤ fCurr.fceRange.lsrStart)
    (he : fNew.fceRange.lsrEnd < fCurr.fceRange.lsrEnd) :
    ∃ cache', fldCacheEntryAdd cache pre fNew ({ fCurr with fceRange :=
      { fCurr.fceRange with lsrStart := fNew.fceRange.lsrEnd } } :: post) = some cache' ∧
      Written cache fNew.fceRange cache' := by
  obtain ⟨hc, hsep, hpost⟩ := tidy_cons.mp m.tidy_curr
  have hle := m.starts
  refine written_of_fixable (m.inv.toLinked.add _ _ (by rw [m.entries]; simp) m.new m.next) rfl
    m.tidy_pre (fun f hf => ?_)
    (Tidy.fixable (tidy_cons.mpr ⟨m.writable.nonempty, forall_mem_cons.mpr ⟨Nat.le_refl _,
      fun f hf => ?_⟩, tidy_cons.mpr ⟨he, hsep, hpost⟩⟩)) m.before m.entries fun seq => ?_
  · simp only [forall_mem_cons]
    exact ⟨m.before f hf, Nat.le_trans (m.before f hf) (Nat.le_of_lt m.writable.nonempty),
      m.pre_post f hf⟩
  · exact Nat.le_trans (Nat.le_of_lt he) (hsep f hf)
  · simp only [cachedAt, luSeqRangeWithin_iff]
    split
    · rfl
    · split
      · rw [if_pos (by omega)]
      · rw [if_neg (by omega)]

/-- The list with `fCurr` cut at the start of the range, up to the cut. -/
theorem tidy_cut (hs : fCurr.fceRange.lsrStart < fNew.fceRange.lsrStart) :
    Tidy (cutAt pre fCurr fNew) := by
  refine tidy_append.mpr ⟨m.tidy_pre, tidy_cons.mpr ⟨hs, nofun, tidy_nil⟩, fun f hf g hg => ?_⟩
  rw [mem_singleton.mp hg]
  exact m.pre_curr f hf

/-- Up to the cut, everything ends before the range. -/
theorem before_cut : ∀ f ∈ cutAt pre fCurr fNew, f.fceRange.lsrEnd ≤ fNew.fceRange.lsrStart :=
  forall_mem_append.mpr ⟨m.before, forall_mem_singleton.mpr (Nat.le_refl _)⟩

/-- Cutting `fCurr` at the start of the range and adding the range behind the cut
writes the range, except for what `fCurr` held behind it. -/
theorem cachedAt_cut (seq : ℕ) (hseq : seq < fNew.fceRange.lsrEnd ∨ fCurr.fceRange.lsrEnd ≤ seq) :
    cachedAt (cutAt pre fCurr fNew ++ fNew :: post) seq = if luSeqRangeWithin fNew.fceRange seq then
        some (fNew.fceRange.lsrIndex, fNew.fceRange.lsrFlags)
      else cachedAt cache.fciEntries seq := by
  have hends := m.ends
  rw [cachedAt_append, m.entries, cachedAt_append pre (fCurr :: post)]
  by_cases hw : luSeqRangeWithin fNew.fceRange seq = true
  · rw [cachedAt_before m.before_cut hw, cachedAt, if_pos hw, if_pos hw, Option.none_or]
  · rw [if_neg hw, show cachedAt (fNew :: post) seq = cachedAt post seq from if_neg hw,
      cachedAt_append, Option.or_assoc]
    congr 1
    rw [luSeqRangeWithin_iff] at hw
    simp only [cachedAt, luSeqRangeWithin_iff]
    split
    · rw [if_pos (by omega), Option.some_or]
    · rw [if_neg (by omega), Option.none_or]

section

variable (hs : fCurr.fceRange.lsrStart < fNew.fceRange.lsrStart)
include hs

/-- The range starts inside the entry, which keeps its start. -/
theorem written_tail (he : fCurr.fceRange.lsrEnd ≤ fNew.fceRange.lsrEnd) :
    ∃ cache', fldCacheEntryAdd cache (cutAt pre fCurr fNew) fNew post = some cache' ∧
      Written cache fNew.fceRange cache' := by
  obtain ⟨hc, hsep, hpost⟩ := tidy_cons.mp m.tidy_curr
  have hends := m.ends
  have hlink := m.inv.toLinked.add (cutAt pre fCurr fNew) post (by rw [m.entries]; simp) m.new m.next
  have hfix : Fixable (fNew :: post) :=
    .fresh _ _ m.writable.nonempty hpost
      (fun f hf => Nat.le_trans (Nat.le_of_lt hends) (hsep f hf)) m.post_other
  have hcut : ∀ f ∈ cutAt pre fCurr fNew, ∀ g ∈ fNew :: post,
      f.fceRange.lsrEnd ≤ g.fceRange.lsrStart := by
    refine fun f hf => forall_mem_cons.mpr ⟨m.before_cut f hf, fun g hg => ?_⟩
    exact Nat.le_trans (m.before_cut f hf) (Nat.le_trans (Nat.le_of_lt hends) (hsep g hg))
  obtain ⟨cache', hrun, hinv, hloc, -, -⟩ :=
    fldFixNewList_spec hlink (hfix.append _ (m.tidy_cut hs) hcut)
  refine ⟨cache', hrun, hinv, fun seq => ?_⟩
  rw [hloc]
  exact m.cachedAt_cut seq (by omega)

/-- The first half of a hole: `fCurr` is cut, the range is added, and everything
is in order with a gap behind the range. -/
theorem tidy_hole (he : fNew.fceRange.lsrEnd < fCurr.fceRange.lsrEnd) :
    Tidy (cutAt pre fCurr fNew ++ fNew :: post) := by
  obtain ⟨-, hsep, hpost⟩ := tidy_cons.mp m.tidy_curr
  have hne := m.writable.nonempty
  refine tidy_append.mpr ⟨m.tidy_cut hs,
    tidy_cons.mpr ⟨hne, fun g hg => ?_, hpost⟩, fun f hf => ?_⟩
  · exact Nat.le_trans (Nat.le_of_lt he) (hsep g hg)
  · have hf' := m.before_cut f hf
    refine forall_mem_cons.mpr ⟨hf', fun g hg => ?_⟩
    have := hsep g hg
    omega

/-- The range in its hole touches no entry of its server. -/
theorem isolated_hole (he : fNew.fceRange.lsrEnd < fCurr.fceRange.lsrEnd)
    (hidx : fCurr.fceRange.lsrIndex ≠ fNew.fceRange.lsrIndex) :
    Isolated fNew (cutAt pre fCurr fNew ++ fNew :: post) := by
  obtain ⟨-, hsep, -⟩ := tidy_cons.mp m.tidy_curr
  have hne := m.writable.nonempty
  intro g hg hgx
  have hgne := (m.tidy_hole hs he).nonempty g hg
  rcases mem_append.mp hg with hg | hg
  · rcases mem_append.mp hg with hg | hg
    · have := m.pre_curr g hg
      exact ⟨by omega, by omega⟩
    · rw [mem_singleton.mp hg] at hgx
      exact absurd hgx hidx
  · rcases mem_cons.mp hg with rfl | hg
    · exact ⟨by omega, by omega⟩
    · have := hsep g hg
      exact ⟨by omega, by omega⟩

end

end Meets

/-- Splitting behind an entry of the list. -/
theorem splitBehind_of_mem {x : FldCacheEntry} (hx : x ∈ l) (hnd : (l.map fceId).Nodup) :
    ∃ a b, l = a ++ x :: b ∧ splitBehind x.fceId l = some (a ++ [x], b) := by
  induction l with
  | nil => cases hx
  | cons f l ih =>
    obtain ⟨hf, hnd'⟩ := nodup_cons.mp hnd
    rcases mem_cons.mp hx with rfl | hx
    · exact ⟨[], l, rfl, by simp [splitBehind]⟩
    · obtain ⟨a, b, rfl, hsplit⟩ := ih hx hnd'
      have hne : f.fceId ≠ x.fceId := fun heq => hf (heq ▸ mem_map_of_mem hx)
      exact ⟨f :: a, b, rfl, by rw [splitBehind, if_neg hne, hsplit]; rfl⟩

/-- The first half of a hole: the range is in the list, and nothing of the old
entry is known behind it. -/
theorem Meets.punch_first (m : Meets cache alloc fNew pre fCurr post)
    (hs : fCurr.fceRange.lsrStart < fNew.fceRange.lsrStart)
    (he : fNew.fceRange.lsrEnd < fCurr.fceRange.lsrEnd)
    (hidx : fCurr.fceRange.lsrIndex ≠ fNew.fceRange.lsrIndex) :
    ∃ cache1, fldCacheEntryAdd { cache with nextId := cache.nextId + 1 }
        (cutAt pre fCurr fNew) fNew post = some cache1 ∧
      CacheInv cache1 ∧ cache1.nextId = cache.nextId + 1 ∧ fNew ∈ cache1.fciEntries ∧
      cache.nextId ∉ cache1.fciEntries.map fceId ∧ ∀ seq, cachedAt cache1.fciEntries seq =
        if luSeqRangeWithin fNew.fceRange seq then
          some (fNew.fceRange.lsrIndex, fNew.fceRange.lsrFlags)
        else if fNew.fceRange.lsrEnd ≤ seq ∧ seq < fCurr.fceRange.lsrEnd then none
        else cachedAt cache.fciEntries seq := by
  have hsep := m.curr_post
  have htidy := m.tidy_hole hs he
  obtain ⟨hleft, hright, hbetween⟩ := tidy_append.mp htidy
  have hbump : Linked { cache with nextId := cache.nextId + 1 } :=
    { m.inv with fresh := fun f hf => Nat.lt_succ_of_lt (m.inv.fresh f hf) }
  have hids : (cutAt pre fCurr fNew ++ post).map fceId = cache.fciEntries.map fceId := by
    rw [m.entries]
    simp
  obtain ⟨cache1, hrun, hinv, hloc, hnext, hsub⟩ := fldFixNewList_spec
    (hbump.add _ _ hids m.new (Nat.lt_succ_of_lt m.next)) (hright.fixable.append _ hleft hbetween)
  refine ⟨cache1, hrun, hinv, hnext, ?_, fun hin => ?_, fun seq => ?_⟩
  · exact mem_of_fldFixNewList htidy hrun (mem_append_right _ mem_cons_self)
      (m.isolated_hole hs he hidx)
  · obtain ⟨f, hf, heq⟩ := mem_map.mp hin
    obtain ⟨g, hg, hgeq⟩ := mem_map.mp (hsub f hf)
    have := (m.inv.toLinked.add _ _ hids m.new m.next).fresh g hg
    change g.fceId < cache.nextId at this
    omega
  · rw [hloc]
    by_cases hgap : fNew.fceRange.lsrEnd ≤ seq ∧ seq < fCurr.fceRange.lsrEnd
    · rw [if_neg (by rw [luSeqRangeWithin_iff]; omega), if_pos hgap]
      refine cachedAt_eq_none fun f hf => ?_
      rw [Bool.eq_false_iff, ne_eq, luSeqRangeWithin_iff]
      rcases mem_append.mp hf with hf | hf
      · have := m.before_cut f hf
        have := m.writable.nonempty
        omega
      · rcases mem_cons.mp hf with rfl | hf
        · omega
        · have := hsep f hf
          omega
    · rw [if_neg hgap]
      exact m.cachedAt_cut seq (by omega)

/-- The range falls inside the entry, which is cut into three. -/
theorem Meets.written_punch (m : Meets cache true fNew pre fCurr post)
    (hs : fCurr.fceRange.lsrStart < fNew.fceRange.lsrStart)
    (he : fNew.fceRange.lsrEnd < fCurr.fceRange.lsrEnd)
    (hidx : fCurr.fceRange.lsrIndex ≠ fNew.fceRange.lsrIndex)
    (hmdt : fNew.fceRange.lsrFlags = luSeqRangeMdt) :
    ∃ cache', fldCachePunchHole cache true pre fCurr fNew post = some cache' ∧
      Written cache fNew.fceRange cache' := by
  obtain ⟨cache1, hrun1, hinv1, hnext1, hmem, hfresh, hloc1⟩ := m.punch_first hs he hidx
  obtain ⟨a, b, hab, hsplit⟩ := splitBehind_of_mem hmem hinv1.nodup
  obtain ⟨-, hbtidy, hasep⟩ := tidy_append.mp (hab ▸ hinv1.tidy)
  obtain ⟨hne, hbsep, -⟩ := tidy_cons.mp hbtidy
  have hbefore : ∀ f ∈ a ++ [fNew], f.fceRange.lsrEnd ≤ fNew.fceRange.lsrEnd := by
    refine forall_mem_append.mpr ⟨fun f hf => ?_, forall_mem_singleton.mpr (Nat.le_refl _)⟩
    have := hasep f hf fNew mem_cons_self
    omega
  -- an entry that started in the gap would be seen there
  have hafter : ∀ f ∈ b, fCurr.fceRange.lsrEnd ≤ f.fceRange.lsrStart := by
    intro f hf
    have hfm : f ∈ cache1.fciEntries := by
      rw [hab]
      exact mem_append_right _ (mem_cons_of_mem _ hf)
    have hstart : luSeqRangeWithin f.fceRange f.fceRange.lsrStart = true :=
      luSeqRangeWithin_iff.mpr ⟨Nat.le_refl _, hinv1.tidy.nonempty f hfm⟩
    have hle := hbsep f hf
    by_contra hlt
    have hsee := hloc1 f.fceRange.lsrStart
    rw [hinv1.tidy.cachedAt_of_mem hfm hstart, if_neg (by rw [luSeqRangeWithin_iff]; omega),
      if_pos (by omega)] at hsee
    cases hsee
  obtain ⟨cache2, hrun2, hinv2, hloc2⟩ := fldCacheEntryAdd_gap ⟨cache.nextId,
    ⟨fNew.fceRange.lsrEnd, fCurr.fceRange.lsrEnd, fCurr.fceRange.lsrIndex, 0⟩⟩ hinv1
    (by rw [hab]; simp) hfresh (by rw [hnext1]; exact Nat.lt_succ_self _) he hbefore hafter
  refine ⟨cache2, ?_, hinv2, fun seq => ?_⟩
  · simp only [fldCachePunchHole, not_true_eq_false, if_false, hrun1, Option.bind_some, hsplit]
    exact hrun2
  · rw [hloc2, hloc1]
    simp only [luSeqRangeWithin_iff]
    by_cases hgap : fNew.fceRange.lsrEnd ≤ seq ∧ seq < fCurr.fceRange.lsrEnd
    · -- the third piece has the type of a zeroed structure, which is the right one
      have hcur : luSeqRangeWithin fCurr.fceRange seq = true :=
        luSeqRangeWithin_iff.mpr ⟨by omega, hgap.2⟩
      rw [if_pos hgap, if_neg (by omega), m.inv.tidy.cachedAt_of_mem m.mem_curr hcur, ← m.flags,
        hmdt]
      rfl
    · rw [if_neg hgap, if_neg hgap]

/-! ## The insertion -/

/-- `fld_cache_overlap_handle` writes the range. -/
theorem fldCacheOverlapHandle_spec (m : Meets cache alloc fNew pre fCurr post) :
    ∃ cache', fldCacheOverlapHandle cache alloc pre fCurr fNew post = some cache' ∧
      Written cache fNew.fceRange cache' := by
  have htail := m.writable.noTail fCurr m.mem_curr m.flags.symm
  have hsplit := m.writable.split fCurr m.mem_curr m.flags.symm
  simp only [fldCacheOverlapHandle]
  by_cases hidx : fCurr.fceRange.lsrIndex = fNew.fceRange.lsrIndex
  · rw [if_pos hidx]
    exact m.written_grow hidx
  rw [if_neg hidx]
  rcases Nat.lt_or_ge fCurr.fceRange.lsrStart fNew.fceRange.lsrStart with hs | hs
  · rw [if_neg (by omega)]
    rcases Nat.lt_or_ge fNew.fceRange.lsrEnd fCurr.fceRange.lsrEnd with he | he
    · rw [if_pos ⟨hs, he⟩]
      obtain ⟨rfl, hmdt⟩ := hsplit hidx hs he
      exact m.written_punch hs he hidx hmdt
    · rw [if_neg (by omega), if_neg (by omega), if_pos (by omega), if_neg (by omega)]
      exact m.written_tail hs he
  · rcases Nat.lt_or_ge fNew.fceRange.lsrEnd fCurr.fceRange.lsrEnd with he | he
    · rw [if_neg (by omega), if_neg (by omega), if_pos (by omega), if_neg (by omega)]
      exact m.written_head hs he
    · rw [if_pos ⟨hs, he⟩]
      exact m.written_overshadow hs he

/-- The walk of an insertion, from any place such that everything passed ends
before the range. -/
theorem fldInsertLoop_spec (fNew : FldCacheEntry) (h : CacheInv cache)
    (hnew : fNew.fceId ∉ cache.fciEntries.map fceId) (hnext : fNew.fceId < cache.nextId)
    (hw : Writable alloc cache.fciEntries fNew.fceRange) (post : List FldCacheEntry) :
    ∀ pre, cache.fciEntries = pre ++ post →
      (∀ f ∈ pre, f.fceRange.lsrEnd ≤ fNew.fceRange.lsrStart) →
      ∃ cache', fldInsertLoop cache alloc fNew pre post = some cache' ∧
        Written cache fNew.fceRange cache' := by
  induction post with
  | nil =>
    intro pre hl hbefore
    exact fldCacheEntryAdd_gap fNew h hl hnew hnext hw.nonempty hbefore nofun
  | cons fCurr post ih =>
    intro pre hl hbefore
    have hmem : fCurr ∈ cache.fciEntries := by
      rw [hl]
      exact mem_append_right _ mem_cons_self
    obtain ⟨-, hpost, -⟩ := tidy_append.mp (hl ▸ h.tidy)
    obtain ⟨hcne, hsep, -⟩ := tidy_cons.mp hpost
    rw [fldInsertLoop]
    split
    · next hgap =>
      refine fldCacheEntryAdd_gap fNew h hl hnew hnext hw.nonempty hbefore
        (forall_mem_cons.mpr ⟨by omega, fun f hf => ?_⟩)
      have := hsep f hf
      omega
    · next hgap =>
      split
      · next hov =>
        exact fldCacheOverlapHandle_spec ⟨h, hl, hnew, hnext, hw, hbefore, by omega, hov.1, hov.2⟩
      · next hov =>
        -- the entry is passed: it ends before the range, whatever its type
        have hpass : fCurr.fceRange.lsrEnd ≤ fNew.fceRange.lsrStart := by
          by_cases hfl : fCurr.fceRange.lsrFlags = fNew.fceRange.lsrFlags
          · omega
          · rcases hw.apart fCurr hmem hfl with hle | hle <;> omega
        exact ih (pre ++ [fCurr]) (by rw [hl]; simp)
          (forall_mem_append.mpr ⟨hbefore, forall_mem_singleton.mpr hpass⟩)

end Insert

/-- The cache that an insertion writes to: `fld_cache_insert_nolock` first evicts,
unless told not to. -/
def fldCacheEvicted (cache : FldCache) : FldCache :=
  if cache.fciNoShrink then cache else fldCacheShrink cache

theorem fldCacheEvicted_spec (h : CacheInv cache) :
    CacheInv (fldCacheEvicted cache) ∧ Forgets cache (fldCacheEvicted cache) := by
  rw [fldCacheEvicted]
  split
  · exact ⟨h, List.Sublist.refl _, rfl⟩
  · exact fldCacheShrink_spec h

/-- Handing out an identity first makes no difference to an eviction. -/
theorem fldShrinkLoop_nextId (ids : List ℕ) (n : ℕ) : ∀ cache : FldCache,
    fldShrinkLoop { cache with nextId := n } ids = { fldShrinkLoop cache ids with nextId := n } := by
  induction ids with
  | nil => exact fun _ => rfl
  | cons id ids ih =>
    intro cache
    rw [fldShrinkLoop, fldShrinkLoop]
    split
    · exact ih (fldCacheEntryDelete cache id)
    · rfl

theorem fldCacheEvicted_nextId (cache : FldCache) (n : ℕ) :
    fldCacheEvicted { cache with nextId := n } = { fldCacheEvicted cache with nextId := n } := by
  simp only [fldCacheEvicted, fldCacheShrink]
  split
  · rfl
  · split
    · rfl
    · exact fldShrinkLoop_nextId ..

/-- `fld_cache_insert` writes the range over what the eviction leaves. -/
theorem fldCacheInsert_spec (h : CacheInv cache) {alloc : Bool}
    {range : LuSeqRange} (hw : Writable alloc (fldCacheEvicted cache).fciEntries range) :
    ∃ cache', fldCacheInsert cache alloc range = some cache' ∧
      Written (fldCacheEvicted cache) range cache' := by
  have hsane : luSeqRangeIsSane range = true := by
    simp [luSeqRangeIsSane, Nat.le_of_lt hw.nonempty]
  obtain ⟨⟨⟨hlru, hnd, hcount, hfresh⟩, htidy⟩, -, hnext⟩ := fldCacheEvicted_spec h
  rw [fldCacheInsert, if_neg (not_not.mpr hsane), fldCacheInsertNolock]
  change ∃ cache', fldInsertLoop (fldCacheEvicted _) alloc _ []
    (fldCacheEvicted _).fciEntries = some cache' ∧ _
  rw [fldCacheEvicted_nextId]
  have hinv : CacheInv { fldCacheEvicted cache with nextId := cache.nextId + 1 } :=
    ⟨⟨hlru, hnd, hcount, fun f hf => Nat.lt_succ_of_lt (hnext ▸ hfresh f hf)⟩, htidy⟩
  have hnew : cache.nextId ∉ (fldCacheEvicted cache).fciEntries.map fceId := by
    intro hin
    obtain ⟨f, hf, heq⟩ := mem_map.mp hin
    have := hfresh f hf
    omega
  obtain ⟨cache', hrun, hinv', hloc⟩ := fldInsertLoop_spec ⟨cache.nextId, range⟩ hinv hnew
    (Nat.lt_succ_self _) hw _ [] rfl (forall_mem_nil _)
  exact ⟨cache', hrun, hinv', hloc⟩

end Lustre
