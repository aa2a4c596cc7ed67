import Lustre.Llog
import Mathlib.Data.List.Nodup

/-!
# What writing keeps of a plain log

`LlogInv` says what a log looks like: the records are numbered from one in the order of the
file, none of them crosses a chunk, the set bits are those of the records that were
appended and not cancelled (`kept`), and the header on disk is the one in memory. Appends,
cancels and re-openings keep it, where padding that is needed fits into what is left of the
last chunk and does not take the last index (`llogStep_inv`).
-/

namespace Lustre

open List Pages

variable {reclen : ℕ}

open LlogRec (lrhLen lrhIndex)

open Function (update update_of_ne)

section Inv

variable {α : Type*}

/-- The records of a log, as they lie in the file. -/
structure LlogRecs (c : LlogConf) (recs : List (LlogRec α)) : Prop where
  tiled : Tiled lrhLen c.chunkSize c.chunkSize recs
  /-- no record is shorter than `LLOG_MIN_REC_SIZE` -/
  long : ∀ r ∈ recs, 24 ≤ r.lrhLen
  eight : total lrhLen recs % 8 = 0
  numbered : recs.map lrhIndex = range' 1 recs.length

/-- A log from which `kept` is to be read. -/
structure LlogInv (c : LlogConf) (l : Llog α) (kept : List (ℕ × α)) : Prop where
  disk : ∀ h ∈ l.disk, h = l.lghHdr
  empty : l.disk = none → l.recs = []
  recs : LlogRecs c l.recs
  /-- the last index is that of the last record, unless the log was declared full -/
  last : l.lghLastIdx = l.recs.length ∨ l.lghLastIdx = c.bitmapSize - 1
  tail : l.lghHdr.lrtIndex = l.recs.length
  fits : l.recs.length < c.bitmapSize
  clear : ∀ i, l.recs.length < i → l.lghHdr.llhBitmap i = false
  marked : (l.recs.filter fun r => l.lghHdr.llhBitmap r.lrhIndex).map
    (fun r => (r.lrhIndex, r.data)) = kept.map fun p => (p.1, some p.2)
  count : l.lghHdr.llhCount = kept.length + 1

variable {c : LlogConf} {l : Llog α} {kept : List (ℕ × α)}

theorem LlogConf.chunkSize_ge (c : LlogConf) : 8192 ≤ c.chunkSize :=
  Nat.pow_le_pow_right (by decide : 0 < 2) c.le_chunkBits

theorem LlogConf.eight_dvd_chunkSize (c : LlogConf) : 8 ∣ c.chunkSize := by
  have hbits := c.le_chunkBits
  exact Nat.pow_dvd_pow 2 (show 3 ≤ c.chunkBits by omega)

theorem LlogConf.bitmapSize_ge (c : LlogConf) : 64768 ≤ c.bitmapSize := by
  have hchunk := c.chunkSize_ge
  rw [bitmapSize]
  omega

namespace LlogRecs

variable {recs : List (LlogRec α)}

theorem nil : LlogRecs c ([] : List (LlogRec α)) where
  tiled := trivial
  long := fun _ hmem => absurd hmem not_mem_nil
  eight := rfl
  numbered := rfl

theorem snoc (h : LlogRecs c recs) {r : LlogRec α} (hindex : r.lrhIndex = recs.length + 1)
    (hlong : 24 ≤ r.lrhLen) (height : r.lrhLen % 8 = 0)
    (hfit : total lrhLen recs % c.chunkSize + r.lrhLen ≤ c.chunkSize) :
    LlogRecs c (recs ++ [r]) where
  tiled := by
    refine tiled_append.mpr ⟨h.tiled, ?_, trivial⟩
    rw [Nat.add_mod_left]
    exact hfit
  long := forall_mem_append.mpr ⟨h.long, forall_mem_singleton.mpr hlong⟩
  eight := by
    have hrecs := h.eight
    rw [total_append, total_cons, total_nil]
    omega
  numbered := by
    rw [map_append, h.numbered, length_append, range'_append_1.symm, map_cons,
      hindex, add_comm]
    rfl

theorem index_le (h : LlogRecs c recs) {r : LlogRec α} (hr : r ∈ recs) :
    1 ≤ r.lrhIndex ∧ r.lrhIndex ≤ recs.length := by
  have hmem := mem_map_of_mem (f := lrhIndex) hr
  rw [h.numbered, mem_range'_1] at hmem
  omega

end LlogRecs

namespace LlogInv

theorem last_ge (h : LlogInv c l kept) : l.recs.length ≤ l.lghLastIdx := by
  have hfits := h.fits
  rcases h.last with hlast | hlast <;> omega

theorem left_eq (h : LlogInv c l kept) :
    l.left c = c.chunkSize - total lrhLen l.recs % c.chunkSize := by
  rw [Llog.left, Llog.laSize]
  cases hdisk : l.disk with
  | none =>
    rw [h.empty hdisk]
    rfl
  | some hdr =>
    rw [Nat.add_mod_left]

theorem fresh : LlogInv c (Llog.fresh : Llog α) [] where
  disk := fun _ h => nomatch h
  empty := fun _ => rfl
  recs := .nil
  last := .inl rfl
  tail := rfl
  fits := lt_of_lt_of_le (show 0 < 64768 by decide) c.bitmapSize_ge
  clear := fun i hi => decide_eq_false hi.ne'
  marked := rfl
  count := rfl

/-- A re-opening reads the header that is in memory. -/
theorem reopen (h : LlogInv c l kept) : LlogInv c (llogReopen c l) kept := by
  rw [llogReopen]
  split
  · exact h
  · split
    · next hdisk =>
      have hrecs := h.empty hdisk
      have hkept : kept = [] := by
        have hmarked := h.marked
        rw [hrecs] at hmarked
        exact map_eq_nil_iff.mp hmarked.symm
      subst hkept
      have hlength : l.recs.length = 0 := by rw [hrecs, length_nil]
      exact { h with
        disk := fun hdr hmem => by
          rw [hdisk] at hmem
          exact nomatch hmem
        empty := fun _ => hrecs
        last := .inl hlength.symm
        tail := hlength.symm
        clear := fun i hi => decide_eq_false (Nat.ne_zero_of_lt hi)
        marked := by rw [hrecs]; rfl
        count := rfl }
    · next hdr hdisk =>
      have hhdr := h.disk hdr hdisk
      have hle : ¬ c.bitmapSize < hdr.lrtIndex := by
        rw [hhdr, h.tail]
        exact not_lt.mpr h.fits.le
      rw [if_neg hle, hhdr]
      exact { h with last := .inl h.tail }

theorem declareFull (h : LlogInv c l kept) :
    LlogInv c { l with lghLastIdx := c.bitmapSize - 1 } kept :=
  { h with last := .inr rfl }

end LlogInv

/-- A write of the bitmap word of `index` writes the whole header when only the bit of
`index` has changed. -/
theorem llogWriteHdr_eq {old hdr : LlogHdr} {index : ℕ} {bit : Bool}
    (h : hdr.llhBitmap = update old.llhBitmap index bit) : llogWriteHdr old hdr index = hdr := by
  have hbitmap : (fun i => if i / 32 = index / 32 then hdr.llhBitmap i else old.llhBitmap i) =
      hdr.llhBitmap := by
    funext i
    split
    · rfl
    · next hword =>
      have hne : i ≠ index := fun heq => hword (by rw [heq])
      rw [h, update_of_ne hne]
  rw [llogWriteHdr, hbitmap]

namespace LlogInv

section

variable (h : LlogInv c l kept)
include h

theorem index_le {i : ℕ} (hi : l.lghHdr.llhBitmap i = true) : i ≤ l.recs.length := by
  by_contra hlt
  rw [h.clear i (Nat.lt_of_not_le hlt)] at hi
  cases hi

/-- A record is put behind `pads`, whose indices have no bits. -/
theorem put {pads : List (LlogRec α)} {data : α}
    (hfits : (l.recs ++ pads).length + 1 < c.bitmapSize)
    (hpads : ∀ r ∈ pads, l.recs.length < r.lrhIndex ∧ r.lrhIndex ≤ (l.recs ++ pads).length)
    (hrecs : LlogRecs c (l.recs ++ pads ++ [⟨(l.recs ++ pads).length + 1, reclen, some data⟩])) :
    ∃ l', llogOsdPut c { l with recs := l.recs ++ pads, lghLastIdx := (l.recs ++ pads).length }
        reclen data = some (.written ((l.recs ++ pads).length + 1), l') ∧
      LlogInv c l' (kept ++ [((l.recs ++ pads).length + 1, data)]) := by
  have hle : l.recs.length ≤ (l.recs ++ pads).length := by
    rw [length_append]
    exact Nat.le_add_right _ _
  generalize hn : (l.recs ++ pads).length = n at hfits hpads hrecs hle ⊢
  have hclear : l.lghHdr.llhBitmap (n + 1) = false := h.clear _ (Nat.lt_succ_of_le hle)
  refine ⟨_, if_neg ?_, ?_⟩
  · rintro (hfull | hset)
    · exact absurd hfull (not_le.mpr hfits)
    · exact absurd (hclear.symm.trans hset) Bool.false_ne_true
  have hlength : (l.recs ++ pads ++ [(⟨n + 1, reclen, some data⟩ : LlogRec α)]).length = n + 1 := by
    rw [length_append, hn]
    rfl
  exact {
    disk := by
      rintro hdr hmem
      cases hmem
      cases hdisk : l.disk with
      | none => rfl
      | some old =>
        obtain rfl := h.disk old hdisk
        exact llogWriteHdr_eq rfl
    empty := fun hnone => nomatch hnone
    recs := hrecs
    last := .inl hlength.symm
    tail := hlength.symm
    fits := lt_of_eq_of_lt hlength hfits
    clear := by
      intro i hi
      rw [hlength] at hi
      change update _ _ _ i = _
      rw [update_of_ne hi.ne']
      exact h.clear i (by omega)
    marked := by
      -- the bits of the records before are as they were, the pads have none
      have hold : ∀ r ∈ l.recs, update l.lghHdr.llhBitmap (n + 1) true r.lrhIndex =
          l.lghHdr.llhBitmap r.lrhIndex := fun r hr =>
        update_of_ne (by have := h.recs.index_le hr; omega) _ _
      have hnone : ∀ r ∈ pads, ¬ update l.lghHdr.llhBitmap (n + 1) true r.lrhIndex = true := by
        intro r hr hset
        obtain ⟨hgt, hlast⟩ := hpads r hr
        rw [update_of_ne (by omega), h.clear _ hgt] at hset
        cases hset
      have hnew : ([⟨n + 1, reclen, some data⟩] : List (LlogRec α)).filter
          (fun r => update l.lghHdr.llhBitmap (n + 1) true r.lrhIndex) =
          [⟨n + 1, reclen, some data⟩] := by
        simp
      rw [filter_append, filter_append, filter_congr hold,
        filter_eq_nil_iff.mpr hnone, append_nil, map_append, h.marked, map_append, hnew]
      rfl
    count := by
      rw [h.count, length_append]
      rfl }

/-- Cancelling takes the record of the index away. -/
theorem filter_cancelled (i : ℕ) :
    (l.recs.filter fun r => update l.lghHdr.llhBitmap i false r.lrhIndex).map
        (fun r => (r.lrhIndex, r.data)) =
      (kept.filter fun p => p.1 ≠ i).map fun p => (p.1, some p.2) := by
  have hfilter : (fun r : LlogRec α => update l.lghHdr.llhBitmap i false r.lrhIndex) =
      fun r => decide (r.lrhIndex ≠ i) && l.lghHdr.llhBitmap r.lrhIndex := by
    funext r
    rcases eq_or_ne r.lrhIndex i with heq | hne
    · rw [heq, Function.update_self, decide_eq_false (not_not_intro rfl), Bool.false_and]
    · rw [update_of_ne hne, decide_eq_true hne, Bool.true_and]
  have hpairs := congrArg (filter fun p => decide (p.1 ≠ i)) h.marked
  rw [filter_map, filter_map] at hpairs
  rw [hfilter, ← filter_filter]
  exact hpairs

theorem fst_kept : (l.recs.filter fun r => l.lghHdr.llhBitmap r.lrhIndex).map lrhIndex =
    kept.map Prod.fst := by
  have hfst := congrArg (map Prod.fst) h.marked
  rwa [map_map, map_map] at hfst

/-- The indices of what is kept are those of the set bits. -/
theorem mem_kept {i : ℕ} : i ∈ kept.map Prod.fst ↔ 1 ≤ i ∧ l.lghHdr.llhBitmap i = true := by
  rw [← h.fst_kept, mem_map]
  constructor
  · rintro ⟨r, hr, rfl⟩
    obtain ⟨hmem, hset⟩ := mem_filter.mp hr
    exact ⟨(h.recs.index_le hmem).1, hset⟩
  · rintro ⟨hpos, hset⟩
    have hmem : i ∈ l.recs.map lrhIndex := by
      rw [h.recs.numbered, mem_range'_1]
      have hle := h.index_le hset
      omega
    obtain ⟨r, hr, rfl⟩ := mem_map.mp hmem
    exact ⟨r, mem_filter.mpr ⟨hr, hset⟩, rfl⟩

theorem nodup_kept : (kept.map Prod.fst).Nodup := by
  rw [← h.fst_kept]
  have hnodup : (l.recs.map lrhIndex).Nodup := by
    rw [h.recs.numbered]
    exact nodup_range'
  exact hnodup.sublist (filter_sublist.map _)

/-- A record whose bit is not set is not among those that are kept. -/
theorem filter_kept {i : ℕ}
    (hi : i = 0 ∨ l.lghHdr.llhBitmap i = false) : (kept.filter fun p => p.1 ≠ i) = kept := by
  refine filter_eq_self.mpr fun p hp => decide_eq_true ?_
  rintro rfl
  obtain ⟨hpos, hset⟩ := h.mem_kept.mp (mem_map_of_mem hp)
  rcases hi with hzero | hclear
  · omega
  · exact absurd (hclear.symm.trans hset) Bool.false_ne_true

theorem length_filter_kept {i : ℕ} (hpos : 1 ≤ i) (hset : l.lghHdr.llhBitmap i = true) :
    kept.length = (kept.filter fun p => p.1 ≠ i).length + 1 := by
  have hone : (kept.map Prod.fst).count i = 1 :=
    count_eq_one_of_mem h.nodup_kept (h.mem_kept.mpr ⟨hpos, hset⟩)
  rw [List.count, List.countP_map] at hone
  have hcount := length_eq_countP_add_countP (l := kept) fun p => decide (p.1 ≠ i)
  rw [hcount, countP_eq_length_filter, Nat.add_left_cancel_iff, ← hone]
  refine countP_congr fun p _ => ?_
  simp

theorem cancel (i : ℕ) (notCurrent : Bool) :
    LlogInv c (l.llogCancelRec c i notCurrent).2 (kept.filter fun p => p.1 ≠ i) := by
  rw [Llog.llogCancelRec]
  split
  · next hzero =>
    rw [h.filter_kept (.inl hzero)]
    exact h
  · next hpos =>
    split
    · next hset =>
      have hlength := h.length_filter_kept (Nat.one_le_iff_ne_zero.mpr hpos) hset
      have hcancelled : ∀ destroyed, LlogInv c { l with
            lghHdr := { l.lghHdr with
              llhBitmap := update l.lghHdr.llhBitmap i false
              llhCount := l.lghHdr.llhCount - 1 }
            disk := l.disk.map fun old =>
              { llogWriteHdr old { l.lghHdr with
                  llhBitmap := update l.lghHdr.llhBitmap i false
                  llhCount := l.lghHdr.llhCount - 1 } i with lrtIndex := old.lrtIndex }
            destroyed := destroyed } (kept.filter fun p => p.1 ≠ i) := fun _ => { h with
        disk := by
          intro hdr hmem
          obtain ⟨old, hold, rfl⟩ := Option.map_eq_some_iff.mp hmem
          obtain rfl := h.disk old hold
          rw [llogWriteHdr_eq rfl]
        empty := fun hnone => h.empty (Option.map_eq_none_iff.mp hnone)
        clear := by
          intro j hj
          have hne : j ≠ i := fun heq => absurd (h.index_le (heq ▸ hset)) (not_le.mpr hj)
          change update _ _ _ j = _
          rw [update_of_ne hne]
          exact h.clear j hj
        marked := h.filter_cancelled i
        count := by
          rw [h.count, hlength]
          rfl }
      dsimp only
      split
      · exact hcancelled true
      · exact hcancelled l.destroyed
    · next hclear =>
      rw [h.filter_kept (.inr (Bool.eq_false_of_not_eq_true hclear))]
      exact h

end

end LlogInv

/-! ## Runs -/

/-- A log, and what should be read from it. -/
structure LlogRun (α : Type*) where
  log : Llog α
  /-- the records that were appended and not cancelled, with their indices -/
  kept : List (ℕ × α)

/-- An operation on a log. -/
inductive LlogOp (α : Type*) where
  /-- `llog_osd_write_rec` -/
  | append (reclen : ℕ) (data : α)
  /-- `llog_cancel_rec` -/
  | cancel (index : ℕ) (notCurrent : Bool)
  /-- the log is closed and opened -/
  | reopen
  deriving DecidableEq

/-- What is kept after an append that returned `rc`. -/
def LlogRc.appended (rc : LlogRc) (data : α) (kept : List (ℕ × α)) : List (ℕ × α) :=
  match rc with
  | .written index => kept ++ [(index, data)]
  | _ => kept

/-- The steps. -/
def llogStep (c : LlogConf) (s : LlogRun α) : LlogOp α → Option (LlogRun α)
  | .append reclen data =>
    (llogOsdWriteRec c s.log reclen data).map fun r => ⟨r.2, r.1.appended data s.kept⟩
  | .cancel index notCurrent =>
    some ⟨(s.log.llogCancelRec c index notCurrent).2, s.kept.filter fun p => p.1 ≠ index⟩
  | .reopen => some ⟨llogReopen c s.log, s.kept⟩

/-- The lengths that records may have. -/
def LlogUse (c : LlogConf) (_ : LlogRun α) : LlogOp α → Prop
  | .append reclen _ => reclen % 8 = 0 ∧ 24 ≤ reclen ∧ reclen ≤ c.chunkSize
  | _ => True

/-- Where padding is needed, a padding record fits into what is left of the last chunk, there
are indices for it and for the record, and the file is not empty (the header would be written
over the padding). -/
def LlogSpared (c : LlogConf) (s : LlogRun α) : LlogOp α → Prop
  | .append reclen _ => s.log.needsPad c reclen →
      24 ≤ s.log.left c ∧ s.log.lghLastIdx + 2 < c.bitmapSize ∧ s.log.disk.isSome = true
  | _ => True

instance (c : LlogConf) (s : LlogRun α) (op : LlogOp α) : Decidable (LlogUse c s op) := by
  cases op <;> dsimp only [LlogUse] <;> infer_instance

instance (c : LlogConf) (s : LlogRun α) (op : LlogOp α) : Decidable (LlogSpared c s op) := by
  cases op <;> dsimp only [LlogSpared] <;> infer_instance

/-- The run starts with an empty file. -/
def LlogRun.init : LlogRun α := ⟨.fresh, []⟩

section

variable (h : LlogInv c l kept)
include h

/-- What is left of the last chunk is a multiple of eight. -/
theorem LlogInv.left_eight : l.left c % 8 = 0 := by
  have height : total lrhLen l.recs % c.chunkSize % 8 = 0 := by
    rw [Nat.mod_mod_of_dvd _ c.eight_dvd_chunkSize]
    exact h.recs.eight
  have hdvd : c.chunkSize % 8 = 0 := Nat.mod_eq_zero_of_dvd c.eight_dvd_chunkSize
  rw [h.left_eq]
  omega

theorem LlogInv.total_pad (index : ℕ) :
    total lrhLen (l.recs ++ [⟨index, l.left c, none⟩]) % c.chunkSize = 0 := by
  have hlt := Nat.mod_lt (total lrhLen l.recs) (Nat.zero_lt_of_lt c.chunkSize_ge)
  rw [total_append, total_cons, total_nil, add_zero, ← Nat.mod_add_mod, h.left_eq,
    Nat.add_sub_cancel' hlt.le, Nat.mod_self]

theorem LlogInv.append_pad (data : α)
    (height : reclen % 8 = 0) (hlong : 24 ≤ reclen) (hle : reclen ≤ c.chunkSize)
    (hpad : l.needsPad c reclen) (hroom : 24 ≤ l.left c) (hlast : l.lghLastIdx + 2 < c.bitmapSize)
    (hdisk : l.disk.isSome = true) :
    ∃ l1 l' index, llogOsdPad c l reclen = some l1 ∧ l1.lghLastIdx + 1 < c.bitmapSize ∧
      llogOsdPut c l1 reclen data = some (.written index, l') ∧
      LlogInv c l' (kept ++ [(index, data)]) := by
  have hidx : l.lghLastIdx = l.recs.length := h.last.resolve_right (by omega)
  have hleft := h.left_eq
  have hpads : LlogRecs c (l.recs ++ [⟨l.recs.length + 1, l.left c, none⟩]) :=
    h.recs.snoc rfl hroom h.left_eight (by dsimp only; omega)
  have hfull := h.total_pad (l.recs.length + 1)
  have hrecs := hpads.snoc (r := ⟨_, reclen, some data⟩) rfl hlong height (by dsimp only; omega)
  obtain ⟨l', hput, hinv⟩ := h.put (by
    rw [length_append, length_singleton]
    omega) (by
    intro r hr
    obtain rfl := mem_singleton.mp hr
    rw [length_append, length_singleton]
    exact ⟨Nat.lt_succ_self _, le_rfl⟩) hrecs
  refine ⟨_, l', _, ?_, ?_, hput, hinv⟩
  · rw [llogOsdPad, if_pos hpad, if_pos ⟨hroom, h.left_eight⟩,
      if_neg (by simpa using Option.isSome_iff_ne_none.mp hdisk), hidx,
      length_append]
    rfl
  · change (l.recs ++ [_]).length + 1 < _
    rw [length_append, length_singleton]
    omega

/-- An append within the condition returns, and keeps the invariant. -/
theorem LlogInv.append {data : α} (huse : LlogUse c ⟨l, kept⟩ (.append reclen data))
    (hspared : LlogSpared c ⟨l, kept⟩ (.append reclen data)) :
    ∃ rc l', llogOsdWriteRec c l reclen data = some (rc, l') ∧
      LlogInv c l' (rc.appended data kept) := by
  obtain ⟨height, hlong, hle⟩ := huse
  rw [llogOsdWriteRec]
  split
  · exact ⟨_, _, rfl, h⟩
  · rw [if_neg (not_lt.mpr hle)]
    split
    · exact ⟨_, _, rfl, h.declareFull⟩
    · by_cases hpad : l.needsPad c reclen
      · obtain ⟨hroom, hlast, hdisk⟩ := hspared hpad
        obtain ⟨l1, l', index, hpadded, hfits, hput, hinv⟩ :=
          h.append_pad data height hlong hle hpad hroom hlast hdisk
        rw [hpadded, Option.bind_some, if_neg (by omega)]
        exact ⟨_, l', hput, hinv⟩
      · rw [llogOsdPad, if_neg hpad, Option.bind_some]
        split
        · exact ⟨_, _, rfl, h⟩
        · next hfull =>
          have hidx : l.lghLastIdx = l.recs.length := h.last.resolve_right (by omega)
          rw [Llog.needsPad, h.left_eq] at hpad
          have hrecs := h.recs.snoc (r := ⟨_, reclen, some data⟩) rfl hlong height
            (by dsimp only; omega)
          rw [← append_nil l.recs] at hrecs
          obtain ⟨l', hput, hinv⟩ := h.put (by
            rw [append_nil]
            omega) (fun r hr => absurd hr not_mem_nil) hrecs
          rw [append_nil, ← hidx] at hput hinv
          exact ⟨_, l', hput, hinv⟩

end

/-- A step within the condition does not stop, and keeps the invariant. -/
theorem llogStep_inv {s : LlogRun α} {op : LlogOp α} (h : LlogInv c s.log s.kept)
    (huse : LlogUse c s op) (hspared : LlogSpared c s op) :
    ∃ s', llogStep c s op = some s' ∧ LlogInv c s'.log s'.kept := by
  cases op with
  | append reclen data =>
    obtain ⟨rc, l', hwrite, hinv⟩ := h.append huse hspared
    refine ⟨⟨l', rc.appended data s.kept⟩, ?_, hinv⟩
    rw [llogStep, hwrite]
    rfl
  | cancel index notCurrent => exact ⟨_, rfl, h.cancel index notCurrent⟩
  | reopen => exact ⟨_, rfl, h.reopen⟩

/-- The invariant holds in every state of a run within the condition. -/
theorem LlogInv.of_reach {s : LlogRun α}
    (h : Reach (llogStep c) (fun s op => LlogUse c s op ∧ LlogSpared c s op) .init s) :
    LlogInv c s.log s.kept := by
  refine Reach.invariant (fun s => LlogInv c s.log s.kept) fresh ?_ h
  rintro s op s' hinv ⟨huse, hspared⟩ hstep
  obtain ⟨t, ht, hinv'⟩ := llogStep_inv hinv huse hspared
  cases hstep.symm.trans ht
  exact hinv'

end Inv

end Lustre
