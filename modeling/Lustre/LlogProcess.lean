import Lustre.LlogInv
import Mathlib.Data.List.Induction

/-!
# What processing reads from a plain log

`llog_osd_next_block` finds the chunk of the record it is asked for, whatever the guess from
the smallest record size was: a guess that went too far is made again with the smallest size
there is, and that one cannot (`llogNextLoop_spec`). So a pass over the chunks visits the
records with a set bit, in their order (`llogProcessLoop_spec`), and a pass from the end
visits them in the opposite order (`llogReverseLoop_spec`). With `LlogInv` these are the
records that were appended and not cancelled (`llog_roundTrip`).

Two ways out of the invariant are at the end: a record that leaves 8 bytes of a chunk, where
the next append fails an assertion of `llog_osd_pad`, and padding that takes the last index.
-/

namespace Lustre

open Pages

open LlogRec (lrhLen lrhIndex)

open List

section Process

variable {α : Type*} {c : LlogConf} {l : Llog α} {kept : List (ℕ × α)}
  {recs before on after pre mid post done rest skipped seg : List (LlogRec α)} {r : LlogRec α}

/-- The records that the callback is called with: those whose bits are set. -/
def Llog.called (l : Llog α) (recs : List (LlogRec α)) : List (LlogRec α) :=
  recs.filter fun r => l.lghHdr.llhBitmap r.lrhIndex

@[simp]
theorem Llog.called_nil (l : Llog α) : l.called [] = [] := rfl

@[simp]
theorem Llog.called_append (l : Llog α) (recs recs' : List (LlogRec α)) :
    l.called (recs ++ recs') = l.called recs ++ l.called recs' := filter_append ..

theorem Llog.called_cons (l : Llog α) (r : LlogRec α) (recs : List (LlogRec α)) :
    l.called (r :: recs) =
      (if l.lghHdr.llhBitmap r.lrhIndex then [r] else []) ++ l.called recs := by
  rw [called, filter_cons]
  split <;> rfl

/-! ## Chunks -/

/-- A chunk of a log: the records before it, in it and behind it. -/
structure LlogChunk (c : LlogConf) (l : Llog α) (before on after : List (LlogRec α)) : Prop where
  recs : l.recs = before ++ on ++ after
  start : c.chunkSize ∣ total lrhLen before
  short : total lrhLen on ≤ c.chunkSize
  full : after = [] ∨ c.chunkSize ∣ total lrhLen (before ++ on)

section

variable (h : LlogRecs c recs) (hrecs : recs = pre ++ mid ++ post)
include h hrecs

/-- The indices of a stretch of the records. -/
theorem LlogRecs.map_index : mid.map lrhIndex = range' (pre.length + 1) mid.length := by
  have hnumbered := h.numbered
  rw [hrecs, append_assoc, map_append, map_append, length_append,
    length_append, ← range'_append_1, ← range'_append_1] at hnumbered
  have hright := append_inj_right hnumbered (by rw [length_map, length_range'])
  rw [append_inj_left hright (by rw [length_map, length_range']), add_comm]

omit h hrecs in
theorem LlogRecs.index_eq (h : LlogRecs c recs) (hrecs : recs = pre ++ r :: post) :
    r.lrhIndex = pre.length + 1 := by
  rw [append_cons] at hrecs
  exact (cons.inj (h.map_index hrecs)).1

/-- A stretch of the records without a set bit. -/
theorem LlogRecs.called_eq_nil (hclear : ∀ i, pre.length + 1 ≤ i → i < (pre ++ mid).length + 1 →
      l.lghHdr.llhBitmap i = false) : l.called mid = [] := by
  refine filter_eq_nil_iff.mpr fun r hr hset => ?_
  have hmem := mem_map_of_mem (f := lrhIndex) hr
  rw [h.map_index hrecs, mem_range'_1] at hmem
  rw [hclear r.lrhIndex hmem.1 (by rw [length_append]; omega)] at hset
  cases hset

end

theorem LlogInv.laSize_eq (h : LlogInv c l kept) (hne : l.recs ≠ []) :
    l.laSize c = c.chunkSize + total lrhLen l.recs := by
  rw [Llog.laSize]
  cases hdisk : l.disk with
  | none => exact absurd (h.empty hdisk) hne
  | some hdr => rfl

/-- The last record of a chunk, as `llog_osd_next_block` takes it. -/
theorem LlogChunk.getLast_index {first : LlogRec α}
    (h : LlogChunk c l before (first :: rest) after) (hinv : LlogRecs c l.recs) :
    ((first :: rest).getLast (cons_ne_nil _ _)).lrhIndex = (before ++ (first :: rest)).length := by
  have hne := cons_ne_nil first rest
  have hsplit : l.recs = before ++ (first :: rest).dropLast ++
      (first :: rest).getLast hne :: after := by
    rw [h.recs, append_assoc before (dropLast _), append_assoc before]
    congr 1
    rw [append_cons (dropLast _), dropLast_append_getLast]
  rw [hinv.index_eq hsplit, length_append, length_append, length_dropLast]
  rfl

/-- The offset of a chunk that is not full, and how far it is filled. -/
theorem LlogChunk.offset (h : LlogChunk c l before on after)
    (hpart : (c.chunkSize + total lrhLen (before ++ on)) % c.chunkSize ≠ 0) :
    c.chunkSize + total lrhLen (before ++ on) -
        (c.chunkSize + total lrhLen (before ++ on)) % c.chunkSize =
      c.chunkSize + total lrhLen before ∧
    (c.chunkSize + total lrhLen (before ++ on)) % c.chunkSize = total lrhLen on := by
  obtain ⟨k, hk⟩ := h.start
  have hshort := h.short
  rw [Nat.add_mod_left, total_append, hk, Nat.mul_add_mod] at hpart ⊢
  have hlt : total lrhLen on < c.chunkSize := by
    refine lt_of_le_of_ne hshort fun heq => hpart ?_
    rw [heq, Nat.mod_self]
  rw [Nat.mod_eq_of_lt hlt]
  omega

theorem LlogChunk.exists_skipped (h : LlogChunk c l before on after)
    (hpre : l.recs = pre ++ r :: post) (hle : before.length ≤ pre.length)
    (hlt : pre.length < (before ++ on).length) :
    ∃ skipped seg, pre = before ++ skipped ∧ on = skipped ++ seg ∧ seg ≠ [] := by
  have hrecs := h.recs
  obtain ⟨skipped, rfl⟩ := prefix_of_prefix_length_le
    ⟨on ++ after, (append_assoc _ _ _).symm.trans hrecs.symm⟩ ⟨r :: post, hpre.symm⟩ hle
  obtain ⟨seg, hseg⟩ := prefix_of_prefix_length_le ⟨r :: post, hpre.symm⟩ ⟨after, hrecs.symm⟩ hlt.le
  rw [append_assoc, append_cancel_left_eq] at hseg
  refine ⟨skipped, seg, rfl, hseg.symm, ?_⟩
  rintro rfl
  rw [append_nil] at hseg
  rw [hseg] at hlt
  exact absurd hlt (lt_irrefl _)

theorem LlogInv.exists_rec (h : LlogInv c l kept) {i : ℕ} (hpos : 1 ≤ i)
    (hset : l.lghHdr.llhBitmap i = true) :
    ∃ pre r post, l.recs = pre ++ r :: post ∧ pre.length + 1 = i := by
  have hle := h.index_le hset
  have hlt : i - 1 < l.recs.length := by omega
  refine ⟨l.recs.take (i - 1), l.recs[i - 1], l.recs.drop (i - 1 + 1), ?_, ?_⟩
  · rw [← drop_eq_getElem_cons hlt, take_append_drop]
  · rw [length_take]
    omega

/-- A record lies before the end of the file. -/
theorem LlogInv.add_total_lt (h : LlogInv c l kept) (hpre : l.recs = pre ++ r :: post) :
    l.recs ≠ [] ∧ c.chunkSize + total lrhLen pre < l.laSize c := by
  have hmem : r ∈ l.recs := by
    rw [hpre]
    exact mem_append_right _ mem_cons_self
  have hlong := h.recs.long r hmem
  refine ⟨ne_nil_of_mem hmem, ?_⟩
  rw [h.laSize_eq (ne_nil_of_mem hmem), hpre, total_append, total_cons]
  omega

section

variable (h : LlogChunk c l before on after)
include h

/-- A chunk that starts before a record, or at it, has no record after it before it. -/
theorem LlogChunk.length_le (hinv : LlogRecs c l.recs) (hpre : l.recs = pre ++ r :: post)
    (hle : total lrhLen before ≤ total lrhLen pre) :
    before.length ≤ pre.length := by
  have hsplit : before ++ (on ++ after) = pre ++ r :: post := by
    rw [← append_assoc, ← h.recs, hpre]
  refine length_le_of_total_le (fun q hq => ?_) hsplit hle
  have hlong := hinv.long q (by
    rw [h.recs]
    exact mem_append_left _ (mem_append_left _ hq))
  omega

/-- A chunk before a record is full, and the record lies behind it. -/
theorem LlogChunk.before_rec (hpre : l.recs = pre ++ r :: post)
    (hle : (before ++ on).length ≤ pre.length) : c.chunkSize ∣ total lrhLen (before ++ on) ∧
      total lrhLen (before ++ on) ≤ total lrhLen pre := by
  obtain ⟨way, hway⟩ := prefix_of_prefix_length_le ⟨after, h.recs.symm⟩ ⟨r :: post, hpre.symm⟩ hle
  have hafter : after ≠ [] := by
    rintro rfl
    have hlength := congrArg length (hpre.symm.trans h.recs)
    rw [append_nil, length_append, length_cons] at hlength
    omega
  refine ⟨h.full.resolve_left hafter, ?_⟩
  rw [← hway, total_append (before ++ on)]
  exact Nat.le_add_right _ _

end

/-- What is read at the start of a chunk. -/
theorem LlogInv.exists_chunk (h : LlogInv c l kept) {off : ℕ} (hdvd : c.chunkSize ∣ off)
    (hle : c.chunkSize ≤ off) (hne : l.recs ≠ []) (hlt : off < l.laSize c) :
    ∃ before first rest after, LlogChunk c l before (first :: rest) after ∧
      c.chunkSize + total lrhLen before = off ∧
      llogRead c l off = .ok (first :: rest) ∧ first.lrhIndex = before.length + 1 ∧
      min (off + c.chunkSize) (l.laSize c) =
        c.chunkSize + total lrhLen (before ++ (first :: rest)) ∧
      off < c.chunkSize + total lrhLen (before ++ (first :: rest)) ∧
      before.length < (before ++ (first :: rest)).length := by
  have hchunk := c.chunkSize_ge
  have hsize := h.laSize_eq hne
  obtain ⟨before, on, after, hrecs, hstart, hat, hon, hpage, hafter⟩ :=
    h.recs.tiled.exists_page (by omega) hdvd hle (by rw [← hsize]; exact hlt)
  obtain ⟨first, rest, rfl⟩ := exists_cons_of_ne_nil hon
  have htotal := congrArg (total lrhLen) hrecs
  have hbefore : c.chunkSize ∣ total lrhLen before :=
    (Nat.dvd_add_right (Nat.dvd_refl _)).mp (by rw [hstart]; exact hdvd)
  have hfirst := h.recs.long first (by
    rw [hrecs]
    exact mem_append_left _ (mem_append_right _ mem_cons_self))
  refine ⟨before, first, rest, after, ⟨hrecs, hbefore, hpage, hafter.imp_right ?_⟩, hstart, ?_,
    h.recs.index_eq (hrecs.trans (append_assoc _ _ _)), ?_, ?_, ?_⟩
  · intro hfull
    rw [total_append, hfull]
    exact Nat.dvd_add hbefore (Nat.dvd_refl _)
  · rw [llogRead, if_neg (by omega), if_neg (by omega), hat]
  · rw [total_append] at htotal
    rcases hafter with rfl | hfull
    · rw [hsize, htotal, total_nil, total_append]
      omega
    · rw [hsize, htotal, total_append]
      omega
  · rw [total_append, total_cons]
    omega
  · rw [length_append, length_cons]
    omega

/-! ## The next block -/

/-- Where `llog_skip_over` goes from the record behind `done` on the way to `r`. -/
theorem LlogInv.skipOver (h : LlogInv c l kept) (hpre : l.recs = pre ++ r :: post)
    (hdone : l.recs = done ++ rest)
    (hdvd : c.chunkSize ∣ total lrhLen done) (hle : done.length ≤ pre.length) (force : Bool) :
    ∃ off, llogSkipOver c l (c.chunkSize + total lrhLen done) done.length
        (pre.length + 1) force = off ∧ c.chunkSize ∣ off ∧ c.chunkSize + total lrhLen done ≤ off ∧
      (force = true → off ≤ c.chunkSize + total lrhLen pre) := by
  have hlength := congrArg length hpre
  rw [length_append, length_cons] at hlength
  have hlast := h.last_ge
  refine ⟨_, rfl, ?_⟩
  rw [llogSkipOver, if_neg (by omega : ¬ l.lghLastIdx < pre.length + 1),
    if_pos (by omega : done.length < pre.length + 1)]
  refine ⟨Nat.dvd_sub_mod _, le_sub_mod (Nat.dvd_add (Nat.dvd_refl _) hdvd)
    (Nat.le_add_right _ _), ?_⟩
  rintro rfl
  -- the records on the way have the smallest size at least
  obtain ⟨way, rfl⟩ :=
    prefix_of_prefix_length_le ⟨rest, hdone.symm⟩ ⟨r :: post, hpre.symm⟩ hle
  have hway : way.length * 24 ≤ total lrhLen way := by
    refine mul_length_le_total fun q hq => h.recs.long q ?_
    rw [hpre]
    exact mem_append_left _ (mem_append_right _ hq)
  rw [if_neg (fun hand => Bool.noConfusion hand.2), total_append, length_append]
  refine (Nat.sub_le _ _).trans ?_
  omega

/-- `llog_osd_next_block` returns the chunk of `r`. -/
theorem LlogInv.llogNextLoop_spec (h : LlogInv c l kept) (hpre : l.recs = pre ++ r :: post)
    (fuel : ℕ) : ∀ {done rest : List (LlogRec α)} (force : Bool),
      l.recs = done ++ rest → c.chunkSize ∣ total lrhLen done → done.length ≤ pre.length →
      l.laSize c - (c.chunkSize + total lrhLen done) + (if force then 0 else l.laSize c) ≤ fuel →
      ∃ before on after, LlogChunk c l before on after ∧ before.length ≤ pre.length ∧
        pre.length < (before ++ on).length ∧ llogNextLoop c l (pre.length + 1) fuel done.length
          (c.chunkSize + total lrhLen done) force =
          ⟨0, (before ++ on).length, c.chunkSize + total lrhLen (before ++ on), on⟩ := by
  obtain ⟨hne, hbehind⟩ := h.add_total_lt hpre
  have hlt : ∀ {done rest : List (LlogRec α)}, l.recs = done ++ rest →
      done.length ≤ pre.length → c.chunkSize + total lrhLen done < l.laSize c := by
    intro done rest hdone hle
    obtain ⟨way, rfl⟩ :=
      prefix_of_prefix_length_le ⟨rest, hdone.symm⟩ ⟨r :: post, hpre.symm⟩ hle
    rw [total_append] at hbehind
    omega
  induction fuel with
  | zero =>
    intro done rest force hdone hdvd hle hfuel
    have := hlt hdone hle
    omega
  | succ fuel ih =>
    intro done rest force hdone hdvd hle hfuel
    have hmore := hlt hdone hle
    obtain ⟨off, hskip, hoff, hge, hforce⟩ := h.skipOver hpre hdone hdvd hle force
    -- a guess that went too far is made again
    have hretry : force = false → ∃ before on after, LlogChunk c l before on after ∧
        before.length ≤ pre.length ∧ pre.length < (before ++ on).length ∧
        llogNextLoop c l (pre.length + 1) fuel done.length (c.chunkSize + total lrhLen done) true =
          ⟨0, (before ++ on).length, c.chunkSize + total lrhLen (before ++ on), on⟩ := by
      rintro rfl
      refine ih true hdone hdvd hle ?_
      rw [if_neg Bool.false_ne_true] at hfuel
      rw [if_pos rfl]
      omega
    rw [llogNextLoop, if_pos hmore, hskip]
    dsimp only
    by_cases hread : off < l.laSize c
    · obtain ⟨before, first, rest', after, hchunk, hstart, hread, hfirst, hnext, hmoved, hlonger⟩ :=
        h.exists_chunk hoff (by omega) hne hread
      rw [hread]
      dsimp only
      rw [hchunk.getLast_index h.recs, hnext, hfirst, if_neg (by omega)]
      split
      · next hbefore =>
        -- the record is behind this chunk, which is full then
        have hfull := (hchunk.before_rec hpre (Nat.le_of_lt_succ hbefore)).1
        exact ih force hchunk.recs hfull (by omega) (by omega)
      · next hreached =>
        split
        · next hover =>
          cases force with
          | false =>
            rw [if_pos ⟨rfl, by omega⟩]
            exact hretry rfl
          | true =>
            -- the smallest record size does not go too far
            have hnot := hforce rfl
            have hle' := hchunk.length_le h.recs hpre (by omega)
            omega
        · exact ⟨before, first :: rest', after, hchunk, by omega, by omega, rfl⟩
    · cases force with
      | false =>
        rcases Nat.lt_or_eq_of_le (Nat.le_of_not_lt hread) with hgt | heq
        · rw [llogRead, if_pos hgt]
          exact hretry rfl
        · rw [llogRead, if_neg (lt_irrefl _ <| heq ▸ ·), if_pos heq]
          exact hretry rfl
      | true =>
        have hnot := hforce rfl
        omega

/-! ## Forwards -/

theorem llogNextSet_spec (l : Llog α) {last fuel index : ℕ} (hfuel : fuel = last + 1 - index) :
    ∃ next, llogNextSet l last fuel index = next ∧ index ≤ next ∧
      (∀ i, index ≤ i → i < next → l.lghHdr.llhBitmap i = false) ∧
      (last < next ∨ l.lghHdr.llhBitmap next = true) := by
  induction fuel generalizing index with
  | zero => exact ⟨index, rfl, le_rfl, fun i hi hlt => by omega, .inl (by omega)⟩
  | succ fuel ih =>
    rw [llogNextSet]
    by_cases hclear : index ≤ last ∧ l.lghHdr.llhBitmap index = false
    · rw [if_pos hclear]
      obtain ⟨next, hnext, hle, hbetween, hend⟩ := ih (show fuel = last + 1 - (index + 1) by omega)
      refine ⟨next, hnext, by omega, fun i hi hlt => ?_, hend⟩
      rcases Nat.lt_or_eq_of_le hi with hgt | rfl
      · exact hbetween i hgt hlt
      · exact hclear.2
    · rw [if_neg hclear]
      refine ⟨index, rfl, le_rfl, fun i hi hlt => by omega, .inr ?_⟩
      exact Bool.eq_true_of_not_eq_false fun hfalse => hclear ⟨by omega, hfalse⟩

/-- Records before the index are passed over. -/
theorem llogScan_append {last index : ℕ}
    (hlen : ∀ r ∈ skipped, ¬ (r.lrhLen = 0 ∨ c.chunkSize < r.lrhLen))
    (hindex : ∀ r ∈ skipped, r.lrhIndex < index) :
    llogScan c l last index (skipped ++ recs) = llogScan c l last index recs := by
  induction skipped with
  | nil => rfl
  | cons r skipped ih =>
    rw [cons_append, llogScan, if_neg (hlen r mem_cons_self), if_pos (hindex r mem_cons_self)]
    exact ih (forall_mem_cons.mp hlen).2 (forall_mem_cons.mp hindex).2

/-- The records from the index on are passed to the callback where their bits are set. -/
theorem llogScan_spec {last index : ℕ}
    (hlen : ∀ r ∈ recs, ¬ (r.lrhLen = 0 ∨ c.chunkSize < r.lrhLen))
    (hindex : recs.map lrhIndex = range' index recs.length)
    (hcount : l.lghHdr.llhCount ≠ 1) (hlast : index + recs.length ≤ last + 1) :
    (llogScan c l last index recs).visited = l.called recs ∧
      (index + recs.length ≤ last → (llogScan c l last index recs).stop = none ∧
        (llogScan c l last index recs).index = index + recs.length) ∧
      (last < index + recs.length → recs ≠ [] → (llogScan c l last index recs).stop = some 0) := by
  induction recs generalizing index with
  | nil => exact ⟨rfl, fun _ => ⟨rfl, rfl⟩, fun _ hne => absurd rfl hne⟩
  | cons r recs ih =>
    rw [map_cons, length_cons, range'_succ, cons.injEq] at hindex
    obtain ⟨rfl, hrest⟩ := hindex
    rw [length_cons] at hlast
    rw [llogScan, if_neg (hlen r mem_cons_self), if_neg (lt_irrefl _),
      if_neg (not_not_intro rfl), if_neg (fun hand => hcount hand.2), l.called_cons, length_cons]
    by_cases hend : last ≤ r.lrhIndex
    · obtain rfl : recs = [] := length_eq_zero_iff.mp (by omega)
      rw [if_pos hend]
      exact ⟨(append_nil _).symm, fun hle => absurd hle (by rw [length_nil]; omega), fun _ _ => rfl⟩
    · rw [if_neg hend]
      obtain ⟨hvisited, hgo, hstop⟩ := ih (forall_mem_cons.mp hlen).2 hrest (by omega)
      refine ⟨congrArg _ hvisited, fun hle => ?_, fun hlt _ => ?_⟩
      · obtain ⟨hnone, hindex⟩ := hgo (by omega)
        exact ⟨hnone, hindex.trans (by omega)⟩
      · refine hstop (by omega) ?_
        rintro rfl
        rw [length_nil] at hlt
        omega

/-- The pass over the chunk of a record whose bit is set. -/
theorem LlogInv.llogScan_chunk (h : LlogInv c l kept)
    (hrecs : l.recs = before ++ skipped ++ seg ++ after)
    (hset : l.lghHdr.llhBitmap ((before ++ skipped).length + 1) = true) :
    let index := (before ++ skipped).length + 1
    let scan := llogScan c l (c.bitmapSize - 1) index (skipped ++ seg)
    scan.visited = l.called seg ∧ (index + seg.length ≤ c.bitmapSize - 1 →
        scan.stop = none ∧ scan.index = index + seg.length) ∧
      (c.bitmapSize - 1 < index + seg.length → seg ≠ [] → scan.stop = some 0) := by
  intro index scan
  have hfits := h.fits
  have hlength := congrArg length hrecs
  rw [length_append, length_append] at hlength
  have hlen : ∀ r ∈ l.recs, ¬ (r.lrhLen = 0 ∨ c.chunkSize < r.lrhLen) := by
    rintro r hr (hzero | hlong)
    · have := h.recs.long r hr
      omega
    · exact absurd (h.recs.tiled.len_le r hr) (not_le.mpr hlong)
  have hcount : l.lghHdr.llhCount ≠ 1 := by
    have hmem := h.mem_kept.mpr ⟨Nat.le_add_left 1 _, hset⟩
    obtain ⟨p, hp, -⟩ := mem_map.mp hmem
    rw [h.count]
    have := length_pos_of_mem hp
    omega
  have hskipped : ∀ r ∈ skipped, r.lrhIndex < index := by
    intro r hr
    have hmem := mem_map_of_mem (f := lrhIndex) hr
    rw [h.recs.map_index (hrecs.trans (append_assoc _ _ _)), mem_range'_1] at hmem
    dsimp only [index]
    rw [length_append]
    omega
  dsimp only [scan]
  rw [llogScan_append (fun r hr => hlen r ?_) hskipped]
  · refine llogScan_spec (fun r hr => hlen r ?_) (h.recs.map_index hrecs) hcount (by omega)
    rw [hrecs]
    exact mem_append_left _ (mem_append_right _ hr)
  · rw [hrecs]
    exact mem_append_left _ (mem_append_left _ (mem_append_right _ hr))

/-- Where the chunk that was read is the last one and not full, it is read once more, and
there is nothing behind it. -/
theorem LlogInv.llogOsdNextBlock_again (h : LlogInv c l kept) (hchunk : LlogChunk c l before on [])
    (hon : on ≠ []) (hlast : l.recs.length < l.lghLastIdx) :
    ∃ curIdx, llogOsdNextBlock c l l.recs.length (l.recs.length + 1)
      (c.chunkSize + total lrhLen before) =
      ⟨-5, curIdx, c.chunkSize + total lrhLen before + total lrhLen on, []⟩ := by
  have hrecs : l.recs = before ++ on := by rw [hchunk.recs, append_nil]
  have hne : l.recs ≠ [] := by
    rw [hrecs]
    exact append_ne_nil_of_right_ne_nil _ hon
  have hsize := h.laSize_eq hne
  rw [hrecs, total_append] at hsize
  have hpos : 0 < total lrhLen on := by
    have hlong : on.length * 24 ≤ total lrhLen on :=
      mul_length_le_total fun r hr => h.recs.long r (by
        rw [hrecs]
        exact mem_append_right _ hr)
    have := length_pos_iff.mpr hon
    omega
  have hdvd : c.chunkSize ∣ c.chunkSize + total lrhLen before :=
    Nat.dvd_add (Nat.dvd_refl _) hchunk.start
  have hskip : llogSkipOver c l (c.chunkSize + total lrhLen before) l.recs.length
      (l.recs.length + 1) false = c.chunkSize + total lrhLen before := by
    rw [llogSkipOver, if_neg (Nat.not_lt.mpr hlast), if_pos (Nat.lt_succ_self _),
      Nat.add_sub_cancel_left, Nat.sub_self, Nat.zero_mul, Nat.add_zero,
      Nat.mod_eq_zero_of_dvd hdvd, Nat.sub_zero]
  obtain ⟨before', first, rest, after, hchunk', -, hread, -, -, -, hlonger⟩ :=
    h.exists_chunk hdvd (Nat.le_add_right _ _) hne (by omega)
  have hlength := congrArg length hchunk'.recs
  rw [length_append] at hlength
  have hmin : min (c.chunkSize + total lrhLen before + c.chunkSize) (l.laSize c) = l.laSize c := by
    have hshort := hchunk.short
    omega
  -- the round finds no more, and the next one is at the end of the file
  refine ⟨(before' ++ (first :: rest)).length, ?_⟩
  rw [llogOsdNextBlock, llogNextLoop, if_pos (by omega), hskip]
  dsimp only
  rw [hread]
  dsimp only
  rw [hchunk'.getLast_index h.recs, hmin, if_neg (by omega), if_pos (by omega), llogNextLoop,
    if_neg (lt_irrefl _), hsize, add_assoc]

/-- The records behind `done` are visited where their bits are set, and processing ends
without an error. -/
theorem LlogInv.llogProcessLoop_spec (h : LlogInv c l kept) (fuel : ℕ) :
    ∀ {done rest : List (LlogRec α)}, l.recs = done ++ rest →
      c.chunkSize ∣ total lrhLen done → rest.length + 1 ≤ fuel →
      ∃ i, llogProcessLoop c l (c.bitmapSize - 1) fuel (done.length + 1) done.length
        (c.chunkSize + total lrhLen done) none = ⟨l.called rest, i, some 0⟩ := by
  have hfits := h.fits
  induction fuel with
  | zero =>
    omega
  | succ fuel ih =>
    intro done rest hdone hdvd hfuel
    obtain ⟨next, hnext, hle, hbetween, hend⟩ :=
      llogNextSet_spec l (rfl : c.bitmapSize - 1 + 1 - (done.length + 1) = _)
    by_cases hlast : c.bitmapSize - 1 < next
    · -- no bit is set behind `done`
      have hall : l.recs = done ++ rest ++ [] := by rw [append_nil, hdone]
      refine ⟨next, ?_⟩
      simp only [llogProcessLoop, Option.isNone_none, ↓reduceIte, hnext, hlast, and_self]
      rw [h.recs.called_eq_nil hall]
      intro i hi hlt
      rw [← hdone] at hlt
      exact hbetween i hi (by omega)
    · have hset := hend.resolve_left hlast
      obtain ⟨pre, r, post, hpre, rfl⟩ := h.exists_rec (by omega) hset
      obtain ⟨before, on, after, hchunk, hbefore, hafter, hblock⟩ :=
        h.llogNextLoop_spec hpre (2 * l.laSize c + 2) false hdone hdvd (by omega) (by
          rw [if_neg Bool.false_ne_true]
          omega)
      rw [← llogOsdNextBlock] at hblock
      obtain ⟨skipped, seg, rfl, rfl, hseg⟩ := hchunk.exists_skipped hpre hbefore hafter
      obtain ⟨way, hway⟩ := prefix_of_prefix_length_le
        ⟨rest, hdone.symm⟩ ⟨r :: post, hpre.symm⟩ (by omega)
      have hrecs := hchunk.recs
      rw [← append_assoc before] at hrecs
      -- what is visited: the bits up to the record are not set
      have hrest : l.called rest = l.called seg ++ l.called after := by
        have hsplit := hrecs
        rw [← hway, append_assoc (done ++ way)] at hsplit
        rw [append_cancel_left_eq done rest (way ++ (seg ++ after)) |>.mp (by
            rw [← hdone, hsplit, append_assoc]), l.called_append, l.called_append,
          h.recs.called_eq_nil hsplit (by rw [hway]; exact hbetween), nil_append]
      have hlength := congrArg length hrecs
      rw [length_append, length_append] at hlength
      have hshorter : after.length < rest.length := by
        have hdone' := congrArg length hdone
        rw [length_append] at hdone'
        have := length_pos_iff.mpr hseg
        omega
      obtain ⟨hvisited, hgo, hstop⟩ := h.llogScan_chunk hrecs hset
      rw [hrest, ← hvisited]
      simp only [llogProcessLoop, Option.isNone_none, ↓reduceIte, hnext, hlast, and_false, hblock,
        Int.reduceNeg, zero_eq_neg, Int.reduceEq, false_and, ne_eq, not_true_eq_false]
      by_cases hmore : (before ++ skipped).length + 1 + seg.length ≤ c.bitmapSize - 1
      · obtain ⟨hnone, hindex⟩ := hgo hmore
        have hindex' : (llogScan c l (c.bitmapSize - 1) ((before ++ skipped).length + 1)
            (skipped ++ seg)).index = (before ++ (skipped ++ seg)).length + 1 := by
          rw [hindex]
          simp only [length_append]
          omega
        by_cases hfull : (c.chunkSize + total lrhLen (before ++ (skipped ++ seg))) % c.chunkSize = 0
        · obtain ⟨i, hi⟩ := ih hchunk.recs
            ((Nat.dvd_add_right (Nat.dvd_refl _)).mp (Nat.dvd_of_mod_eq_zero hfull)) (by omega)
          simp only [hnone, hfull, not_true_eq_false, ↓reduceIte, hindex', hi]
          exact ⟨i, rfl⟩
        · obtain rfl : after = [] := hchunk.full.resolve_right fun hdvd' =>
            hfull (Nat.mod_eq_zero_of_dvd (Nat.dvd_add (Nat.dvd_refl _) hdvd'))
          have hall : l.recs = before ++ (skipped ++ seg) := by rw [hchunk.recs, append_nil]
          obtain ⟨hoffset, hfill⟩ := hchunk.offset hfull
          obtain ⟨fuel, rfl⟩ := Nat.exists_eq_succ_of_ne_zero (by omega : fuel ≠ 0)
          rw [hfill] at hoffset hfull
          rw [l.called_nil, append_nil]
          simp only [hnone, hfull, not_false_eq_true, ↓reduceIte, hindex', hoffset, hfill,
            Option.isSome_none, Bool.false_eq_true, false_and, false_or]
          split
          · exact ⟨_, rfl⟩
          · next hmore =>
            -- the last chunk is read again
            obtain ⟨curIdx, hblock'⟩ := h.llogOsdNextBlock_again hchunk
              (append_ne_nil_of_right_ne_nil _ hseg)
              (hall ▸ Nat.le_of_not_lt fun hlt => hmore (.inl hlt))
            rw [hall] at hblock'
            refine ⟨(before ++ (skipped ++ seg)).length + 1, ?_⟩
            simp only [llogProcessLoop, hblock', Option.isNone_some, Bool.false_eq_true, ↓reduceIte,
              false_and, Option.mem_some_iff, exists_eq_left', and_self, append_nil]
      · have hafter : after = [] := length_eq_zero_iff.mp (by omega)
        rw [hstop (by omega) hseg, hafter, l.called_nil, append_nil]
        exact ⟨_, rfl⟩

/-- `llog_process` visits the records with a set bit. -/
theorem LlogInv.llogProcess_eq (h : LlogInv c l kept) :
    llogProcess c l = (0, l.called l.recs, l) := by
  have hfits := h.fits
  obtain ⟨i, hi⟩ := h.llogProcessLoop_spec (2 * (c.bitmapSize - 1) + 2)
    (nil_append l.recs).symm (Nat.dvd_zero _) (by omega)
  rw [length_nil, total_nil, zero_add, add_zero c.chunkSize] at hi
  rw [llogProcess, hi, if_neg (by simp)]
  rfl

/-! ## Backwards -/

theorem llogPrevSet_spec (l : Llog α) (index : ℕ) : llogPrevSet l index ≤ index ∧
      (∀ i, llogPrevSet l index < i → i ≤ index → l.lghHdr.llhBitmap i = false) ∧
      (llogPrevSet l index = 0 ∨ l.lghHdr.llhBitmap (llogPrevSet l index) = true) := by
  induction index with
  | zero => exact ⟨le_rfl, fun i hi hle => absurd hi (not_lt.mpr hle), .inl rfl⟩
  | succ index ih =>
    rw [llogPrevSet]
    split
    · next hset => exact ⟨le_rfl, fun i hi hle => absurd hi (not_lt.mpr hle), .inr hset⟩
    · next hclear =>
      obtain ⟨hle, hbetween, hend⟩ := ih
      refine ⟨Nat.le_succ_of_le hle, fun i hi hlt => ?_, hend⟩
      rcases Nat.lt_or_eq_of_le hlt with hlt | rfl
      · exact hbetween i hi (Nat.le_of_lt_succ hlt)
      · exact Bool.eq_false_of_not_eq_true hclear

section

variable (h : LlogInv c l kept) (hpre : l.recs = pre ++ r :: post)
include h hpre

/-- `llog_osd_prev_block` returns the chunk of `r`. -/
theorem LlogInv.llogPrevLoop_spec (fuel : ℕ) : ∀ {off : ℕ}, c.chunkSize ∣ off → c.chunkSize ≤ off →
      off ≤ c.chunkSize + total lrhLen pre → l.laSize c - off ≤ fuel →
      ∃ before on after, LlogChunk c l before on after ∧ before.length ≤ pre.length ∧
        pre.length < (before ++ on).length ∧
        llogPrevLoop c l (pre.length + 1) fuel off = (0, on) := by
  obtain ⟨hne, hbehind⟩ := h.add_total_lt hpre
  induction fuel with
  | zero =>
    omega
  | succ fuel ih =>
    intro off hoff hge hle hfuel
    obtain ⟨before, first, rest, after, hchunk, hstart, hread, hfirst, hnext, hmoved, hlonger⟩ :=
      h.exists_chunk hoff hge hne (by omega)
    have hbefore := hchunk.length_le h.recs hpre (by omega)
    rw [llogPrevLoop, if_pos (by omega), hread]
    dsimp only
    rw [hchunk.getLast_index h.recs, hnext, hfirst, if_neg (by omega)]
    split
    · next hbefore' =>
      obtain ⟨hfull, hle'⟩ := hchunk.before_rec hpre (Nat.le_of_lt_succ hbefore')
      exact ih (Nat.dvd_add (Nat.dvd_refl _) hfull) (Nat.le_add_right _ _) (by omega) (by omega)
    · rw [if_neg (by omega)]
      exact ⟨before, first :: rest, after, hchunk, hbefore, by omega, rfl⟩

theorem LlogInv.llogOsdPrevBlock_spec :
    ∃ before on after, LlogChunk c l before on after ∧ before.length ≤ pre.length ∧
      pre.length < (before ++ on).length ∧ llogOsdPrevBlock c l (pre.length + 1) = (0, on) := by
  obtain ⟨off, hskip, hoff, hge, hforce⟩ := h.skipOver hpre (nil_append l.recs).symm
    (Nat.dvd_zero _) (Nat.zero_le _) true
  rw [total_nil, add_zero c.chunkSize] at hskip hge
  rw [llogOsdPrevBlock, ← length_nil, hskip]
  exact h.llogPrevLoop_spec hpre (l.laSize c + 1) hoff hge (hforce rfl) (by omega)

end

/-- The records of `seg` are visited from the last one on. -/
theorem LlogRecs.llogRevScan_spec (h : LlogRecs c l.recs) (hrecs : l.recs = before ++ seg ++ post) :
    (llogRevScan l (before ++ seg).length seg.reverse).visited = (l.called seg).reverse ∧
      (before ≠ [] → (llogRevScan l (before ++ seg).length seg.reverse).stop = none ∧
        (llogRevScan l (before ++ seg).length seg.reverse).index = before.length) ∧
      (before = [] → seg ≠ [] →
        (llogRevScan l (before ++ seg).length seg.reverse).stop = some 0) := by
  induction seg using reverseRecOn generalizing post with
  | nil =>
    refine ⟨rfl, fun _ => ⟨rfl, ?_⟩, fun _ hne => absurd rfl hne⟩
    exact congrArg length (append_nil before)
  | append_singleton seg r ih =>
    have hsplit : l.recs = before ++ seg ++ r :: post := by
      rw [hrecs]
      simp only [append_assoc, singleton_append]
    have hindex := h.index_eq hsplit
    obtain ⟨hvisited, hgo, hstop⟩ := ih hsplit
    have hlength : (before ++ (seg ++ [r])).length = (before ++ seg).length + 1 := by
      rw [← append_assoc, length_append]
      rfl
    have hcalled : (l.called (seg ++ [r])).reverse =
        (if l.lghHdr.llhBitmap r.lrhIndex then [r] else []) ++ (l.called seg).reverse := by
      rw [l.called_append, reverse_append, l.called_cons]
      split <;> rfl
    rw [hcalled, hlength, reverse_append, reverse_singleton, singleton_append,
      llogRevScan, if_neg (by omega), Nat.add_sub_cancel, ← hindex]
    by_cases hfirst : (before ++ seg).length < 1
    · -- the first record of the log
      obtain ⟨rfl, rfl⟩ := append_eq_nil_iff.mp (length_eq_zero_iff.mp (Nat.lt_one_iff.mp hfirst))
      exact ⟨(append_nil _).symm, fun hne => absurd rfl hne, fun _ _ => rfl⟩
    · rw [if_neg hfirst]
      refine ⟨congrArg _ hvisited, hgo, fun hnil _ => hstop hnil ?_⟩
      rintro rfl
      rw [hnil] at hfirst
      exact hfirst Nat.zero_lt_one

/-- The records up to `index` are visited from the last one on, where their bits are set. -/
theorem LlogInv.llogReverseLoop_spec (h : LlogInv c l kept) (fuel : ℕ) :
    ∀ {index : ℕ}, index + 1 ≤ fuel → llogReverseLoop c l fuel index =
      some (0, (l.called (l.recs.take index)).reverse) := by
  induction fuel with
  | zero =>
    omega
  | succ fuel ih =>
    intro index hfuel
    obtain ⟨hle, hbetween, hend⟩ := llogPrevSet_spec l index
    rw [llogReverseLoop]
    generalize llogPrevSet l index = prev at hle hbetween hend ⊢
    -- the bits behind the last set one
    have hbehind : l.called (l.recs.take index) = l.called (l.recs.take prev) := by
      obtain ⟨n, rfl⟩ := Nat.exists_eq_add_of_le hle
      have hsplit : l.recs = l.recs.take prev ++ (l.recs.drop prev).take n ++
          l.recs.drop (prev + n) := by
        rw [← take_add, take_append_drop]
      have hnone : l.called ((l.recs.drop prev).take n) = [] := by
        refine h.recs.called_eq_nil hsplit fun i hi hlt => ?_
        rw [← take_add, length_take] at hlt
        rw [length_take] at hi
        exact hbetween i (by omega) (by omega)
      rw [take_add, l.called_append, hnone, append_nil]
    rw [hbehind]
    by_cases hzero : prev = 0
    · rw [if_pos hzero, hzero]
      rfl
    · rw [if_neg hzero]
      have hset := hend.resolve_left hzero
      obtain ⟨pre, r, post, hpre, rfl⟩ := h.exists_rec (Nat.one_le_iff_ne_zero.mpr hzero) hset
      obtain ⟨before, on, after, hchunk, hbefore, hafter, hblock⟩ :=
        h.llogOsdPrevBlock_spec hpre
      obtain ⟨skipped, seg, rfl, rfl, hseg⟩ := hchunk.exists_skipped hpre hbefore hafter
      obtain ⟨q, seg, rfl⟩ := exists_cons_of_ne_nil hseg
      obtain ⟨first, rest, hon⟩ := exists_cons_of_ne_nil
        (append_ne_nil_of_right_ne_nil skipped hseg)
      have hfirst : first.lrhIndex = before.length + 1 := by
        have hsplit : l.recs = before ++ first :: (rest ++ after) := by
          rw [hchunk.recs, hon, append_assoc, cons_append]
        exact h.recs.index_eq hsplit
      have hplace : (before ++ skipped).length + 1 - first.lrhIndex = skipped.length := by
        rw [hfirst, length_append]
        omega
      have hrest : skipped.length ≤ rest.length := by
        have hlength := congrArg length hon
        rw [length_append, length_cons, length_cons] at hlength
        omega
      -- what is gone through in this chunk
      have hupTo : (first :: rest).take (skipped.length + 1) = skipped ++ [q] := by
        rw [← hon, append_cons]
        exact take_left' (by rw [length_append, length_singleton])
      have hrecs : l.recs = before ++ (skipped ++ [q]) ++ (seg ++ after) := by
        rw [hchunk.recs, append_cons skipped]
        simp only [append_assoc]
      have hlength : (before ++ skipped).length + 1 = (before ++ (skipped ++ [q])).length := by
        simp only [length_append, length_singleton]
        omega
      have htake : l.recs.take ((before ++ skipped).length + 1) = before ++ (skipped ++ [q]) := by
        rw [hrecs]
        exact take_left' hlength.symm
      obtain ⟨hvisited, hgo, hstop⟩ := h.recs.llogRevScan_spec hrecs
      have hne : skipped ++ [q] ≠ [] := append_ne_nil_of_right_ne_nil _ (cons_ne_nil _ _)
      generalize skipped ++ [q] = upTo at hupTo hrecs hlength htake hvisited hgo hstop hne
      rw [hblock, if_neg (not_not_intro rfl), hon]
      dsimp only
      rw [if_pos ⟨by omega, by omega⟩, hplace, hupTo, htake, hlength, l.called_append,
        reverse_append]
      by_cases hnil : before = []
      · rw [hstop hnil hne, hvisited, hnil]
        exact congrArg (fun visited => some (0, visited)) (append_nil _).symm
      · obtain ⟨hnone, hindex⟩ := hgo hnil
        rw [hnone, hindex, hvisited]
        rw [ih (by omega), hrecs, append_assoc before, take_left]
        rfl

/-- `llog_reverse_process` visits the records with a set bit from the last one on. -/
theorem LlogInv.llogReverseProcess_eq (h : LlogInv c l kept) : llogReverseProcess c l =
      some (0, (l.called l.recs).reverse) := by
  have hfits := h.fits
  rw [llogReverseProcess, h.llogReverseLoop_spec _ (by omega), take_of_length_le (by omega)]

/-! ## The round trip -/

/-- What is read from a log is what was appended and not cancelled. -/
def LlogRun.RoundTrip (c : LlogConf) (s : LlogRun α) : Prop :=
  ∃ visited, llogProcess c s.log = (0, visited, s.log) ∧
    llogReverseProcess c s.log = some (0, visited.reverse) ∧
    (visited.map fun r => (r.lrhIndex, r.data)) = (s.kept.map fun p => (p.1, some p.2)) ∧
    (s.kept.map Prod.fst).Nodup

/-- In every run in which padding fits into what is left of its chunk and does not take the last
index, no assertion fails and what is read is what was appended and not cancelled,
in the order of the appends and in the opposite one. -/
theorem llog_roundTrip {s : LlogRun α}
    (h : Reach (llogStep c) (fun s op => LlogUse c s op ∧ LlogSpared c s op) .init s) :
    s.RoundTrip c ∧ ∀ op, LlogUse c s op → LlogSpared c s op → ∃ s', llogStep c s op = some s' := by
  have hinv := LlogInv.of_reach h
  refine ⟨⟨_, hinv.llogProcess_eq, hinv.llogReverseProcess_eq, hinv.marked, hinv.nodup_kept⟩, ?_⟩
  intro op huse hspared
  obtain ⟨s', hstep, -⟩ := llogStep_inv hinv huse hspared
  exact ⟨s', hstep⟩

end Process

/-- A log with the smallest chunks and without a size limit. -/
def smallLlog : LlogConf where
  chunkBits := 13
  le_chunkBits := le_rfl
  lghMaxSize := 0
  remote := false
  zapWhenEmpty := false

/-- The second record needs padding, the first one is cancelled before the log is opened
again. -/
theorem llog_roundTrip_padded : ∃ s, Reach (llogStep smallLlog)
        (fun s op => LlogUse smallLlog s op ∧ LlogSpared smallLlog s op) .init s ∧
      s.kept = [(3, 'b'), (4, 'c')] ∧ s.RoundTrip smallLlog := by
  obtain ⟨s, hreach, hkept⟩ : ∃ s, Reach (llogStep smallLlog)
      (fun s op => LlogUse smallLlog s op ∧ LlogSpared smallLlog s op) .init s ∧
      s.kept = [(3, 'b'), (4, 'c')] := exists_reach
    [.append 40 'a', .append 8192 'b', .cancel 1 false, .reopen, .append 24 'c'] (by decide +kernel)
  exact ⟨s, hreach, hkept, (llog_roundTrip hreach).1⟩

/-- After a record of 8184 bytes the next append fails the assertion of `llog_osd_pad`. -/
theorem llog_append_stops :
    ¬ ∀ s : LlogRun Char, Reach (llogStep smallLlog) (LlogUse smallLlog) .init s →
      s.RoundTrip smallLlog ∧
        ∀ op, LlogUse smallLlog s op → ∃ s', llogStep smallLlog s op = some s' := by
  intro hall
  obtain ⟨s, hreach, hnone⟩ : ∃ s, Reach (llogStep smallLlog) (LlogUse smallLlog) .init s ∧
      (llogStep smallLlog s (.append 24 'b')).isNone :=
    exists_reach [.append 8184 'a'] (by decide +kernel)
  obtain ⟨s', hstep⟩ := (hall s hreach).2 (.append 24 'b')
    (show 24 % 8 = 0 ∧ 24 ≤ 24 ∧ 24 ≤ smallLlog.chunkSize by decide +kernel)
  rw [hstep] at hnone
  cases hnone

section Pad

variable {α : Type*} {c : LlogConf} {l : Llog α} {kept : List (ℕ × α)}

/-- Padding that takes the last index leaves no index for its record. The header does not
have it, so after a re-opening the next record gets the index of the padding. -/
theorem LlogInv.pad_index_reused (h : LlogInv c l kept) {reclen : ℕ} {data data' : α}
    (hle : reclen ≤ c.chunkSize) (hmax : c.lghMaxSize = 0) (hopen : l.destroyed = false)
    (hdisk : l.disk ≠ none) (hlast : l.lghLastIdx + 2 = c.bitmapSize) (hpad : l.needsPad c reclen)
    (hroom : 24 ≤ l.left c) :
    ∃ l' l'', llogOsdWriteRec c l reclen data = some (.other (-28), l') ∧
      llogOsdWriteRec c (llogReopen c l') 24 data' = some (.written (c.bitmapSize - 1), l'') ∧
      l''.recs = l.recs ++ [⟨c.bitmapSize - 1, l.left c, none⟩] ++
        [⟨c.bitmapSize - 1, 24, some data'⟩] := by
  have hchunk := c.chunkSize_ge
  have hidx : l.lghLastIdx = l.recs.length := h.last.resolve_right (by omega)
  obtain ⟨hdr, hsome⟩ := Option.ne_none_iff_exists'.mp hdisk
  obtain rfl := h.disk hdr hsome
  let l1 : Llog α := { l with recs := l.recs ++ [⟨c.bitmapSize - 1, l.left c, none⟩] }
  have hpadded : llogOsdPad c l reclen = some { l1 with lghLastIdx := c.bitmapSize - 1 } := by
    rw [llogOsdPad, if_pos hpad, if_pos ⟨hroom, h.left_eight⟩, if_neg (by simpa using hdisk),
      show l.lghLastIdx + 1 = c.bitmapSize - 1 by omega]
  -- the header has the index before the padding
  have hreopen : llogReopen c { l1 with lghLastIdx := c.bitmapSize - 1 } = l1 := by
    dsimp only [llogReopen, l1]
    rw [hopen, if_neg Bool.false_ne_true, hsome]
    dsimp only
    rw [if_neg (by rw [h.tail]; omega), h.tail, ← hidx]
  have hleft : l1.left c = c.chunkSize := by
    rw [Llog.left, Llog.laSize, show l1.disk = _ from hsome]
    rw [Nat.add_mod_left, show total lrhLen l1.recs % _ = 0 from h.total_pad _, Nat.sub_zero]
  have hnext : l1.lghLastIdx + 1 = c.bitmapSize - 1 := (by omega : l.lghLastIdx + 1 = _)
  have hclear := h.clear (l.lghLastIdx + 1) (by omega)
  obtain ⟨l'', hwrite, hrecs⟩ : ∃ l'',
      llogOsdWriteRec c l1 24 data' = some (.written (l1.lghLastIdx + 1), l'') ∧
      l''.recs = l1.recs ++ [⟨l1.lghLastIdx + 1, 24, some data'⟩] := by
    rw [llogOsdWriteRec, if_neg (by rw [show l1.destroyed = false from hopen]; decide),
      if_neg (by omega), if_neg (by omega), llogOsdPad, if_neg (by rw [Llog.needsPad, hleft]; omega),
      Option.bind_some, if_neg (by omega)]
    refine ⟨_, if_neg ?_, rfl⟩
    rintro (hfull | hset)
    · omega
    · exact absurd (hclear.symm.trans hset) Bool.false_ne_true
  rw [hnext] at hwrite hrecs
  rw [← hreopen] at hwrite
  refine ⟨_, l'', ?_, hwrite, hrecs⟩
  rw [llogOsdWriteRec, if_neg (by rw [hopen]; exact Bool.false_ne_true),
    if_neg (not_lt.mpr hle), if_neg (by omega), hpadded, Option.bind_some, if_pos le_rfl]

end Pad

/-! ## Where appends leave the records -/

section Chunks

variable {α : Type*} {c : LlogConf} {l l' : Llog α} {reclen : ℕ} {data : α}

/-- A log to which records are appended that leave no 8 or 16 bytes of a chunk. -/
def LlogRoomy (c : LlogConf) (s : LlogRun α) : LlogOp α → Prop
  | .append reclen data => LlogUse c s (.append reclen data) ∧ reclen + 8 ≠ c.chunkSize ∧
      reclen + 16 ≠ c.chunkSize
  | _ => False

instance (c : LlogConf) (s : LlogRun α) : (op : LlogOp α) → Decidable (LlogRoomy c s op)
  | .append .. => instDecidableAnd
  | .cancel .. | .reopen => instDecidableFalse

/-- What the chunks of a log promise. -/
structure LlogChunked (c : LlogConf) (l : Llog α) : Prop where
  /-- no record crosses the end of a chunk -/
  tiled : Tiled lrhLen c.chunkSize c.chunkSize l.recs
  /-- nothing is left of the last chunk, or `LLOG_MIN_REC_SIZE` -/
  room : total lrhLen l.recs % c.chunkSize = 0 ∨
    total lrhLen l.recs % c.chunkSize + 24 ≤ c.chunkSize
  /-- the assertion of `llog_osd_pad` -/
  pad : ∀ reclen, reclen % 8 = 0 → 24 ≤ reclen → reclen ≤ c.chunkSize → llogOsdPad c l reclen ≠ none

/-- The records lie in chunks, without regard to what is left of the last one. -/
structure LlogLaid (c : LlogConf) (l : Llog α) : Prop where
  empty : l.disk = none → l.recs = []
  tiled : Tiled lrhLen c.chunkSize c.chunkSize l.recs
  eight : total lrhLen l.recs % 8 = 0
  start : total lrhLen l.recs % c.chunkSize = 0 ∨ 24 ≤ total lrhLen l.recs % c.chunkSize

namespace LlogLaid

section

variable (h : LlogLaid c l)
include h

theorem left_eq : l.left c = c.chunkSize - total lrhLen l.recs % c.chunkSize := by
  rw [Llog.left, Llog.laSize]
  cases hdisk : l.disk with
  | none => simp [h.empty hdisk]
  | some hdr => simp

/-- A record behind the others, in the same chunk. -/
theorem snoc {r : LlogRec α} (height : r.lrhLen % 8 = 0) (hlong : 24 ≤ r.lrhLen)
    (hfit : total lrhLen l.recs % c.chunkSize + r.lrhLen ≤ c.chunkSize)
    (hdisk : l'.disk ≠ none) (hrecs : l'.recs = l.recs ++ [r]) : LlogLaid c l' := by
  have hsum : total lrhLen l'.recs = total lrhLen l.recs + r.lrhLen := by
    simp [hrecs]
  constructor
  case empty => exact fun hnone => absurd hnone hdisk
  case tiled =>
    rw [hrecs]
    refine tiled_append.mpr ⟨h.tiled, ?_, trivial⟩
    rw [Nat.add_mod_left]
    exact hfit
  case eight =>
    have height' := h.eight
    omega
  case start =>
    rw [hsum, ← Nat.mod_add_mod]
    rcases eq_or_lt_of_le hfit with heq | hlt
    · exact .inl (by rw [heq, Nat.mod_self])
    · rw [Nat.mod_eq_of_lt hlt]
      omega

/-- Where there is room, padding fills the chunk and takes none of a new one. -/
theorem pad (hroom : total lrhLen l.recs % c.chunkSize + 24 ≤ c.chunkSize)
    (reclen : ℕ) : ∃ l1, llogOsdPad c l reclen = some l1 ∧ LlogLaid c l1 ∧
      (l1 = l ∧ ¬ l.needsPad c reclen ∨
        total lrhLen l1.recs % c.chunkSize = 0 ∧ l.needsPad c reclen) := by
  have height : total lrhLen l.recs % c.chunkSize % 8 = 0 := by
    rw [Nat.mod_mod_of_dvd _ c.eight_dvd_chunkSize]
    exact h.eight
  have hdvd : c.chunkSize % 8 = 0 := Nat.mod_eq_zero_of_dvd c.eight_dvd_chunkSize
  have hleft := h.left_eq
  rw [llogOsdPad]
  by_cases hpad : l.needsPad c reclen
  · rw [if_pos hpad, if_pos (by omega)]
    refine ⟨_, rfl, ?_⟩
    cases hdisk : l.disk with
    | none =>
      have hrecs := h.empty hdisk
      exact ⟨{ h with empty := fun _ => hrecs }, .inr ⟨by simp [hrecs], hpad⟩⟩
    | some hdr =>
      refine ⟨h.snoc (r := ⟨l.lghLastIdx + 1, l.left c, none⟩) ?_ ?_ ?_ ?_ rfl, .inr ⟨?_, hpad⟩⟩
      · dsimp only
        omega
      · dsimp only
        omega
      · dsimp only
        omega
      · simp
      · have hfull : total lrhLen l.recs % c.chunkSize + l.left c = c.chunkSize := by omega
        simp [← Nat.mod_add_mod _ _ (l.left c), hfull]
  · exact ⟨l, if_neg hpad, h, .inl ⟨rfl, hpad⟩⟩

theorem chunked_iff : LlogChunked c l ↔ total lrhLen l.recs % c.chunkSize + 24 ≤ c.chunkSize := by
  have hchunk := c.chunkSize_ge
  constructor
  · intro hc
    have hroom := hc.room
    omega
  · intro hroom
    refine ⟨h.tiled, .inr hroom, fun reclen _ _ _ hnone => ?_⟩
    obtain ⟨l1, hl1, -⟩ := h.pad hroom reclen
    rw [hnone] at hl1
    cases hl1

/-- What an append leaves: there is room unless it has written a record that leaves 8 or 16 bytes
of its chunk. -/
theorem write (hc : LlogChunked c l) {rc : LlogRc} (height : reclen % 8 = 0)
    (hlong : 24 ≤ reclen) (hle : reclen ≤ c.chunkSize)
    (hs : llogOsdWriteRec c l reclen data = some (rc, l')) : LlogLaid c l' ∧ (LlogChunked c l' ↔
      ∀ i, rc = .written i → reclen + 8 ≠ c.chunkSize ∧ reclen + 16 ≠ c.chunkSize) := by
  have hroom := h.chunked_iff.mp hc
  rw [llogOsdWriteRec] at hs
  split_ifs at hs with hgone hbig hfull
  · cases hs
    exact ⟨h, by simp [hc]⟩
  · omega
  · cases hs
    have hlaid : LlogLaid c { l with lghLastIdx := c.bitmapSize - 1 } := { h with }
    exact ⟨hlaid, by simp [hlaid.chunked_iff, hroom]⟩
  · obtain ⟨l1, hl1, hlaid, hcase⟩ := h.pad hroom reclen
    have hdvd : c.chunkSize % 8 = 0 := Nat.mod_eq_zero_of_dvd c.eight_dvd_chunkSize
    rw [hl1, Option.bind_some] at hs
    have hleft := h.left_eq
    have hstart := h.start
    rw [Llog.needsPad] at hcase
    split at hs
    · cases hs
      refine ⟨hlaid, ?_⟩
      rw [hlaid.chunked_iff]
      rcases hcase with ⟨rfl, -⟩ | ⟨hzero, -⟩ <;> simp <;> omega
    · rw [llogOsdPut] at hs
      split at hs
      · cases hs
      · cases hs
        have hfit : total lrhLen l1.recs % c.chunkSize + reclen ≤ c.chunkSize := by
          rcases hcase with ⟨rfl, hno⟩ | ⟨hzero, -⟩ <;> omega
        have hwritten : ∀ l2 : Llog α, l2.disk ≠ none →
            l2.recs = l1.recs ++ [⟨l1.lghLastIdx + 1, reclen, some data⟩] →
            LlogLaid c l2 ∧ (LlogChunked c l2 ↔
              reclen + 8 ≠ c.chunkSize ∧ reclen + 16 ≠ c.chunkSize) := by
          intro l2 hdisk hrecs
          have hnew := hlaid.snoc height hlong hfit hdisk hrecs
          refine ⟨hnew, ?_⟩
          have hsum : total lrhLen l2.recs = total lrhLen l1.recs + reclen := by
            simp [hrecs]
          rw [hnew.chunked_iff, hsum, ← Nat.mod_add_mod]
          rcases eq_or_lt_of_le hfit with heq | hlt
          · rw [heq, Nat.mod_self]
            rcases hcase with ⟨rfl, hno⟩ | ⟨hzero, -⟩ <;> omega
          · rw [Nat.mod_eq_of_lt hlt]
            rcases hcase with ⟨rfl, hno⟩ | ⟨hzero, -⟩ <;> omega
        simp only [LlogRc.written.injEq, forall_eq']
        apply hwritten
        · exact Option.some_ne_none _
        · rfl

end

end LlogLaid

/-- In every log made by appends that leave no 8 or 16 bytes of a chunk, no record crosses the end
of a chunk, what is left of the last chunk is nothing or `LLOG_MIN_REC_SIZE` and more, and padding
can be written; and a further append keeps that exactly when it does not write such a record. -/
theorem llog_append_chunked {s : LlogRun α} (hrun : Reach (llogStep c) (LlogRoomy c) .init s) :
    LlogChunked c s.log ∧ ∀ reclen (data : α) rc l', LlogUse c s (.append reclen data) →
      llogOsdWriteRec c s.log reclen data = some (rc, l') → (LlogChunked c l' ↔
        ∀ i, rc = .written i → reclen + 8 ≠ c.chunkSize ∧ reclen + 16 ≠ c.chunkSize) := by
  have hinv : LlogLaid c s.log ∧ LlogChunked c s.log := by
    refine hrun.invariant (fun s => LlogLaid c s.log ∧ LlogChunked c s.log) ?_ ?_
    · have hfresh : LlogLaid c (Llog.fresh : Llog α) := ⟨fun _ => rfl, trivial, rfl, .inl rfl⟩
      have hchunk := c.chunkSize_ge
      exact ⟨hfresh, hfresh.chunked_iff.mpr (by simp [Llog.fresh]; omega)⟩
    · rintro s op s' ⟨hlaid, hc⟩ hok hs
      cases op with
      | append reclen data =>
        obtain ⟨⟨height, hlong, hle⟩, hsize⟩ := hok
        obtain ⟨⟨rc, l'⟩, hwrite, rfl⟩ := Option.map_eq_some_iff.mp hs
        obtain ⟨hlaid', hiff⟩ := hlaid.write hc height hlong hle hwrite
        exact ⟨hlaid', hiff.mpr fun _ _ => hsize⟩
      | cancel index notCurrent | reopen => exact absurd hok id
  refine ⟨hinv.2, fun reclen data rc l' huse hwrite => ?_⟩
  exact (hinv.1.write hinv.2 huse.1 huse.2.1 huse.2.2 hwrite).2

/-- A record of 40 bytes, padding, and a record of a whole chunk. -/
theorem llog_append_chunked_two : ∃ s : LlogRun Char,
    Reach (llogStep smallLlog) (LlogRoomy smallLlog) .init s ∧
      s.log.recs.map (fun r => (r.lrhLen, r.data)) =
        [(40, some 'a'), (8152, none), (8192, some 'b')] ∧
      LlogChunked smallLlog s.log := by
  obtain ⟨s, hreach, hrecs⟩ : ∃ s : LlogRun Char,
      Reach (llogStep smallLlog) (LlogRoomy smallLlog) .init s ∧
      s.log.recs.map (fun r => (r.lrhLen, r.data)) =
        [(40, some 'a'), (8152, none), (8192, some 'b')] :=
    exists_reach [.append 40 'a', .append 8192 'b'] (by decide +kernel)
  exact ⟨s, hreach, hrecs, (llog_append_chunked hreach).1⟩

/-- A record of 8184 bytes leaves 8 bytes of its chunk, and no record can be appended any more. -/
theorem llog_append_leaves : ∃ s : LlogRun Char,
    Reach (llogStep smallLlog) (LlogUse smallLlog) .init s ∧
      total lrhLen s.log.recs % smallLlog.chunkSize + 8 = smallLlog.chunkSize ∧
      llogStep smallLlog s (.append 24 'b') = none := by
  obtain ⟨s, hreach, hleft, hnone⟩ : ∃ s : LlogRun Char,
      Reach (llogStep smallLlog) (LlogUse smallLlog) .init s ∧
      total lrhLen s.log.recs % smallLlog.chunkSize + 8 = smallLlog.chunkSize ∧
      (llogStep smallLlog s (.append 24 'b')).isNone :=
    exists_reach [.append 8184 'a'] (by decide +kernel)
  exact ⟨s, hreach, hleft, Option.isNone_iff_eq_none.mp hnone⟩

end Chunks

end Lustre
