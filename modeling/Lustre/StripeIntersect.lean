import Lustre.Stripe

/-!
# The part of an object that a file extent covers (`lov_stripe_intersects`)

An I/O or a lock on a file extent is split over the objects of a component:
`lov_stripe_intersects` cuts the extent down to the component, maps both ends into
the object of one stripe, and tells whether anything is left.

Both ends go through `lov_stripe_offset`, which counts the bytes of the stripe
before an offset (`lovStripeOffset_count`). What the function does about the two
sides it gets back is then one fact about counting, `countBelow_stop`: it turns the
count before the last byte into the count up to and including it.
-/

namespace Lustre

open RoundRobin

/-! ## The model -/

/-- `struct lu_extent`, not empty: the bytes from `eStart` to before `eEnd`. -/
structure LuExtent where
  eStart : ℕ
  /-- first byte after the extent, or `obdObjectEof` for an extent without end -/
  eEnd : ℕ
  /-- the extent is not empty -/
  start_lt_end : eStart < eEnd
  /-- offsets are 64-bit words -/
  end_le : eEnd ≤ obdObjectEof
  deriving DecidableEq

def luExtentIsOverlapped (e1 e2 : LuExtent) : Bool :=
  e1.eStart < e2.eEnd && e2.eStart < e1.eEnd

/-- A component of a layout with its extent. -/
structure LovComponent where
  lse : LovStripeMdEntry
  /-- the part of the file it describes, `lsme_extent` -/
  lsmeExtent : LuExtent
  /-- bytes can be dealt out to it -/
  striped : Striped lse

/-- The tail of `lov_stripe_intersects`, with the two sides and object offsets that
`lov_stripe_offset` gave. -/
def intersectsOf (first last : ℤ × ℕ) : Option (ℕ × ℕ) :=
  if first.1 ≠ 0 ∧ last.1 ≠ 0 ∧ first.2 = last.2 then none
  else some (first.2, if last.1 ≠ 0 then sub64 last.2 1 else last.2)

/-- `lov_stripe_intersects`: `none` where the source returns 0, otherwise the two
object offsets it stores. -/
def lovStripeIntersects (entry : LovComponent) (stripeno : ℕ) (ext : LuExtent) : Option (ℕ × ℕ) :=
  if luExtentIsOverlapped ext entry.lsmeExtent then
    let start := max ext.eStart entry.lsmeExtent.eStart
    let stop := min ext.eEnd entry.lsmeExtent.eEnd
    let stop := if stop ≠ obdObjectEof then stop - 1 else stop
    intersectsOf (lovStripeOffset entry.lse start stripeno) (lovStripeOffset entry.lse stop stripeno)
  else none

/-! ## What the extents mean -/

/-- Byte `x` lies in the extent. An extent up to `obdObjectEof` has no end. -/
def LuExtent.Covers (ext : LuExtent) (x : ℕ) : Prop :=
  ext.eStart ≤ x ∧ (x < ext.eEnd ∨ ext.eEnd = obdObjectEof)

/-- Byte `x` of the file, asked for by `ext`, is byte `o` of the object of stripe `k`. -/
structure LovComponent.Holds (entry : LovComponent) (ext : LuExtent) (k x o : ℕ) : Prop where
  /-- it is asked for -/
  asked : ext.Covers x
  /-- the component describes it -/
  described : entry.lsmeExtent.Covers x
  /-- it is dealt to the stripe -/
  block : blockOf entry.lse.lsmeStripeSize.toNat (stripes entry.lse) x = k
  /-- at that place -/
  inner : innerOf entry.lse.lsmeStripeSize.toNat (stripes entry.lse) x = o

variable {entry : LovComponent} {ext : LuExtent} {k : ℕ}

/-- Two extents with no common byte do not overlap, and where the earlier end is a
real one the common bytes end there. -/
theorem covers_and_covers {e1 e2 : LuExtent} {x : ℕ} (hend : min e1.eEnd e2.eEnd ≠ obdObjectEof) :
    e1.Covers x ∧ e2.Covers x ↔ max e1.eStart e2.eStart ≤ x ∧ x < min e1.eEnd e2.eEnd := by
  rw [LuExtent.Covers, LuExtent.Covers]
  omega

theorem luExtentIsOverlapped_iff {e1 e2 : LuExtent} :
    luExtentIsOverlapped e1 e2 = true ↔ max e1.eStart e2.eStart < min e1.eEnd e2.eEnd := by
  have h1 := e1.start_lt_end
  have h2 := e2.start_lt_end
  simp only [luExtentIsOverlapped, Bool.and_eq_true, decide_eq_true_eq]
  omega

/-! ## Counting up to the last byte -/

section
variable {s n : ℕ} (hs : 0 < s) (hk : k < n)
include hs hk

/-- What the last lines of the source do: from the count before the last byte to the
number of bytes up to and including it. -/
theorem countBelow_stop (x : ℕ) : countBelow s n (x + 1) k =
    if blockOf s n x = k then countBelow s n x k + 1 else countBelow s n x k := by
  have hn : 0 < n := by omega
  split
  · rename_i hblock
    subst hblock
    rw [countBelow_succ hs hn, countBelow_blockOf hs hn]
  · rename_i hblock
    exact countBelow_succ_of_ne hs hk hblock

theorem countBelow_mono {x y : ℕ} (h : x ≤ y) : countBelow s n x k ≤ countBelow s n y k := by
  refine le_of_forall_lt fun o ho => ?_
  rw [← outerOf_lt_iff hs hk] at ho ⊢
  omega

end

/-! ## What `lov_stripe_intersects` answers -/

/-- Between two offsets below the end of files the function compares and reports the
counts of the stripe before the first and after the last byte. -/
theorem intersectsOf_count {lse : LovStripeMdEntry} (h : Striped lse) (hk : k < stripes lse)
    {a x : ℕ} (hax : a ≤ x) (hx : x < obdObjectEof) :
    intersectsOf (lovStripeOffset lse a k) (lovStripeOffset lse x k) =
      if countBelow lse.lsmeStripeSize.toNat (stripes lse) a k =
          countBelow lse.lsmeStripeSize.toNat (stripes lse) (x + 1) k then none
      else some (countBelow lse.lsmeStripeSize.toNat (stripes lse) a k,
        countBelow lse.lsmeStripeSize.toNat (stripes lse) (x + 1) k - 1) := by
  have hs := h.ssize_pos
  have heof : obdObjectEof < 2 ^ 64 := by decide
  obtain ⟨hside, hval⟩ := lovStripeOffset_count h (hax.trans_lt hx) hk
  obtain ⟨hside', hval'⟩ := lovStripeOffset_count h hx hk
  have hle := countBelow_le lse.lsmeStripeSize.toNat h.stripes_pos x k
  have hmono := countBelow_mono hs hk hax
  have hafter := countBelow_mono hs hk (Nat.add_le_add_right hax 1)
  have hfirst := countBelow_stop hs hk a
  have hlast := countBelow_stop hs hk x
  rw [intersectsOf, hval, hval']
  simp only [ne_eq, hside, hside']
  rw [hfirst, hlast] at hafter
  rw [hlast]
  generalize countBelow lse.lsmeStripeSize.toNat (stripes lse) a k = ca at *
  generalize countBelow lse.lsmeStripeSize.toNat (stripes lse) x k = cx at *
  by_cases hbx : blockOf lse.lsmeStripeSize.toNat (stripes lse) x = k
  · -- the last byte is on the stripe
    have hne : ca ≠ cx + 1 := by omega
    simp [hbx, hne]
  · by_cases heq : ca = cx
    · -- nothing of the stripe in between, so the first byte is not on it either
      have hba : blockOf lse.lsmeStripeSize.toNat (stripes lse) a ≠ k := by
        intro hba
        rw [if_pos hba, if_neg hbx] at hafter
        omega
      simp [hba, hbx, heq]
    · have hpos : 1 ≤ cx := by omega
      simp [hbx, heq, sub64_of_le (show cx < 2 ^ 64 by omega) hpos]

section

variable (hk : k < stripes entry.lse) (hend : min ext.eEnd entry.lsmeExtent.eEnd ≠ obdObjectEof)
include hk hend

omit hend in
/-- An extent without end reaches every stripe. -/
theorem exists_holds_of_eof (hend : min ext.eEnd entry.lsmeExtent.eEnd = obdObjectEof) :
    ∃ x o, entry.Holds ext k x o := by
  have h1 := ext.end_le
  have h2 := entry.lsmeExtent.end_le
  have hs := entry.striped.ssize_pos
  -- take a place of the object past everything below the two starts
  obtain ⟨o, ho⟩ : ∃ o, o = countBelow entry.lse.lsmeStripeSize.toNat (stripes entry.lse)
      (max ext.eStart entry.lsmeExtent.eStart) k := ⟨_, rfl⟩
  have hfar : ¬ outerOf entry.lse.lsmeStripeSize.toNat (stripes entry.lse) k o <
      max ext.eStart entry.lsmeExtent.eStart := by
    rw [outerOf_lt_iff hs hk]
    omega
  refine ⟨outerOf entry.lse.lsmeStripeSize.toNat (stripes entry.lse) k o, o, ?_, ?_, ?_, ?_⟩
  · exact ⟨by omega, Or.inr (by omega)⟩
  · exact ⟨by omega, Or.inr (by omega)⟩
  · exact blockOf_outerOf hs hk o
  · exact innerOf_outerOf hs hk o

end

/-- Without an end it always finds something. -/
theorem lovStripeIntersects_of_eof (hend : min ext.eEnd entry.lsmeExtent.eEnd = obdObjectEof) :
    (lovStripeIntersects entry k ext).isSome := by
  have h1 := ext.start_lt_end
  have h2 := entry.lsmeExtent.start_lt_end
  have h3 := ext.end_le
  have h4 := entry.lsmeExtent.end_le
  have hover : luExtentIsOverlapped ext entry.lsmeExtent = true :=
    luExtentIsOverlapped_iff.mpr (by omega)
  rw [lovStripeIntersects, if_pos hover, hend]
  simp [lovStripeOffset, intersectsOf]

/-- **`lov_stripe_intersects` is exact.** It finds an intersection exactly if a byte
that is asked for lies on the stripe, and up to a real end the two offsets it stores
are the first and the last of the object bytes asked for, which fill all between them. -/
theorem lovStripeIntersects_exact (entry : LovComponent) (ext : LuExtent) (k : ℕ)
    (hk : k < stripes entry.lse) :
    ((lovStripeIntersects entry k ext).isSome ↔ ∃ x o, entry.Holds ext k x o) ∧
    (ext.eEnd ≠ obdObjectEof → ∀ first last, lovStripeIntersects entry k ext = some (first, last) →
      first ≤ last ∧ ∀ o, (first ≤ o ∧ o ≤ last) ↔ ∃ x, entry.Holds ext k x o) := by
  have h1 := ext.end_le
  by_cases hend : min ext.eEnd entry.lsmeExtent.eEnd = obdObjectEof
  · refine ⟨iff_of_true (lovStripeIntersects_of_eof hend) (exists_holds_of_eof hk hend), ?_⟩
    omega
  · have hs := entry.striped.ssize_pos
    obtain ⟨lo, hlo⟩ : ∃ lo, lo = countBelow entry.lse.lsmeStripeSize.toNat (stripes entry.lse)
      (max ext.eStart entry.lsmeExtent.eStart) k := ⟨_, rfl⟩
    obtain ⟨hi, hhi⟩ : ∃ hi, hi = countBelow entry.lse.lsmeStripeSize.toNat (stripes entry.lse)
      (min ext.eEnd entry.lsmeExtent.eEnd) k := ⟨_, rfl⟩
    -- the bytes that are asked for occupy a segment of the object
    have hiff : ∀ o, (∃ x, entry.Holds ext k x o) ↔ lo ≤ o ∧ o < hi := by
      intro o
      rw [hlo, hhi, ← mem_segment_iff hs hk]
      constructor
      · rintro ⟨x, h⟩
        exact ⟨x, (covers_and_covers hend).mp ⟨h.asked, h.described⟩, h.block, h.inner⟩
      · rintro ⟨x, hx, hblock, hinner⟩
        obtain ⟨hasked, hdescribed⟩ := (covers_and_covers hend).mpr hx
        exact ⟨x, hasked, hdescribed, hblock, hinner⟩
    -- and the answer is its first and last place, if it has any
    have hanswer : lovStripeIntersects entry k ext =
        if lo < hi then some (lo, hi - 1) else none := by
      rw [lovStripeIntersects]
      by_cases hover : luExtentIsOverlapped ext entry.lsmeExtent = true
      · have hlt := luExtentIsOverlapped_iff.mp hover
        have hmono := countBelow_mono hs hk hlt.le
        have hlast : min ext.eEnd entry.lsmeExtent.eEnd - 1 + 1 =
            min ext.eEnd entry.lsmeExtent.eEnd := by omega
        have hcount := intersectsOf_count entry.striped hk
          (show max ext.eStart entry.lsmeExtent.eStart ≤ min ext.eEnd entry.lsmeExtent.eEnd - 1 by
            omega) (by omega)
        rw [hlast, ← hlo, ← hhi] at hcount
        rw [if_pos hover]
        simp only [if_pos hend, hcount]
        split
        · rw [if_neg (by omega)]
        · rw [if_pos (by omega)]
      · have hmono := countBelow_mono hs hk (not_lt.mp (mt luExtentIsOverlapped_iff.mpr hover))
        rw [if_neg hover, if_neg (by omega)]
    rw [hanswer]
    constructor
    · constructor
      · intro hsome
        have hlt := Option.isSome_ite.mp hsome
        obtain ⟨x, hx⟩ := (hiff _).mpr ⟨le_rfl, hlt⟩
        exact ⟨x, _, hx⟩
      · rintro ⟨x, o, hx⟩
        obtain ⟨hge, hlt⟩ := (hiff o).mp ⟨x, hx⟩
        rw [if_pos (by omega)]
        rfl
    · intro _ first last heq
      split at heq
      · cases heq
        refine ⟨by omega, fun o => ?_⟩
        rw [hiff]
        omega
      · cases heq

/-- Two stripes of 64 KiB: of the bytes 70000 to 199999 of the file, the first object
holds its bytes 65536 to 131071, which are the bytes 131072 to 196607 of the file. -/
theorem lovStripeIntersects_exact_two : ∃ (entry : LovComponent) (ext : LuExtent),
      lovStripeIntersects entry 0 ext = some (65536, 131071) ∧
        ∀ o, (65536 ≤ o ∧ o ≤ 131071) ↔ ∃ x, entry.Holds ext 0 x o := by
  refine ⟨⟨⟨1, 65536, 2⟩, ⟨0, obdObjectEof, by decide, le_rfl⟩, by decide, by decide⟩,
    ⟨70000, 200000, by decide, by decide⟩, by decide, ?_⟩
  have h := lovStripeIntersects_exact
    ⟨⟨1, 65536, 2⟩, ⟨0, obdObjectEof, by decide, le_rfl⟩, by decide, by decide⟩
    ⟨70000, 200000, by decide, by decide⟩ 0 (by decide)
  exact (h.2 (by decide) 65536 131071 (by decide)).2

end Lustre
