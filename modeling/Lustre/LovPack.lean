import Lustre.Stripe

/-!
# Packing a layout for disk (`lov_pack.c`)

`lov_lsm_pack` writes a layout in its on-disk form. A composite layout is a header,
a table with one entry for each component, and one blob for each component, each
blob a plain V1 or V3 layout. The size of all this is asked for beforehand, from
`lov_comp_md_size`, which walks the components in a loop of its own.

The blobs are laid end to end (`packed_chain`), so they are apart from each other and
from the table, and the size asked for is enough for them (`lovLsmPack_inside`). It
is always more than they take: `lov_comp_md_size` counts the in-memory entry in place
of the one on disk, and the stripes of components that have no objects
(`lovCompMdSize_eq`).
-/

namespace Lustre

open List

/-! ## The data -/

/-- `lsme_magic`: a component is a V1 or a V3 layout. -/
inductive LmmMagic where
  | v1
  | v3
  deriving DecidableEq

structure OstId where
  oiId : UInt64
  oiSeq : UInt64
  deriving DecidableEq

/-- `struct lov_ost_data_v1`: one object on disk; the fields of `struct lov_oinfo` that
the packer copies there. -/
structure LovOstData where
  lOstOi : OstId
  /-- generation of the index -/
  lOstGen : UInt32
  /-- index of the OST -/
  lOstIdx : UInt32
  deriving DecidableEq

/-- `LCME_FL_INIT`: the component is instantiated. -/
def lcmeFlInit : UInt32 := 0x10

def lovPatternFReleased : UInt32 := 0x80000000

def lovV1InsaneStripeCount : ℕ := 65532

def lovMaxpoolname : ℕ := 15

/-- Flags and pattern of a component that has objects: instantiated, not released. -/
def hasObjects (flags pattern : UInt32) : Bool :=
  flags &&& lcmeFlInit != 0 && pattern &&& lovPatternFReleased == 0

/-- `struct lov_stripe_md_entry` with all its fields. -/
structure LovLayoutEntry extends LovStripeMdEntry where
  /-- start of the extent -/
  lsmeStart : UInt64
  /-- end of the extent -/
  lsmeEnd : UInt64
  /-- identifier of the component -/
  lsmeId : UInt32
  lsmeMagic : LmmMagic
  /-- `LCME_FL_*` -/
  lsmeFlags : UInt32
  /-- generation of the layout -/
  lsmeLayoutGen : UInt16
  /-- name of the pool -/
  lsmePoolName : List UInt8
  lsmeOinfo : List LovOstData
  deriving DecidableEq

inductive LsmMagic where
  | plain (magic : LmmMagic)
  | compV1
  deriving DecidableEq

/-- `struct lov_stripe_md`: a layout in memory. -/
structure LovStripeMd where
  /-- the kind of layout -/
  lsmMagic : LsmMagic
  /-- object identifier, of a plain layout -/
  lsmOi : OstId
  lsmLayoutGen : UInt32
  /-- `LCM_FL_*` -/
  lsmFlags : UInt16
  /-- no object at all -/
  lsmIsReleased : Bool
  /-- number of mirrors less one -/
  lsmMirrorCount : UInt16
  /-- the components; `lsm_entry_count` is their number -/
  lsmEntries : List LovLayoutEntry
  deriving DecidableEq

def lsmeInited (lsme : LovLayoutEntry) : Bool := lsme.lsmeFlags &&& lcmeFlInit != 0

/-- `struct lov_mds_md_v1` or `struct lov_mds_md_v3`: a plain layout on disk. -/
structure LovMdsMd where
  lmmMagic : LmmMagic
  lmmPattern : UInt32
  /-- object identifier, where it is set -/
  lmmOi : Option OstId
  /-- bytes per chunk -/
  lmmStripeSize : UInt32
  /-- number of stripes -/
  lmmStripeCount : UInt16
  lmmLayoutGen : UInt16
  /-- name of the pool, V3 only -/
  lmmPoolName : Option (List UInt8)
  lmmObjects : List LovOstData
  deriving DecidableEq

/-- `struct lov_comp_md_entry_v1`: an entry of the table. -/
structure LovCompMdEntry where
  /-- identifier of the component -/
  lcmeId : UInt32
  lcmeFlags : UInt32
  /-- start of the extent -/
  lcmeStart : UInt64
  /-- end of the extent -/
  lcmeEnd : UInt64
  /-- where the blob starts -/
  lcmeOffset : ℕ
  /-- size of the blob -/
  lcmeSize : ℕ
  deriving DecidableEq

/-- `struct lov_comp_md_v1`: a composite layout on disk. -/
structure LovCompMd where
  lcmSize : ℕ
  lcmLayoutGen : UInt32
  lcmFlags : UInt16
  /-- number of components -/
  lcmEntryCount : ℕ
  /-- number of mirrors less one -/
  lcmMirrorCount : UInt16
  /-- the table, each entry with the blob it points at -/
  lcmEntries : List (LovCompMdEntry × LovMdsMd)
  deriving DecidableEq

/-- What a call writes into its buffer. -/
inductive LovPacked where
  | plain (lmm : LovMdsMd)
  | comp (lcm : LovCompMd)
  deriving DecidableEq

/-! ## The functions -/

/-- `sizeof` of `struct lov_ost_data_v1`. -/
def sizeofOstData : ℕ := 24

/-- `sizeof` of `struct lov_comp_md_v1`. -/
def sizeofCompMd : ℕ := 32

/-- `sizeof` of `struct lov_comp_md_entry_v1`, the entry on disk. -/
def sizeofCompMdEntry : ℕ := 48

/-- `sizeof` of `struct lov_stripe_md_entry`, the entry in memory: an extent of 16
bytes, five words of 4, two of 2 and the 16 bytes of the pool name. -/
def sizeofStripeMdEntry : ℕ := 56

/-- `sizeof` of `struct lov_mds_md_v1` or `struct lov_mds_md_v3`. -/
def sizeofMdsMd : LmmMagic → ℕ
  | .v1 => 32
  | .v3 => 48

/-- `lov_mds_md_size`: a stripe count of all ones is a template without objects. -/
def lovMdsMdSize (stripes : ℕ) (magic : LmmMagic) : ℕ :=
  sizeofMdsMd magic + (if stripes = 0xffff then 0 else stripes) * sizeofOstData

/-- `lov_comp_md_size`. The source computes a stripe count that is zero for a component
that is not instantiated, and does not use it. -/
def lovCompMdSize (lsm : LovStripeMd) : ℕ :=
  match lsm.lsmMagic with
  | .plain _ =>
    (lsm.lsmEntries.head?.map fun lsme =>
      lovMdsMdSize lsme.lsmeStripeCount.toNat lsme.lsmeMagic).getD 0
  | .compV1 =>
    lsm.lsmEntries.foldl (fun size lsme =>
      size + sizeofStripeMdEntry + lovMdsMdSize lsme.lsmeStripeCount.toNat lsme.lsmeMagic)
      sizeofCompMd

/-- The stripe count the packer uses for a component. -/
def packedCount (lsme : LovLayoutEntry) : ℕ :=
  if lsmeInited lsme && lsme.lsmePattern &&& lovPatternFReleased == 0
  then lsme.lsmeStripeCount.toNat else 0

/-- `strlcpy` into a pool name. -/
def strlcpyPool (name : List UInt8) : List UInt8 := name.take lovMaxpoolname

/-- The blob of a component. -/
def packBlob (lsme : LovLayoutEntry) : LovMdsMd where
  lmmMagic := lsme.lsmeMagic
  lmmPattern := lsme.lsmePattern
  lmmOi := none
  lmmStripeSize := lsme.lsmeStripeSize
  lmmStripeCount := lsme.lsmeStripeCount
  lmmLayoutGen := lsme.lsmeLayoutGen
  lmmPoolName := if lsme.lsmeMagic = .v3 then some (strlcpyPool lsme.lsmePoolName) else none
  lmmObjects := lsme.lsmeOinfo.take (packedCount lsme)

/-- The loop of `lov_lsm_pack` over the components; `offset` is an `unsigned int`. -/
def lovLsmPackLoop : ℕ → List LovLayoutEntry → List (LovCompMdEntry × LovMdsMd)
  | _, [] => []
  | offset, lsme :: rest =>
    let size := lovMdsMdSize (packedCount lsme) lsme.lsmeMagic
    (⟨lsme.lsmeId, lsme.lsmeFlags, lsme.lsmeStart, lsme.lsmeEnd, offset, size⟩, packBlob lsme) ::
      lovLsmPackLoop (u32 (offset + size)) rest

/-- What `lov_lsm_pack` writes for a composite layout. -/
def packComp (lsm : LovStripeMd) : LovCompMd where
  lcmSize := u32 (lovCompMdSize lsm)
  lcmLayoutGen := lsm.lsmLayoutGen
  lcmFlags := lsm.lsmFlags
  lcmEntryCount := lsm.lsmEntries.length
  lcmMirrorCount := lsm.lsmMirrorCount
  lcmEntries := lovLsmPackLoop (sizeofCompMd + sizeofCompMdEntry * lsm.lsmEntries.length)
    lsm.lsmEntries

/-- What `lov_lsm_pack_v1v3` writes for a plain layout. -/
def packPlain (lsm : LovStripeMd) (magic : LmmMagic) (lsme : LovLayoutEntry) : LovMdsMd where
  lmmMagic := magic
  lmmPattern := lsme.lsmePattern
  lmmOi := some lsm.lsmOi
  lmmStripeSize := lsme.lsmeStripeSize
  lmmStripeCount := lsme.lsmeStripeCount
  lmmLayoutGen := lsm.lsmLayoutGen.toUInt16
  lmmPoolName := if magic = .v3 then some (strlcpyPool lsme.lsmePoolName) else none
  lmmObjects := if lsm.lsmIsReleased then []
    else lsme.lsmeOinfo.take lsme.lsmeStripeCount.toNat

/-- `lov_lsm_pack`: `none` for `-ERANGE`, otherwise the size it returns and what it
writes, which is nothing if the buffer is empty. -/
def lovLsmPack (lsm : LovStripeMd) (bufSize : ℕ) : Option (ℕ × Option LovPacked) :=
  match lsm.lsmMagic with
  | .plain magic =>
    lsm.lsmEntries.head?.bind fun lsme =>
      let lmmSize := lovMdsMdSize lsme.lsmeStripeCount.toNat magic
      if bufSize = 0 then some (lmmSize, none)
      else if bufSize < lmmSize then none
      else some (lmmSize, some (.plain (packPlain lsm magic lsme)))
  | .compV1 =>
    let lmmSize := lovCompMdSize lsm
    if bufSize = 0 then some (lmmSize, none)
    else if bufSize < lmmSize then none
    else some (lmmSize, some (.comp (packComp lsm)))

/-! ## The size that is asked for -/

variable {lsm : LovStripeMd} {lsme : LovLayoutEntry}

/-- What the size of a component counts beyond what its blob and its entry take: eight
bytes for the larger entry, and its stripes if it has no objects. -/
def overCount (lsme : LovLayoutEntry) : ℕ :=
  sizeofStripeMdEntry - sizeofCompMdEntry +
    (lovMdsMdSize lsme.lsmeStripeCount.toNat lsme.lsmeMagic -
      lovMdsMdSize (packedCount lsme) lsme.lsmeMagic)

theorem packedCount_eq (lsme : LovLayoutEntry) : packedCount lsme =
      if hasObjects lsme.lsmeFlags lsme.lsmePattern then lsme.lsmeStripeCount.toNat else 0 := rfl

theorem packedCount_size_le (lsme : LovLayoutEntry) :
    lovMdsMdSize (packedCount lsme) lsme.lsmeMagic ≤
      lovMdsMdSize lsme.lsmeStripeCount.toNat lsme.lsmeMagic := by
  rw [packedCount_eq]
  split
  · exact le_rfl
  · simp [lovMdsMdSize]

/-- The space the blobs take. -/
def blobsSize (entries : List LovLayoutEntry) : ℕ :=
  (entries.map fun lsme => lovMdsMdSize (packedCount lsme) lsme.lsmeMagic).sum

@[simp] theorem blobsSize_nil : blobsSize [] = 0 := rfl

@[simp] theorem blobsSize_cons (lsme : LovLayoutEntry) (rest : List LovLayoutEntry) :
    blobsSize (lsme :: rest) = lovMdsMdSize (packedCount lsme) lsme.lsmeMagic + blobsSize rest := by
  simp [blobsSize]

/-- The loop of `lov_comp_md_size`: header, table and blobs, and the excess. -/
theorem foldl_size (entries : List LovLayoutEntry) : ∀ init, entries.foldl (fun size lsme =>
      size + sizeofStripeMdEntry + lovMdsMdSize lsme.lsmeStripeCount.toNat lsme.lsmeMagic) init =
      init + sizeofCompMdEntry * entries.length + blobsSize entries +
        (entries.map overCount).sum := by
  induction entries with
  | nil => simp
  | cons lsme rest ih =>
    intro init
    have hle := packedCount_size_le lsme
    have hentry : sizeofStripeMdEntry = sizeofCompMdEntry + 8 := rfl
    rw [foldl_cons, ih]
    simp only [length_cons, blobsSize_cons, map_cons, sum_cons, overCount]
    rw [mul_add, mul_one]
    omega

/-- **The size query of a composite layout** is what the layout takes and, for each
component, the excess. -/
theorem lovCompMdSize_eq (hcomp : lsm.lsmMagic = .compV1) :
    lovCompMdSize lsm = sizeofCompMd + sizeofCompMdEntry * lsm.lsmEntries.length +
      blobsSize lsm.lsmEntries + (lsm.lsmEntries.map overCount).sum := by
  rw [lovCompMdSize, hcomp]
  exact foldl_size lsm.lsmEntries sizeofCompMd

/-! ## Where the blobs are -/

/-- First byte after the blob of an entry. -/
def LovCompMdEntry.stop (lcme : LovCompMdEntry) : ℕ := lcme.lcmeOffset + lcme.lcmeSize

/-- The bytes that a plain layout is written to. -/
def LovMdsMd.bytes (lmm : LovMdsMd) : ℕ :=
  sizeofMdsMd lmm.lmmMagic + lmm.lmmObjects.length * sizeofOstData

/-- The end of the last blob, or of the header if there is none. -/
def LovCompMd.blobsEnd (lcm : LovCompMd) : ℕ :=
  (lcm.lcmEntries.getLast?.map fun e => e.1.stop).getD sizeofCompMd

/-- The blobs stand end to end between two offsets, each written in full. -/
inductive Chained : ℕ → List (LovCompMdEntry × LovMdsMd) → ℕ → Prop where
  | nil (a : ℕ) : Chained a [] a
  | cons {a b : ℕ} {e : LovCompMdEntry × LovMdsMd} {rest : List (LovCompMdEntry × LovMdsMd)}
      (start : e.1.lcmeOffset = a) (bytes : e.2.bytes = e.1.lcmeSize)
      (next : Chained e.1.stop rest b) : Chained a (e :: rest) b

open LovCompMdEntry

section
variable {a b : ℕ} {entries : List (LovCompMdEntry × LovMdsMd)}

theorem Chained.le (h : Chained a entries b) : a ≤ b := by
  induction h with
  | nil => exact le_rfl
  | @cons a b e rest start bytes next ih =>
    rw [stop] at ih
    omega

theorem Chained.within (h : Chained a entries b) :
    ∀ e ∈ entries, a ≤ e.1.lcmeOffset ∧ e.1.stop ≤ b ∧ e.2.bytes = e.1.lcmeSize := by
  induction h with
  | nil => exact forall_mem_nil _
  | @cons a b e rest start bytes next ih =>
    have hle := next.le
    rw [forall_mem_cons]
    refine ⟨⟨start.ge, hle, bytes⟩, fun x hx => ?_⟩
    obtain ⟨hstart, hrest⟩ := ih x hx
    rw [stop] at hstart
    exact ⟨by omega, hrest⟩

theorem Chained.apart (h : Chained a entries b) :
    entries.Pairwise fun e e' => e.1.stop ≤ e'.1.lcmeOffset := by
  induction h with
  | nil => exact Pairwise.nil
  | cons start bytes next ih =>
    exact Pairwise.cons (fun x hx => (next.within x hx).1) ih

end

/-- What the packer relies on: a component with objects has as many as its stripe count
says, and the count is not one of the values `lov_mds_md_size` treats as a template. -/
def LovLayoutEntry.Filled (lsme : LovLayoutEntry) : Prop :=
  hasObjects lsme.lsmeFlags lsme.lsmePattern = true →
    lsme.lsmeOinfo.length = lsme.lsmeStripeCount.toNat ∧
      lsme.lsmeStripeCount.toNat ≤ lovV1InsaneStripeCount

/-- The blob of a component fills the size recorded for it. -/
theorem packBlob_bytes (hfilled : lsme.Filled) :
    (packBlob lsme).bytes = lovMdsMdSize (packedCount lsme) lsme.lsmeMagic := by
  rw [LovMdsMd.bytes, lovMdsMdSize]
  simp only [packBlob, length_take]
  rw [packedCount_eq]
  split
  · rename_i hobj
    obtain ⟨hlen, hcount⟩ := hfilled hobj
    have hne : lsme.lsmeStripeCount.toNat ≠ 0xffff := by
      rw [lovV1InsaneStripeCount] at hcount
      omega
    rw [hlen, Nat.min_self, if_neg hne]
  · simp

/-- As long as the offset does not wrap, the loop lays the blobs end to end. -/
theorem packed_chain (entries : List LovLayoutEntry) :
    ∀ a, (∀ lsme ∈ entries, lsme.Filled) → a + blobsSize entries < 2 ^ 32 →
      Chained a (lovLsmPackLoop a entries) (a + blobsSize entries) := by
  induction entries with
  | nil =>
    intro a _ _
    exact Chained.nil a
  | cons lsme rest ih =>
    intro a hfilled hlt
    rw [forall_mem_cons] at hfilled
    rw [blobsSize_cons, ← add_assoc] at hlt ⊢
    have hnext := ih (a + lovMdsMdSize (packedCount lsme) lsme.lsmeMagic) hfilled.2 hlt
    rw [lovLsmPackLoop, u32_of_lt (by omega)]
    exact Chained.cons rfl (packBlob_bytes hfilled.1) hnext

/-- Wrapped or not, no blob ends past the sum of the sizes. -/
theorem packLoop_stop_le (entries : List LovLayoutEntry) :
    ∀ a, ∀ e ∈ lovLsmPackLoop a entries, e.1.stop ≤ a + blobsSize entries := by
  induction entries with
  | nil =>
    intro a
    exact forall_mem_nil _
  | cons lsme rest ih =>
    intro a
    rw [lovLsmPackLoop, forall_mem_cons, blobsSize_cons]
    constructor
    · simp only [stop]
      omega
    · intro e he
      have hle := ih _ e he
      have hwrap : u32 (a + lovMdsMdSize (packedCount lsme) lsme.lsmeMagic) ≤
          a + lovMdsMdSize (packedCount lsme) lsme.lsmeMagic := Nat.mod_le _ _
      omega

/-- **The packer stays inside its buffer**: while the size fits in the 32 bits that are
recorded, the blobs follow the table, are apart from each other, are written in full and
end within the first `lcm_size` bytes, and `lcm_size` is the size returned. -/
theorem lovLsmPack_inside (hcomp : lsm.lsmMagic = .compV1)
    (hfilled : ∀ lsme ∈ lsm.lsmEntries, lsme.Filled) (hfits : lovCompMdSize lsm < 2 ^ 32) :
    (packComp lsm).lcmSize = lovCompMdSize lsm ∧
    (packComp lsm).lcmEntries.Pairwise (fun e e' => e.1.stop ≤ e'.1.lcmeOffset) ∧
    ∀ e ∈ (packComp lsm).lcmEntries,
      sizeofCompMd + sizeofCompMdEntry * lsm.lsmEntries.length ≤ e.1.lcmeOffset ∧
      e.1.stop ≤ (packComp lsm).lcmSize ∧ e.2.bytes = e.1.lcmeSize := by
  have hsize := lovCompMdSize_eq hcomp
  have hlcm : (packComp lsm).lcmSize = lovCompMdSize lsm := u32_of_lt hfits
  have hchain := packed_chain lsm.lsmEntries
    (sizeofCompMd + sizeofCompMdEntry * lsm.lsmEntries.length) hfilled (by omega)
  refine ⟨hlcm, hchain.apart, fun e he => ?_⟩
  obtain ⟨hstart, hstop, hbytes⟩ := hchain.within e he
  exact ⟨hstart, by omega, hbytes⟩

/-- The blobs end before the size that is asked for, as soon as there is one. -/
theorem blobsEnd_lt (hcomp : lsm.lsmMagic = .compV1) (hne : lsm.lsmEntries ≠ []) :
    (packComp lsm).blobsEnd < lovCompMdSize lsm := by
  have hsize := lovCompMdSize_eq hcomp
  obtain ⟨lsme, rest, heq⟩ := exists_cons_of_ne_nil hne
  have hover : 0 < (lsm.lsmEntries.map overCount).sum := by
    have hpos : 0 < overCount lsme := by
      rw [overCount]
      exact Nat.add_pos_left (by decide) _
    rw [heq, map_cons, sum_cons]
    omega
  rw [LovCompMd.blobsEnd]
  cases hlast : (packComp lsm).lcmEntries.getLast? with
  | none =>
    simp only [Option.map_none, Option.getD_none]
    omega
  | some e =>
    have hle := packLoop_stop_le lsm.lsmEntries _ e (mem_of_getLast? hlast)
    simp only [Option.map_some, Option.getD_some]
    omega

/-! ## The packer and the size query together -/

/-- The layout is packed without slack: the blobs are apart, follow the table, lie within
the recorded size, and that size, the size returned and the size asked for are the end of
the last blob. -/
def PackedTight (lsm : LovStripeMd) (bufSize : ℕ) : Prop :=
  ∃ size lcm, lovLsmPack lsm bufSize = some (size, some (.comp lcm)) ∧
    lcm.lcmEntries.Pairwise (fun e e' => e.1.stop ≤ e'.1.lcmeOffset) ∧ (∀ e ∈ lcm.lcmEntries,
      sizeofCompMd + sizeofCompMdEntry * lcm.lcmEntryCount ≤ e.1.lcmeOffset ∧
      e.1.stop ≤ lcm.lcmSize) ∧
    lcm.lcmSize = lcm.blobsEnd ∧ size = lcm.blobsEnd ∧ lovCompMdSize lsm = lcm.blobsEnd

/-- **A composite layout is packed without slack only if it has no component.** -/
theorem packedTight_iff (lsm : LovStripeMd) (hcomp : lsm.lsmMagic = .compV1) (bufSize : ℕ)
    (hbuf : lovCompMdSize lsm ≤ bufSize) : PackedTight lsm bufSize ↔ lsm.lsmEntries = [] := by
  have hpack : lovLsmPack lsm bufSize =
      some (lovCompMdSize lsm, some (.comp (packComp lsm))) := by
    have hsize := lovCompMdSize_eq hcomp
    have hpos : 0 < sizeofCompMd := by decide
    simp only [lovLsmPack, hcomp]
    rw [if_neg (by omega), if_neg (by omega)]
  constructor
  · rintro ⟨size, lcm, heq, -, -, -, -, hsize⟩
    rw [hpack] at heq
    cases heq
    by_contra hne
    have hlt := blobsEnd_lt hcomp hne
    omega
  · intro hnil
    have hsize : lovCompMdSize lsm = sizeofCompMd := by
      rw [lovCompMdSize_eq hcomp, hnil]
      rfl
    have hentries : (packComp lsm).lcmEntries = [] := by
      rw [packComp, hnil]
      rfl
    have hend : (packComp lsm).blobsEnd = sizeofCompMd := by
      rw [LovCompMd.blobsEnd, hentries]
      rfl
    refine ⟨lovCompMdSize lsm, packComp lsm, hpack, ?_, ?_, ?_, ?_, ?_⟩
    · rw [hentries]
      exact Pairwise.nil
    · rw [hentries]
      exact forall_mem_nil _
    · have hlcm : (packComp lsm).lcmSize = u32 (lovCompMdSize lsm) := rfl
      rw [hend, hlcm, hsize]
      decide
    · rw [hend, hsize]
    · rw [hend, hsize]

/-- A layout with one instantiated V1 component of one stripe. -/
def oneComponent : LovStripeMd where
  lsmMagic := .compV1
  lsmOi := ⟨0, 0⟩
  lsmLayoutGen := 1
  lsmFlags := 0
  lsmIsReleased := false
  lsmMirrorCount := 0
  lsmEntries := [{
    lsmePattern := lovPatternRaid0
    lsmeStripeSize := 65536
    lsmeStripeCount := 1
    lsmeStart := 0
    lsmeEnd := 0xffffffffffffffff
    lsmeId := 1
    lsmeMagic := .v1
    lsmeFlags := lcmeFlInit
    lsmeLayoutGen := 0
    lsmePoolName := []
    lsmeOinfo := [⟨⟨2, 0⟩, 0, 0⟩] }]

/-- Its blob is the 56 bytes from 80 on, and 144 are asked for, recorded and returned. -/
theorem oneComponent_slack : (lovCompMdSize oneComponent, (packComp oneComponent).lcmSize,
      (packComp oneComponent).blobsEnd) = (144, 144, 136) ∧ ¬ PackedTight oneComponent 144 := by
  refine ⟨by decide, ?_⟩
  rintro ⟨size, lcm, heq, -, -, -, -, hsize⟩
  cases heq
  exact absurd hsize (by decide)

/-- The equivalence on that layout. -/
theorem packedTight_iff_one : PackedTight oneComponent 144 ↔ oneComponent.lsmEntries = [] :=
  packedTight_iff oneComponent rfl 144 (by decide)

/-- A layout with two such components, the second from 64 KiB on. -/
def twoComponents : LovStripeMd :=
  let first := oneComponent.lsmEntries.map fun e => { e with lsmeEnd := 65536 }
  let second := oneComponent.lsmEntries.map fun e => { e with lsmeStart := 65536, lsmeId := 2 }
  { oneComponent with lsmEntries := first ++ second }

/-- Its blobs are apart and lie behind the table within the 256 bytes recorded. -/
theorem twoComponents_inside : (packComp twoComponents).lcmSize = 256 ∧
    (packComp twoComponents).lcmEntries.map (fun e => e.1.lcmeOffset) = [128, 184] ∧
    (packComp twoComponents).lcmEntries.Pairwise (fun e e' => e.1.stop ≤ e'.1.lcmeOffset) ∧
    ∀ e ∈ (packComp twoComponents).lcmEntries, 128 ≤ e.1.lcmeOffset ∧ e.1.stop ≤ 256 := by
  obtain ⟨hsize, hapart, hin⟩ := @lovLsmPack_inside twoComponents rfl
    (forall_mem_cons.mpr ⟨fun _ => ⟨rfl, by decide⟩,
      forall_mem_singleton.mpr fun _ => ⟨rfl, by decide⟩⟩) (by decide)
  exact ⟨hsize, by decide, hapart, fun e he => ⟨(hin e he).1, (hin e he).2.1⟩⟩

end Lustre
