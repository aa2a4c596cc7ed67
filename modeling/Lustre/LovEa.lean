import Lustre.ByteReader
import Lustre.LovPack

/-!
# Unpacking a layout (`lov_unpackmd`, `lov_ea.c`)

A client gets the layout of a file as an extended attribute: bytes from the server that
`lov_unpackmd` turns into a `struct lov_stripe_md`. A plain layout is a V1 or V3 header
and a table of objects; a composite one is a header, a table of entries, and for each
entry a blob somewhere in the buffer that is itself a plain layout.

The model reads from the buffer where the source reads, in the same order, and stops at
the first read past the end. Whether it ever does is settled by `lovUnpackmd_inBounds`:
the condition `UnpackFits` lists, reader by reader, the sizes the source takes on trust.
-/

namespace Lustre

open ByteReader
open UInt32 (ofNat)

/-! ## The model -/

/-- The errors of the unpacker. -/
inductive UnpackErr where
  | einval
  | e2big
  deriving DecidableEq

/-- A pass of the unpacker over a buffer. -/
abbrev Unpack (α : Type) := Except (Fault UnpackErr) α

/-- The part of `struct lov_obd` that the unpacker looks at. -/
structure LovTargets where
  ldTgtCount : ℕ
  obdProcessConf : Bool
  /-- `lov_tgt_maxbytes` of `lov_tgts[idx]`, `none` where that is `NULL` -/
  lovTgts : ℕ → Option ℤ

/-- `LOV_MAGIC_V1`, `LOV_MAGIC_V3`. -/
def lmmMagicOf (magic : ℕ) : Option LmmMagic :=
  if magic = 0x0bd10bd0 then some .v1
  else if magic = 0x0bd30bd0 then some .v3
  else none

def lovMagicCompV1 : ℕ := 0x0bd60bd0

def lustreExt3StripeMaxbytes : ℤ := 0x1fffffff000

def maxLfsFilesize : ℤ := 2 ^ 63 - 1

/-- A product of two numbers in a `loff_t`. -/
def mulS64 (x y : ℤ) : ℤ := (x * y).bmod (2 ^ 64)

/-- A sum of two numbers in a `loff_t`. -/
def addS64 (x y : ℤ) : ℤ := (x + y).bmod (2 ^ 64)

section
variable (lov : LovTargets) (buf : List UInt8)

/-- The object identifier at an offset. -/
def ostIdAt (off : ℕ) : OstId := ⟨UInt64.ofNat (leAt buf off 8), UInt64.ofNat (leAt buf (off + 8) 8)⟩

/-- The object at an offset. -/
def ostDataAt (off : ℕ) : LovOstData where
  lOstOi := ostIdAt buf off
  lOstGen := ofNat (leAt buf (off + 16) 4)
  lOstIdx := ofNat (leAt buf (off + 20) 4)

/-- The pattern of the layout at an offset. -/
def patternAt (base : ℕ) : UInt32 := ofNat (leAt buf (base + 4) 4)

/-- `lov_dump_lmm_common`: it prints every field of a V1 header. -/
def lovDumpLmmCommon (base : ℕ) : Unpack Unit := touch _ buf base 32

/-- `lov_dump_lmm_v1`: the header and, unless there are insanely many, the objects after it. -/
def lovDumpLmmV1 (base : ℕ) : Unpack Unit := do
  lovDumpLmmCommon buf base
  let count ← readLe _ buf (base + 28) 2
  if count > lovV1InsaneStripeCount then pure ()
  else touch _ buf (base + 32) (sizeofOstData * count)

/-- Print the header and give up. -/
def dumpAndReject {α : Type} (base : ℕ) : Unpack α := do
  lovDumpLmmCommon buf base
  reject .einval

def lsmLmmVerifyV1V3 (base stripeCount : ℕ) : Unpack Unit :=
  if stripeCount > lovV1InsaneStripeCount then dumpAndReject buf base
  else do
    let id ← readLe _ buf (base + 8) 8
    if id = 0 then dumpAndReject buf base
    else do
      let pattern ← readLe _ buf (base + 4) 4
      if lovPattern (ofNat pattern) ≠ lovPatternMdt ∧
          lovPattern (ofNat pattern) ≠ lovPatternRaid0 then dumpAndReject buf base
      else do
        let ssize ← readLe _ buf (base + 24) 4
        if ssize = 0 ∨ ssize &&& 0xffff ≠ 0 then dumpAndReject buf base
        else pure ()

def lovOinfoIsDummy (loi : LovOstData) : Bool :=
  loi.lOstOi.oiId == 0 && loi.lOstOi.oiSeq == 0 && loi.lOstIdx == 0 && loi.lOstGen == 0

/-- An object whose OST index the client does not know. -/
def badIndex (loi : LovOstData) : Bool :=
  !lovOinfoIsDummy loi && decide (lov.ldTgtCount ≤ loi.lOstIdx.toNat) && !lov.obdProcessConf

/-- The smallest object size limit so far; 0 stands for none. -/
def minMaxbytes (minBytes lovBytes : ℤ) : ℤ :=
  if minBytes = 0 ∨ lovBytes < minBytes then lovBytes else minBytes

/-- The loop of `lsme_unpack` over the last `n` objects, from object `i` on. It gives the
objects and the smallest size limit of their targets. -/
def unpackObjects (base objects : ℕ) : (n i : ℕ) → ℤ → Unpack (List LovOstData × ℤ)
  | 0, _, minBytes => pure ([], minBytes)
  | n + 1, i, minBytes => do
    touch _ buf (objects + sizeofOstData * i) sizeofOstData
    let loi := ostDataAt buf (objects + sizeofOstData * i)
    if lovOinfoIsDummy loi then do
      let r ← unpackObjects base objects n (i + 1) minBytes
      pure (loi :: r.1, r.2)
    else if badIndex lov loi then do
      lovDumpLmmV1 buf base
      reject .einval
    else
      match lov.lovTgts loi.lOstIdx.toNat with
      | none => do
        lovDumpLmmV1 buf base
        let r ← unpackObjects base objects n (i + 1) minBytes
        pure (loi :: r.1, r.2)
      | some lovBytes => do
        let r ← unpackObjects base objects n (i + 1) (minMaxbytes minBytes lovBytes)
        pure (loi :: r.1, r.2)

/-- The end of `lsme_unpack`: the size limit of the component. -/
def componentMaxbytes (minBytes lovBytes : ℤ) : ℤ :=
  if lovBytes < minBytes then maxLfsFilesize else lovBytes

/-- `strlcpy` of the pool name: the whole string is measured before the copy is cut off. -/
def unpackPool (poolName : Option ℕ) : Unpack (List UInt8) :=
  match poolName with
  | none => pure []
  | some off => do
    let len ← strlen _ buf off
    if len ≥ lovMaxpoolname + 1 then reject .e2big
    else pure ((buf.drop off).take len)

/-- The component is data on the MDT. -/
def IsDom (base : ℕ) : Prop := lovPattern (patternAt buf base) = lovPatternMdt
  deriving Decidable

/-- The size limit of a striped component, from the smallest limit of its objects. -/
def stripedMaxbytes (minBytes : ℤ) (stripeCount : ℕ) : ℤ :=
  let minBytes := if minBytes = 0 then lustreExt3StripeMaxbytes else minBytes
  componentMaxbytes minBytes (mulS64 minBytes stripeCount)

/-- The objects of a component, or none if its data is on the MDT. -/
def unpackTable (base stripeCount objects : ℕ) : Unpack (List LovOstData × ℤ) :=
  if IsDom buf base then pure ([], componentMaxbytes 0 (leAt buf (base + 24) 4))
  else do
    let r ← unpackObjects lov buf base objects stripeCount 0 0
    pure (r.1, stripedMaxbytes r.2 stripeCount)

/-- The second half of `lsme_unpack`, once the header is verified. -/
def lsmeUnpackBody (base : ℕ) (magic : LmmMagic) (poolName : Option ℕ) (stripeCount objects : ℕ) :
    Unpack (LovLayoutEntry × ℤ) := do
  touch _ buf base 32
  let name ← unpackPool buf poolName
  let r ← unpackTable lov buf base stripeCount objects
  pure ({
    lsmePattern := patternAt buf base
    lsmeStripeSize := ofNat (leAt buf (base + 24) 4)
    lsmeStripeCount := UInt16.ofNat (leAt buf (base + 28) 2)
    lsmeStart := 0
    lsmeEnd := 0
    lsmeId := 0
    lsmeMagic := magic
    lsmeFlags := 0
    lsmeLayoutGen := UInt16.ofNat (leAt buf (base + 30) 2)
    lsmePoolName := name
    lsmeOinfo := r.1 }, r.2)

/-- The stripe count of `lsme_unpack`: a released or uninstantiated component has no objects,
and its count is not looked at. -/
def readStripeCount (base pattern : ℕ) (inited : Bool) : Unpack ℕ :=
  if ofNat pattern &&& lovPatternFReleased ≠ 0 ∨ inited = false then pure 0
  else readLe _ buf (base + 28) 2

/-- `lsme_unpack`, with the component and its size limit. -/
def lsmeUnpack (base bufSize : ℕ) (poolName : Option ℕ) (inited : Bool) (objects : ℕ) :
    Unpack (LovLayoutEntry × ℤ) := do
  let magic ← readLe _ buf base 4
  match lmmMagicOf magic with
  | none => reject .einval
  | some magic => do
    let pattern ← readLe _ buf (base + 4) 4
    let stripeCount ← readStripeCount buf base pattern inited
    if bufSize < sizeofMdsMd magic then dumpAndReject buf base
    else do
      lsmLmmVerifyV1V3 buf base stripeCount
      lsmeUnpackBody lov buf base magic poolName stripeCount objects

def lsmUnpackmdV1V3 (magic : LmmMagic) (poolName : Option ℕ) (objects : ℕ) :
    Unpack (LovStripeMd × ℤ) := do
  let pattern ← readLe _ buf 4 4
  let r ← lsmeUnpack lov buf 0 buf.length poolName true objects
  touch _ buf 0 32
  pure ({
    lsmMagic := .plain magic
    lsmOi := ostIdAt buf 8
    lsmLayoutGen := ofNat (leAt buf 30 2)
    lsmFlags := 0
    lsmIsReleased := ofNat pattern &&& lovPatternFReleased != 0
    lsmMirrorCount := 0
    lsmEntries := [{ r.1 with lsmeFlags := lcmeFlInit, lsmeEnd := 0xffffffffffffffff }] }, r.2)

def lsmUnpackmdV1 : Unpack (LovStripeMd × ℤ) := lsmUnpackmdV1V3 lov buf .v1 none 32

def lsmUnpackmdV3 : Unpack (LovStripeMd × ℤ) := lsmUnpackmdV1V3 lov buf .v3 (some 32) 48

/-- Where entry `i` of a composite layout starts. -/
def lcmeAt (i : ℕ) : ℕ := sizeofCompMd + sizeofCompMdEntry * i

/-- `lcme_offset` of entry `i`. -/
def blobOffset (i : ℕ) : ℕ := leAt buf (lcmeAt i + 24) 4

/-- `lcme_size` of entry `i`. -/
def blobSize (i : ℕ) : ℕ := leAt buf (lcmeAt i + 28) 4

/-- `LCME_FL_INIT` of entry `i`. -/
def blobInited (i : ℕ) : Bool :=
  ofNat (leAt buf (lcmeAt i + 4) 4) &&& lcmeFlInit != 0

/-- One turn of the loop of `lsm_verify_comp_md_v1`. -/
def verifyEntry (lcmSize i : ℕ) : Unpack Unit := do
  let offset ← readLe _ buf (lcmeAt i + 24) 4
  let size ← readLe _ buf (lcmeAt i + 28) 4
  if lcmSize < offset ∨ lcmSize < size ∨ lcmSize < offset + size then do
    touch _ buf (lcmeAt i) 4
    reject .einval
  else pure ()

def lsmVerifyCompMdV1 : Unpack (List Unit) := do
  let lcmSize ← readLe _ buf 4 4
  if buf.length < lcmSize then reject .einval
  else do
    let entryCount ← readLe _ buf 14 2
    eachFrom (verifyEntry buf lcmSize) entryCount 0

/-- `lmm_pool_name`, which only a V3 layout has. -/
def poolNameOf (magic : LmmMagic) (base : ℕ) : Option ℕ :=
  match magic with
  | .v1 => none
  | .v3 => some (base + 32)

/-- `lmm_objects`, which follow the header. -/
def objectsOf (magic : LmmMagic) (base : ℕ) : ℕ := base + sizeofMdsMd magic

/-- The first test of `lsme_unpack_comp`: without stripes the pattern has to say that the data
is on the MDT, and only then is it read. -/
def checkNoStripes (base stripeCount : ℕ) : Unpack Unit :=
  if stripeCount = 0 then do
    let pattern ← readLe _ buf (base + 4) 4
    if lovPattern (ofNat pattern) ≠ lovPatternMdt then reject .einval else pure ()
  else pure ()

def lsmeUnpackComp (base lmmBufSize : ℕ) (inited : Bool) : Unpack (LovLayoutEntry × ℤ) := do
  let stripeCount ← readLe _ buf (base + 28) 2
  checkNoStripes buf base stripeCount
  let magic ← readLe _ buf base 4
  match lmmMagicOf magic with
  | none => reject .einval
  | some magic =>
    if lmmBufSize < lovMdsMdSize (if inited then stripeCount else 0) magic then reject .einval
    else lsmeUnpack lov buf base lmmBufSize (poolNameOf magic base) inited (objectsOf magic base)

/-- One turn of the loop of `lsm_unpackmd_comp_md_v1`. -/
def unpackEntry (i : ℕ) : Unpack (LovLayoutEntry × ℤ) := do
  touch _ buf (lcmeAt i) 32
  let r ← lsmeUnpackComp lov buf (blobOffset buf i) (blobSize buf i) (blobInited buf i)
  pure ({ r.1 with
    lsmeId := ofNat (leAt buf (lcmeAt i) 4)
    lsmeFlags := ofNat (leAt buf (lcmeAt i + 4) 4)
    lsmeStart := UInt64.ofNat (leAt buf (lcmeAt i + 8) 8)
    lsmeEnd := UInt64.ofNat (leAt buf (lcmeAt i + 16) 8) }, r.2)

/-- `lsm_maxbytes` of a composite layout, from its last component. -/
def compMaxbytes (lsme : LovLayoutEntry) (maxbytes : ℤ) : ℤ :=
  let start := toS64 lsme.lsmeStart.toNat
  let total := addS64 start maxbytes
  if ¬ lsmeIsDom lsme.toLovStripeMdEntry ∧
      (lsme.lsmeEnd ≠ 0xffffffffffffffff ∨ total < start) then maxLfsFilesize
  else total

def lsmUnpackmdCompMdV1 : Unpack (LovStripeMd × ℤ) := do
  let _ ← lsmVerifyCompMdV1 buf
  let entryCount ← readLe _ buf 14 2
  touch _ buf 0 18
  let entries ← eachFrom (unpackEntry lov buf) entryCount 0
  pure ({
    lsmMagic := .compV1
    lsmOi := ⟨0, 0⟩
    lsmLayoutGen := ofNat (leAt buf 8 4)
    lsmFlags := UInt16.ofNat (leAt buf 12 2)
    lsmIsReleased := entries.all fun e => e.1.lsmePattern &&& lovPatternFReleased != 0
    lsmMirrorCount := UInt16.ofNat (leAt buf 16 2)
    lsmEntries := entries.map Prod.fst },
    (entries.getLast?.map fun e => compMaxbytes e.1 e.2).getD (-2 ^ 63))

def lovUnpackmd : Unpack (LovStripeMd × ℤ) :=
  if buf.length < 4 then reject .einval
  else
    let magic := leAt buf 0 4
    if magic = lovMagicCompV1 then lsmUnpackmdCompMdV1 lov buf
    else
      match lmmMagicOf magic with
      | some .v1 => lsmUnpackmdV1 lov buf
      | some .v3 => lsmUnpackmdV3 lov buf
      | none => reject .einval

end

/-! ## What the unpacker takes on trust -/

section
variable (lov : LovTargets) (buf : List UInt8)

/-- The stripe count that `lsme_unpack` works with. -/
def countAt (base : ℕ) (inited : Bool) : ℕ :=
  if patternAt buf base &&& lovPatternFReleased ≠ 0 ∨ inited = false then 0
  else leAt buf (base + 28) 2

/-- The header passes `lsm_lmm_verify_v1v3`. -/
structure Verified (base stripeCount : ℕ) : Prop where
  /-- not too many stripes -/
  count_le : stripeCount ≤ lovV1InsaneStripeCount
  /-- an object identifier -/
  id_ne : leAt buf (base + 8) 8 ≠ 0
  /-- a pattern that is known -/
  pattern : lovPattern (patternAt buf base) = lovPatternMdt ∨
    lovPattern (patternAt buf base) = lovPatternRaid0
  /-- a chunk size -/
  ssize_ne : leAt buf (base + 24) 4 ≠ 0
  /-- that is a multiple of 64 KiB -/
  ssize_mask : leAt buf (base + 24) 4 &&& 0xffff = 0

/-- Object `i` of the table has an OST index that the client does not know. -/
def BadObject (objects i : ℕ) : Prop :=
  badIndex lov (ostDataAt buf (objects + sizeofOstData * i)) = true

/-- The table of objects is inside the buffer; or it is inside up to an object with a bad
index, and so is the part that is then printed. -/
def TableFits (base objects count : ℕ) : Prop :=
  count = 0 ∨ objects + sizeofOstData * count ≤ buf.length ∨
    (base + 32 + sizeofOstData * count ≤ buf.length ∧
      ∃ i < count, objects + sizeofOstData * (i + 1) ≤ buf.length ∧ BadObject lov buf objects i)

/-- A plain layout fills no more than the buffer: the fields of a V1 header are there; and
if the whole header is there and passes, the pool name ends inside the buffer and the
objects are there, if there are to be any. -/
def PlainFits (magic : LmmMagic) : Prop :=
  32 ≤ buf.length ∧ (sizeofMdsMd magic ≤ buf.length → Verified buf 0 (countAt buf 0 true) →
      (magic = .v3 → Ends buf 32) ∧
      ((magic = .v3 → EndsWithin buf 32 (lovMaxpoolname + 1)) → ¬ IsDom buf 0 →
        TableFits lov buf 0 (sizeofMdsMd magic) (countAt buf 0 true)))

/-- `lcm_size`. -/
def lcmSizeAt : ℕ := leAt buf 4 4

/-- `lcm_entry_count`. -/
def entryCountAt : ℕ := leAt buf 14 2

/-- The blob of entry `i` is inside the layout, as far as the entry says. -/
def BlobInside (i : ℕ) : Prop := blobOffset buf i + blobSize buf i ≤ lcmSizeAt buf

/-- The header of a blob of the given size passes the checks of `lsme_unpack_comp` and
`lsm_lmm_verify_v1v3`. -/
structure HeaderPasses (base size : ℕ) (inited : Bool) (magic : LmmMagic) : Prop where
  /-- there are stripes, unless the data is on the MDT -/
  count : leAt buf (base + 28) 2 = 0 → IsDom buf base
  /-- V1 or V3 -/
  magic_eq : lmmMagicOf (leAt buf base 4) = some magic
  /-- the blob has room for the objects -/
  size_le : lovMdsMdSize (if inited then leAt buf (base + 28) 2 else 0) magic ≤ size
  /-- the fields are accepted -/
  verified : Verified buf base (countAt buf base inited)

/-- The blob of entry `i` is accepted. -/
def BlobAccepted (i : ℕ) : Prop :=
  ∃ magic, HeaderPasses buf (blobOffset buf i) (blobSize buf i) (blobInited buf i) magic ∧
    (magic = .v3 → EndsWithin buf (blobOffset buf i + 32) (lovMaxpoolname + 1)) ∧
    (IsDom buf (blobOffset buf i) ∨ ∀ j < countAt buf (blobOffset buf i) (blobInited buf i),
      ¬ BadObject lov buf (objectsOf magic (blobOffset buf i)) j)

/-- What unpacking the blob of entry `i` needs of the buffer: the fields that are read before
its size is looked at, and an end of the pool name. -/
def BlobFits (i : ℕ) : Prop :=
  blobOffset buf i + 30 ≤ buf.length ∧
    (HeaderPasses buf (blobOffset buf i) (blobSize buf i) (blobInited buf i) .v3 →
      Ends buf (blobOffset buf i + 32))

/-- A composite layout fills no more than the buffer: its size is there; if that is not more
than the buffer, the entry count is there and each entry up to the first with a bad blob;
and if no blob is bad, so is the mirror count, and each blob up to the first that is not
accepted fits. -/
def CompFits : Prop :=
  8 ≤ buf.length ∧ (lcmSizeAt buf ≤ buf.length → 16 ≤ buf.length ∧
    (∀ i < entryCountAt buf, (∀ j < i, BlobInside buf j) → lcmeAt i + 32 ≤ buf.length) ∧
    ((∀ i < entryCountAt buf, BlobInside buf i) → 18 ≤ buf.length ∧
      ∀ i < entryCountAt buf, (∀ j < i, BlobAccepted lov buf j) → BlobFits buf i))

/-- What `lov_unpackmd` needs of a buffer to stay inside it. -/
def UnpackFits : Prop :=
  4 ≤ buf.length → (leAt buf 0 4 = lovMagicCompV1 → CompFits lov buf) ∧
    ∀ magic, lmmMagicOf (leAt buf 0 4) = some magic → PlainFits lov buf magic

end

/-! ## The header -/

variable {lov : LovTargets} {buf : List UInt8} {base : ℕ}

theorem dumpAndReject_eq {α : Type} (hbase : base + 32 ≤ buf.length) :
    (dumpAndReject buf base : Unpack α) = reject .einval := by
  rw [dumpAndReject, lovDumpLmmCommon, touch_eq_ok hbase, ok_bind]

/-- With the header in the buffer, `lsm_lmm_verify_v1v3` decides whether it passes. -/
theorem lsmLmmVerifyV1V3_eq (hbase : base + 32 ≤ buf.length) (count : ℕ) :
    (Verified buf base count ∧ lsmLmmVerifyV1V3 buf base count = .ok ()) ∨
      (¬ Verified buf base count ∧ lsmLmmVerifyV1V3 buf base count = reject .einval) := by
  rw [lsmLmmVerifyV1V3]
  simp only [dumpAndReject_eq hbase]
  rw [readLe_eq_ok (by omega), readLe_eq_ok (by omega), readLe_eq_ok (by omega)]
  simp only [ok_bind]
  by_cases hcount : count > lovV1InsaneStripeCount
  · right
    exact ⟨fun h => absurd h.count_le (by omega), if_pos hcount⟩
  · rw [if_neg hcount]
    by_cases hid : leAt buf (base + 8) 8 = 0
    · right
      exact ⟨fun h => h.id_ne hid, if_pos hid⟩
    · rw [if_neg hid]
      split
      · rename_i hpattern
        right
        refine ⟨fun h => ?_, rfl⟩
        rcases h.pattern with heq | heq
        · exact hpattern.1 heq
        · exact hpattern.2 heq
      · rename_i hpattern
        split
        · rename_i hsize
          right
          refine ⟨fun h => ?_, rfl⟩
          rcases hsize with h0 | hmask
          · exact h.ssize_ne h0
          · exact hmask h.ssize_mask
        · rename_i hsize
          left
          rw [not_or, not_not] at hsize
          refine ⟨⟨by omega, hid, ?_, hsize.1, hsize.2⟩, rfl⟩
          rw [not_and_or, not_not, not_not] at hpattern
          exact hpattern

/-- With the header in the buffer, `lsme_unpack` rejects it or goes on to the body. -/
theorem lsmeUnpack_eq (lov : LovTargets) (hbase : base + 32 ≤ buf.length) {magic : LmmMagic}
    (hmagic : lmmMagicOf (leAt buf base 4) = some magic) (bufSize : ℕ) (poolName : Option ℕ)
    (inited : Bool) (objects : ℕ) :
    (sizeofMdsMd magic ≤ bufSize ∧ Verified buf base (countAt buf base inited) ∧
      lsmeUnpack lov buf base bufSize poolName inited objects =
        lsmeUnpackBody lov buf base magic poolName (countAt buf base inited) objects) ∨
    (¬ (sizeofMdsMd magic ≤ bufSize ∧ Verified buf base (countAt buf base inited)) ∧
      lsmeUnpack lov buf base bufSize poolName inited objects = reject .einval) := by
  have hcount : readStripeCount buf base (leAt buf (base + 4) 4) inited =
      .ok (countAt buf base inited) := by
    rw [readStripeCount, countAt, patternAt]
    split
    · rfl
    · exact readLe_eq_ok (by omega)
  rw [lsmeUnpack, readLe_eq_ok (by omega), ok_bind]
  simp only [hmagic]
  rw [readLe_eq_ok (by omega), ok_bind, hcount, ok_bind, dumpAndReject_eq hbase]
  by_cases hsize : bufSize < sizeofMdsMd magic
  · right
    exact ⟨fun h => by omega, if_pos hsize⟩
  · rw [if_neg hsize]
    rcases lsmLmmVerifyV1V3_eq hbase (countAt buf base inited) with ⟨hv, heq⟩ | ⟨hv, heq⟩
    · left
      rw [heq]
      exact ⟨by omega, hv, rfl⟩
    · right
      rw [heq]
      exact ⟨fun h => hv h.2, rfl⟩

/-! ## The pool -/

theorem inBounds_unpackPool (poolName : Option ℕ) :
    InBounds (unpackPool buf poolName) ↔ ∀ off ∈ poolName, Ends buf off := by
  cases poolName with
  | none => simp [unpackPool]
  | some off =>
    rw [unpackPool, inBounds_strlen_bind]
    simp only [Option.mem_some_iff, forall_eq', and_iff_left_iff_imp]
    intro _
    split
    · exact inBounds_reject _
    · exact inBounds_pure _

theorem accepts_unpackPool (poolName : Option ℕ) : Accepts (unpackPool buf poolName) ↔
      ∀ off ∈ poolName, EndsWithin buf off (lovMaxpoolname + 1) := by
  cases poolName with
  | none => simp [unpackPool]
  | some off =>
    simp only [Option.mem_some_iff, forall_eq']
    rw [unpackPool]
    by_cases hends : Ends buf off
    · rw [strlen_eq_ok hends, ok_bind, ← idxOf_lt_iff hends]
      split
      · rename_i hlong
        exact iff_of_false (not_accepts_reject _) (by omega)
      · rename_i hshort
        exact iff_of_true (accepts_pure _) (by omega)
    · rw [strlen, if_neg hends]
      refine iff_of_false ?_ fun h => hends h.ends
      simp [Accepts, bind, Except.bind]

/-! ## The objects -/

section
variable {objects count : ℕ} (hbase : base + 32 ≤ buf.length)
  (hcount : count ≠ 0 → count = leAt buf (base + 28) 2) (hle : count ≤ lovV1InsaneStripeCount)
  (hobj : base + 32 ≤ objects)
include hbase hcount hle

/-- Printing a layout with objects reads its header and its objects as those of a V1 layout. -/
theorem lovDumpLmmV1_eq (hne : count ≠ 0) :
    lovDumpLmmV1 buf base = touch _ buf (base + 32) (sizeofOstData * count) := by
  rw [lovDumpLmmV1, lovDumpLmmCommon, touch_eq_ok hbase, ok_bind, readLe_eq_ok (by omega),
    ok_bind, ← hcount hne, if_neg (by omega)]

variable (lov buf base objects count) in
/-- The rest of the table is in the buffer, or the part of it up to a bad object and what is
printed then. -/
def RestFits (i : ℕ) : Prop :=
  objects + 24 * count ≤ buf.length ∨ (base + 32 + 24 * count ≤ buf.length ∧
    ∃ j, i ≤ j ∧ j < count ∧ objects + 24 * (j + 1) ≤ buf.length ∧ BadObject lov buf objects j)

include hobj

/-- **The object loop stays in bounds** exactly if the rest of the table fits. -/
theorem inBounds_unpackObjects : ∀ n i minBytes, i + n = count →
      (InBounds (unpackObjects lov buf base objects n i minBytes) ↔
        n = 0 ∨ RestFits lov buf base objects count i) := by
  intro n
  induction n with
  | zero =>
    intro i minBytes _
    exact iff_of_true (inBounds_pure _) (Or.inl rfl)
  | succ n ih =>
    intro i minBytes hin
    have hdump := lovDumpLmmV1_eq hbase hcount hle (by omega)
    -- what the turns after this one need, with the read of this turn
    have hrest : ∀ m, objects + 24 * i + 24 ≤ buf.length ∧
        InBounds (unpackObjects lov buf base objects n (i + 1) m) ↔
        RestFits lov buf base objects count (i + 1) := by
      intro m
      rw [ih (i + 1) m (by omega)]
      constructor
      · rintro ⟨hread, hn | h⟩
        · left
          omega
        · exact h
      · rintro (h | ⟨hd, j, hij, hjc, hj, hbad⟩)
        · exact ⟨by omega, Or.inr (Or.inl h)⟩
        · exact ⟨by omega, Or.inr (Or.inr ⟨hd, j, hij, hjc, hj, hbad⟩)⟩
    -- a turn that goes on is not at a bad object
    have hgood : ¬ BadObject lov buf objects i → (RestFits lov buf base objects count (i + 1) ↔
        n + 1 = 0 ∨ RestFits lov buf base objects count i) := by
      intro hnot
      constructor
      · rintro (h | ⟨hd, j, hij, hrest⟩)
        · exact Or.inr (Or.inl h)
        · exact Or.inr (Or.inr ⟨hd, j, by omega, hrest⟩)
      · rintro (h0 | h | ⟨hd, j, hij, hjc, hj, hbad⟩)
        · omega
        · exact Or.inl h
        · rcases eq_or_lt_of_le hij with rfl | hlt
          · exact absurd hbad hnot
          · exact Or.inr ⟨hd, j, hlt, hjc, hj, hbad⟩
    rw [unpackObjects, inBounds_touch_bind]
    by_cases hdummy : lovOinfoIsDummy (ostDataAt buf (objects + sizeofOstData * i)) = true
    · have hnot : ¬ BadObject lov buf objects i := by
        simp [BadObject, badIndex, hdummy]
      rw [if_pos hdummy, inBounds_bind_pure]
      exact (hrest minBytes).trans (hgood hnot)
    · rw [if_neg hdummy, hdump]
      by_cases hbad : badIndex lov (ostDataAt buf (objects + sizeofOstData * i)) = true
      · rw [if_pos hbad, inBounds_touch_bind]
        simp only [sizeofOstData]
        constructor
        · rintro ⟨hread, hprint, -⟩
          exact Or.inr (Or.inr ⟨hprint, i, le_rfl, by omega, by omega, hbad⟩)
        · rintro (h0 | h | ⟨hd, j, hij, hjc, hj, -⟩)
          · omega
          · exact ⟨by omega, by omega, inBounds_reject _⟩
          · exact ⟨by omega, hd, inBounds_reject _⟩
      · rw [if_neg hbad]
        have hnot : ¬ BadObject lov buf objects i := hbad
        cases lov.lovTgts (ostDataAt buf (objects + sizeofOstData * i)).lOstIdx.toNat with
        | none =>
          simp only [inBounds_touch_bind, inBounds_bind_pure, sizeofOstData]
          rw [← hgood hnot, ← hrest minBytes]
          constructor
          · rintro ⟨hread, hprint, hnext⟩
            exact ⟨hread, hnext⟩
          · rintro ⟨hread, hnext⟩
            refine ⟨hread, ?_, hnext⟩
            rcases (hrest minBytes).mp ⟨hread, hnext⟩ with h | ⟨hd, -⟩
            · omega
            · exact hd
        | some lovBytes =>
          simp only [inBounds_bind_pure]
          exact (hrest _).trans (hgood hnot)

/-- In a table that is in the buffer, the loop accepts exactly if no object is bad. -/
theorem accepts_unpackObjects (htable : objects + sizeofOstData * count ≤ buf.length) :
    ∀ n i minBytes, i + n = count →
      (Accepts (unpackObjects lov buf base objects n i minBytes) ↔
        ∀ j, i ≤ j → j < count → ¬ BadObject lov buf objects j) := by
  simp only [sizeofOstData] at htable
  intro n
  induction n with
  | zero =>
    intro i minBytes hin
    refine iff_of_true (accepts_pure _) fun j hij hj => ?_
    omega
  | succ n ih =>
    intro i minBytes hin
    have hdump := lovDumpLmmV1_eq hbase hcount hle (by omega)
    simp only [sizeofOstData] at hdump
    rw [touch_eq_ok (by omega)] at hdump
    -- a turn that goes on is not at a bad object
    have hgood : ¬ BadObject lov buf objects i →
        ((∀ j, i + 1 ≤ j → j < count → ¬ BadObject lov buf objects j) ↔
          ∀ j, i ≤ j → j < count → ¬ BadObject lov buf objects j) := by
      intro hnot
      constructor
      · intro h j hij hjc
        rcases eq_or_lt_of_le hij with rfl | hlt
        · exact hnot
        · exact h j hlt hjc
      · intro h j hij hjc
        exact h j (by omega) hjc
    have hread : objects + sizeofOstData * i + sizeofOstData ≤ buf.length := by
      simp only [sizeofOstData]
      omega
    rw [unpackObjects, touch_eq_ok hread, ok_bind]
    by_cases hdummy : lovOinfoIsDummy (ostDataAt buf (objects + sizeofOstData * i)) = true
    · have hnot : ¬ BadObject lov buf objects i := by
        simp [BadObject, badIndex, hdummy]
      rw [if_pos hdummy, accepts_bind_pure, ih _ _ (by omega), hgood hnot]
    · rw [if_neg hdummy, hdump]
      by_cases hbad : badIndex lov (ostDataAt buf (objects + sizeofOstData * i)) = true
      · rw [if_pos hbad, ok_bind]
        refine iff_of_false (not_accepts_reject _) fun h => ?_
        exact h i le_rfl (by omega) hbad
      · rw [if_neg hbad]
        have hnot : ¬ BadObject lov buf objects i := hbad
        cases lov.lovTgts (ostDataAt buf (objects + sizeofOstData * i)).lOstIdx.toNat with
        | none =>
          simp only [ok_bind, accepts_bind_pure]
          rw [ih _ _ (by omega), hgood hnot]
        | some lovBytes =>
          simp only [accepts_bind_pure]
          rw [ih _ _ (by omega), hgood hnot]

/-! ## The body of a component -/

theorem inBounds_unpackTable : InBounds (unpackTable lov buf base count objects) ↔
      (¬ IsDom buf base → TableFits lov buf base objects count) := by
  rw [unpackTable]
  by_cases hdom : IsDom buf base
  · rw [if_pos hdom]
    exact iff_of_true (inBounds_pure _) fun h => absurd hdom h
  · rw [if_neg hdom, inBounds_bind_pure,
      inBounds_unpackObjects hbase hcount hle hobj count 0 0 (zero_add count)]
    simp [hdom, TableFits, RestFits, sizeofOstData]

theorem accepts_unpackTable (htable : objects + sizeofOstData * count ≤ buf.length) :
    Accepts (unpackTable lov buf base count objects) ↔
      IsDom buf base ∨ ∀ j < count, ¬ BadObject lov buf objects j := by
  rw [unpackTable]
  by_cases hdom : IsDom buf base
  · rw [if_pos hdom]
    exact iff_of_true (accepts_pure _) (Or.inl hdom)
  · rw [if_neg hdom, accepts_bind_pure,
      accepts_unpackObjects hbase hcount hle hobj htable count 0 0 (zero_add count)]
    simp [hdom]

theorem inBounds_lsmeUnpackBody (magic : LmmMagic) (poolName : Option ℕ) :
    InBounds (lsmeUnpackBody lov buf base magic poolName count objects) ↔
      (∀ off ∈ poolName, Ends buf off) ∧
      ((∀ off ∈ poolName, EndsWithin buf off (lovMaxpoolname + 1)) → ¬ IsDom buf base →
        TableFits lov buf base objects count) := by
  rw [lsmeUnpackBody, touch_eq_ok hbase, ok_bind, inBounds_seq, inBounds_unpackPool,
    accepts_unpackPool, inBounds_unpackTable hbase hcount hle hobj]

end

theorem countAt_eq {inited : Bool} (h : countAt buf base inited ≠ 0) :
    countAt buf base inited = leAt buf (base + 28) 2 := by
  rw [countAt] at h ⊢
  split
  · rename_i hc
    rw [if_pos hc] at h
    exact absurd rfl h
  · rfl

theorem sizeofMdsMd_ge (magic : LmmMagic) : 32 ≤ sizeofMdsMd magic := by
  cases magic <;> decide

theorem objectsOf_ge (magic : LmmMagic) (base : ℕ) : base + 32 ≤ objectsOf magic base :=
  Nat.add_le_add_left (sizeofMdsMd_ge magic) base

theorem forall_poolNameOf (magic : LmmMagic) (base : ℕ) (P : ℕ → Prop) :
    (∀ off ∈ poolNameOf magic base, P off) ↔ (magic = .v3 → P (base + 32)) := by
  cases magic <;> simp [poolNameOf]

/-! ## A plain layout -/

theorem inBounds_lsmUnpackmdV1V3 {magic : LmmMagic}
    (hmagic : lmmMagicOf (leAt buf 0 4) = some magic) (hlen : 4 ≤ buf.length) :
    InBounds (lsmUnpackmdV1V3 lov buf magic (poolNameOf magic 0) (objectsOf magic 0)) ↔
      PlainFits lov buf magic := by
  have hhead := sizeofMdsMd_ge magic
  rw [lsmUnpackmdV1V3, inBounds_readLe_bind]
  by_cases hbase : 32 ≤ buf.length
  · have htail : ∀ f : LovLayoutEntry × ℤ → LovStripeMd × ℤ,
        InBounds (lsmeUnpack lov buf 0 buf.length (poolNameOf magic 0) true (objectsOf magic 0) >>=
          fun r => touch UnpackErr buf 0 32 >>= fun _ => pure (f r)) ↔
        InBounds (lsmeUnpack lov buf 0 buf.length (poolNameOf magic 0) true
          (objectsOf magic 0)) := by
      intro f
      rw [touch_eq_ok (by omega)]
      simp only [ok_bind, inBounds_bind_pure]
    rw [htail, PlainFits]
    rcases lsmeUnpack_eq lov (show 0 + 32 ≤ buf.length by omega) hmagic buf.length
      (poolNameOf magic 0) true (objectsOf magic 0) with ⟨hsize, hv, heq⟩ | ⟨hnot, heq⟩
    · rw [heq, inBounds_lsmeUnpackBody (by omega) countAt_eq hv.count_le (objectsOf_ge magic 0),
        forall_poolNameOf, forall_poolNameOf, objectsOf, zero_add, zero_add]
      simp only [hsize, hv, hbase, true_and, forall_const, and_iff_right_iff_imp]
      omega
    · rw [heq]
      refine iff_of_true ⟨by omega, inBounds_reject _⟩ ⟨hbase, fun hsize hv => ?_⟩
      exact absurd ⟨hsize, hv⟩ hnot
  · -- too short for the fields that are read, or printed, before its length is looked at
    refine iff_of_false ?_ fun h => hbase h.1
    rintro ⟨h8, hin⟩
    have hin := ((inBounds_bind _ _).mp hin).1
    rw [lsmeUnpack, readLe_eq_ok (by omega), ok_bind] at hin
    simp only [hmagic] at hin
    rw [inBounds_readLe_bind] at hin
    obtain ⟨hcount, hnext⟩ := (inBounds_bind _ _).mp hin.2
    have hread : ∃ count, readStripeCount buf 0 (leAt buf (0 + 4) 4) true = .ok count := by
      rw [readStripeCount] at hcount ⊢
      split
      · exact ⟨0, rfl⟩
      · rename_i hreleased
        rw [if_neg hreleased] at hcount
        exact ⟨_, readLe_eq_ok (inBounds_readLe.mp hcount)⟩
    obtain ⟨count, hread⟩ := hread
    have hdump := hnext count hread
    rw [if_pos (by omega), dumpAndReject, lovDumpLmmCommon, inBounds_touch_bind] at hdump
    omega

/-! ## A blob of a composite layout -/

section
variable {size : ℕ} {inited : Bool} {magic : LmmMagic}

theorem checkNoStripes_eq (hbase : base + 30 ≤ buf.length) (count : ℕ) :
    ((count = 0 → IsDom buf base) ∧ checkNoStripes buf base count = .ok ()) ∨
      (¬ (count = 0 → IsDom buf base) ∧ checkNoStripes buf base count = reject .einval) := by
  rw [checkNoStripes]
  by_cases h0 : count = 0
  · rw [if_pos h0, readLe_eq_ok (by omega), ok_bind]
    by_cases hdom : IsDom buf base
    · left
      exact ⟨fun _ => hdom, if_neg (not_not.mpr hdom)⟩
    · right
      exact ⟨fun h => hdom (h h0), if_pos hdom⟩
  · left
    exact ⟨fun h => absurd h h0, if_neg h0⟩

/-- The header is no larger than the size that is checked. -/
theorem sizeofMdsMd_le (count : ℕ) (magic : LmmMagic) :
    sizeofMdsMd magic ≤ lovMdsMdSize count magic := Nat.le_add_right _ _

/-- A blob whose header passes goes on to its body; every other blob is rejected. -/
theorem lsmeUnpackComp_eq (lov : LovTargets) (hbase : base + 30 ≤ buf.length)
    (hin : base + size ≤ buf.length) (inited : Bool) :
    (∃ magic, HeaderPasses buf base size inited magic ∧ lsmeUnpackComp lov buf base size inited =
        lsmeUnpackBody lov buf base magic (poolNameOf magic base) (countAt buf base inited)
          (objectsOf magic base)) ∨ ((∀ magic, ¬ HeaderPasses buf base size inited magic) ∧
      lsmeUnpackComp lov buf base size inited = reject .einval) := by
  rw [lsmeUnpackComp, readLe_eq_ok (by omega), ok_bind, readLe_eq_ok (by omega)]
  rcases checkNoStripes_eq hbase (leAt buf (base + 28) 2) with ⟨hstripes, heq⟩ | ⟨hnot, heq⟩
  · rw [heq, ok_bind, ok_bind]
    cases hmagic : lmmMagicOf (leAt buf base 4) with
    | none =>
      right
      refine ⟨fun magic h => ?_, rfl⟩
      have hm := h.magic_eq
      rw [hmagic] at hm
      cases hm
    | some magic =>
      have hpass : ∀ magic', HeaderPasses buf base size inited magic' → magic' = magic := by
        intro magic' h
        have hm := h.magic_eq
        rw [hmagic] at hm
        exact (Option.some.inj hm).symm
      simp only []
      by_cases hsize : size < lovMdsMdSize (if inited then leAt buf (base + 28) 2 else 0) magic
      · right
        refine ⟨fun magic' h => ?_, if_pos hsize⟩
        obtain rfl := hpass magic' h
        exact absurd h.size_le (by omega)
      · rw [if_neg hsize]
        have hhead := sizeofMdsMd_ge magic
        have hle := sizeofMdsMd_le (if inited then leAt buf (base + 28) 2 else 0) magic
        rcases lsmeUnpack_eq lov (show base + 32 ≤ buf.length by omega) hmagic size
          (poolNameOf magic base) inited (objectsOf magic base) with ⟨hs, hv, heq⟩ | ⟨hnot, heq⟩
        · left
          exact ⟨magic, ⟨hstripes, hmagic, by omega, hv⟩, heq⟩
        · right
          refine ⟨fun magic' h => ?_, heq⟩
          exact hnot ⟨by omega, h.verified⟩
  · right
    rw [heq]
    exact ⟨fun magic h => hnot h.count, rfl⟩

/-- A blob whose header passes has room for the header and the objects. -/
theorem HeaderPasses.table (h : HeaderPasses buf base size inited magic)
    (hin : base + size ≤ buf.length) : base + 32 ≤ buf.length ∧
      objectsOf magic base + sizeofOstData * countAt buf base inited ≤ buf.length := by
  have hhead := sizeofMdsMd_ge magic
  have hsize := h.size_le
  have hle := sizeofMdsMd_le (if inited then leAt buf (base + 28) 2 else 0) magic
  refine ⟨by omega, ?_⟩
  rw [objectsOf]
  by_cases h0 : countAt buf base inited = 0
  · rw [h0]
    omega
  · have hinited : inited = true := by
      by_contra hnot
      rw [countAt, if_pos (Or.inr (by simpa using hnot))] at h0
      exact h0 rfl
    have hcount := countAt_eq h0
    have hinsane := h.verified.count_le
    rw [lovV1InsaneStripeCount] at hinsane
    rw [if_pos hinited, lovMdsMdSize, if_neg (by omega), ← hcount, mul_comm] at hsize
    omega

theorem inBounds_lsmeUnpackComp (hin : base + size ≤ buf.length) (inited : Bool) :
    InBounds (lsmeUnpackComp lov buf base size inited) ↔ base + 30 ≤ buf.length ∧
        (HeaderPasses buf base size inited .v3 → Ends buf (base + 32)) := by
  by_cases hbase : base + 30 ≤ buf.length
  · rcases lsmeUnpackComp_eq lov hbase hin inited with ⟨magic, h, heq⟩ | ⟨hnot, heq⟩
    · obtain ⟨hhead, htable⟩ := h.table hin
      rw [heq, inBounds_lsmeUnpackBody hhead countAt_eq h.verified.count_le
        (objectsOf_ge magic base), forall_poolNameOf]
      constructor
      · rintro ⟨hends, -⟩
        refine ⟨hbase, fun h3 => hends ?_⟩
        exact Option.some.inj (h.magic_eq.symm.trans h3.magic_eq)
      · rintro ⟨-, hends⟩
        refine ⟨fun hm => hends (hm ▸ h), fun _ _ => ?_⟩
        exact Or.inr (Or.inl htable)
    · rw [heq]
      exact iff_of_true (inBounds_reject _) ⟨hbase, fun h => absurd h (hnot _)⟩
  · refine iff_of_false ?_ fun h => hbase h.1
    rw [lsmeUnpackComp, inBounds_readLe_bind]
    omega

theorem accepts_lsmeUnpackComp (hbase : base + 30 ≤ buf.length)
    (hin : base + size ≤ buf.length) (inited : Bool) :
    Accepts (lsmeUnpackComp lov buf base size inited) ↔
      ∃ magic, HeaderPasses buf base size inited magic ∧
        (magic = .v3 → EndsWithin buf (base + 32) (lovMaxpoolname + 1)) ∧
        (IsDom buf base ∨ ∀ j < countAt buf base inited,
          ¬ BadObject lov buf (objectsOf magic base) j) := by
  rcases lsmeUnpackComp_eq lov hbase hin inited with ⟨magic, h, heq⟩ | ⟨hnot, heq⟩
  · obtain ⟨hhead, htable⟩ := h.table hin
    rw [heq, lsmeUnpackBody, touch_eq_ok hhead, ok_bind, accepts_seq, accepts_unpackPool,
      accepts_unpackTable hhead countAt_eq h.verified.count_le (objectsOf_ge magic base) htable,
      forall_poolNameOf]
    constructor
    · rintro ⟨hname, hbad⟩
      exact ⟨magic, h, hname, hbad⟩
    · rintro ⟨magic', h', hname, hbad⟩
      cases h.magic_eq.symm.trans h'.magic_eq
      exact ⟨hname, hbad⟩
  · rw [heq]
    refine iff_of_false (not_accepts_reject _) ?_
    rintro ⟨magic, h, -⟩
    exact hnot magic h

end

/-! ## A composite layout -/

theorem inBounds_verifyEntry (lcmSize i : ℕ) :
    InBounds (verifyEntry buf lcmSize i) ↔ lcmeAt i + 32 ≤ buf.length := by
  rw [verifyEntry, inBounds_readLe_bind, inBounds_readLe_bind]
  constructor
  · rintro ⟨-, h, -⟩
    omega
  · intro h
    refine ⟨by omega, by omega, ?_⟩
    split
    · rw [touch_eq_ok (by omega), ok_bind]
      exact inBounds_reject _
    · exact inBounds_pure _

theorem accepts_verifyEntry (i : ℕ) : Accepts (verifyEntry buf (lcmSizeAt buf) i) ↔
      lcmeAt i + 32 ≤ buf.length ∧ BlobInside buf i := by
  by_cases hfits : lcmeAt i + 32 ≤ buf.length
  · rw [verifyEntry, readLe_eq_ok (by omega), ok_bind, readLe_eq_ok (by omega), ok_bind]
    rw [BlobInside, blobOffset, blobSize]
    split
    · rename_i hbad
      rw [touch_eq_ok (by omega), ok_bind]
      refine iff_of_false (not_accepts_reject _) ?_
      omega
    · rename_i hgood
      refine iff_of_true (accepts_pure _) ?_
      omega
  · refine iff_of_false ?_ fun h => hfits h.1
    rintro ⟨a, ha⟩
    refine hfits ((inBounds_verifyEntry (lcmSizeAt buf) i).mp ?_)
    rw [ha]
    exact inBounds_ok a

theorem lsmVerifyCompMdV1_eq (h8 : 8 ≤ buf.length) : lsmVerifyCompMdV1 buf =
      if buf.length < lcmSizeAt buf then reject .einval
      else readLe _ buf 14 2 >>= fun n => eachFrom (verifyEntry buf (lcmSizeAt buf)) n 0 := by
  rw [lsmVerifyCompMdV1, readLe_eq_ok h8, ok_bind]
  rfl

theorem inBounds_lsmVerifyCompMdV1 : InBounds (lsmVerifyCompMdV1 buf) ↔
      8 ≤ buf.length ∧ (lcmSizeAt buf ≤ buf.length → 16 ≤ buf.length ∧
        ∀ i < entryCountAt buf, (∀ j < i, BlobInside buf j) → lcmeAt i + 32 ≤ buf.length) := by
  by_cases h8 : 8 ≤ buf.length
  · rw [lsmVerifyCompMdV1_eq h8]
    by_cases hsize : buf.length < lcmSizeAt buf
    · rw [if_pos hsize]
      exact iff_of_true (inBounds_reject _) ⟨h8, fun h => by omega⟩
    · have hloop := forall_reached_iff (n := entryCountAt buf)
        (F := fun i => lcmeAt i + 32 ≤ buf.length) (A := BlobInside buf)
      rw [if_neg hsize, inBounds_readLe_bind, inBounds_eachFrom, ← entryCountAt]
      simp only [Nat.zero_le, zero_add, forall_const, inBounds_verifyEntry, accepts_verifyEntry]
      rw [hloop]
      simp only [h8, not_lt.mp hsize, true_and, forall_const]
  · refine iff_of_false ?_ fun h => h8 h.1
    rw [lsmVerifyCompMdV1, inBounds_readLe_bind]
    exact fun h => h8 h.1

theorem accepts_lsmVerifyCompMdV1 (h8 : 8 ≤ buf.length) : Accepts (lsmVerifyCompMdV1 buf) ↔
      lcmSizeAt buf ≤ buf.length ∧ 16 ≤ buf.length ∧
        ∀ i < entryCountAt buf, lcmeAt i + 32 ≤ buf.length ∧ BlobInside buf i := by
  rw [lsmVerifyCompMdV1_eq h8]
  by_cases hsize : buf.length < lcmSizeAt buf
  · rw [if_pos hsize]
    exact iff_of_false (not_accepts_reject _) fun h => by omega
  · rw [if_neg hsize]
    by_cases h16 : 16 ≤ buf.length
    · rw [readLe_eq_ok h16, ok_bind, accepts_eachFrom, ← entryCountAt]
      simp only [Nat.zero_le, zero_add, forall_const, accepts_verifyEntry,
        not_lt.mp hsize, h16, true_and]
    · refine iff_of_false ?_ fun h => h16 h.2.1
      rw [readLe, if_neg h16]
      simp [Accepts, bind, Except.bind]

section

variable {i : ℕ} (hfits : lcmeAt i + 32 ≤ buf.length) (hinside : BlobInside buf i)
  (hsize : lcmSizeAt buf ≤ buf.length)
include hfits hinside hsize

/-- One turn of the loop over the entries, once the table is verified. -/
theorem inBounds_unpackEntry : InBounds (unpackEntry lov buf i) ↔ BlobFits buf i := by
  rw [BlobInside] at hinside
  rw [unpackEntry, touch_eq_ok hfits, ok_bind, inBounds_bind_pure,
    inBounds_lsmeUnpackComp (by omega), BlobFits]

theorem accepts_unpackEntry :
    Accepts (unpackEntry lov buf i) ↔ BlobFits buf i ∧ BlobAccepted lov buf i := by
  have hin : InBounds (unpackEntry lov buf i) ↔ BlobFits buf i :=
    inBounds_unpackEntry hfits hinside hsize
  constructor
  · rintro ⟨a, ha⟩
    have hblob : BlobFits buf i := hin.mp (by
      rw [ha]
      exact inBounds_ok a)
    rw [BlobInside] at hinside
    refine ⟨hblob, ?_⟩
    rw [BlobAccepted, ← accepts_lsmeUnpackComp hblob.1 (by omega)]
    rw [unpackEntry, touch_eq_ok hfits, ok_bind] at ha
    exact (accepts_bind_pure _ _).mp ⟨a, ha⟩
  · rintro ⟨hblob, haccept⟩
    rw [BlobInside] at hinside
    rw [unpackEntry, touch_eq_ok hfits, ok_bind, accepts_bind_pure,
      accepts_lsmeUnpackComp hblob.1 (by omega)]
    exact haccept

end

/-- The loop over the entries, once the table is verified. -/
theorem inBounds_unpackEntries (hsize : lcmSizeAt buf ≤ buf.length)
    (htable : ∀ i < entryCountAt buf, lcmeAt i + 32 ≤ buf.length ∧ BlobInside buf i) :
    InBounds (eachFrom (unpackEntry lov buf) (entryCountAt buf) 0) ↔
      ∀ i < entryCountAt buf, (∀ j < i, BlobAccepted lov buf j) → BlobFits buf i := by
  have hloop := forall_reached_iff (n := entryCountAt buf)
    (F := BlobFits buf) (A := BlobAccepted lov buf)
  rw [inBounds_eachFrom, ← hloop]
  simp only [Nat.zero_le, zero_add, forall_const]
  refine forall_congr' fun i => forall_congr' fun hi => ?_
  obtain ⟨hfits, hinside⟩ := htable i hi
  rw [inBounds_unpackEntry hfits hinside hsize]
  refine imp_congr_left (forall_congr' fun j => forall_congr' fun hj => ?_)
  obtain ⟨hfits', hinside'⟩ := htable j (by omega)
  exact accepts_unpackEntry hfits' hinside' hsize

theorem inBounds_lsmUnpackmdCompMdV1 :
    InBounds (lsmUnpackmdCompMdV1 lov buf) ↔ CompFits lov buf := by
  rw [lsmUnpackmdCompMdV1, inBounds_bind, inBounds_lsmVerifyCompMdV1, CompFits]
  constructor
  · rintro ⟨⟨h8, hverify⟩, hnext⟩
    refine ⟨h8, fun hsize => ?_⟩
    obtain ⟨h16, hentries⟩ := hverify hsize
    refine ⟨h16, hentries, fun hinside => ?_⟩
    have htable : ∀ i < entryCountAt buf, lcmeAt i + 32 ≤ buf.length ∧ BlobInside buf i :=
      fun i hi => ⟨hentries i hi fun j hj => hinside j (by omega), hinside i hi⟩
    obtain ⟨a, ha⟩ := (accepts_lsmVerifyCompMdV1 h8).mpr ⟨hsize, h16, htable⟩
    have hrest := hnext a ha
    rw [inBounds_readLe_bind, inBounds_touch_bind, inBounds_bind_pure, ← entryCountAt,
      inBounds_unpackEntries hsize htable] at hrest
    exact ⟨by omega, hrest.2.2⟩
  · rintro ⟨h8, hrest⟩
    refine ⟨⟨h8, fun hsize => ?_⟩, fun a ha => ?_⟩
    · obtain ⟨h16, hentries, -⟩ := hrest hsize
      exact ⟨h16, hentries⟩
    · obtain ⟨hsize, h16, htable⟩ := (accepts_lsmVerifyCompMdV1 h8).mp ⟨a, ha⟩
      obtain ⟨-, -, hblobs⟩ := hrest hsize
      obtain ⟨h18, hblobs⟩ := hblobs fun i hi => (htable i hi).2
      rw [inBounds_readLe_bind, inBounds_touch_bind, inBounds_bind_pure, ← entryCountAt,
        inBounds_unpackEntries hsize htable]
      exact ⟨by omega, by omega, hblobs⟩

/-! ## The whole -/

/-- **`lov_unpackmd` stays inside its buffer** exactly if the buffer meets what it takes on
trust. -/
theorem lovUnpackmd_inBounds (lov : LovTargets) (buf : List UInt8) :
    InBounds (lovUnpackmd lov buf) ↔ UnpackFits lov buf := by
  rw [lovUnpackmd, UnpackFits]
  by_cases hlen : buf.length < 4
  · rw [if_pos hlen]
    exact iff_of_true (inBounds_reject _) fun h => by omega
  · rw [if_neg hlen]
    simp only [not_lt.mp hlen, forall_const]
    by_cases hcomp : leAt buf 0 4 = lovMagicCompV1
    · have hplain : lmmMagicOf (leAt buf 0 4) = none := by
        rw [hcomp]
        decide
      rw [if_pos hcomp, inBounds_lsmUnpackmdCompMdV1, hplain]
      simp [hcomp]
    · cases hmagic : lmmMagicOf (leAt buf 0 4) with
      | none => simp [hcomp]
      | some magic =>
        have hfits : InBounds (lsmUnpackmdV1V3 lov buf magic (poolNameOf magic 0)
            (objectsOf magic 0)) ↔ PlainFits lov buf magic :=
          inBounds_lsmUnpackmdV1V3 hmagic (not_lt.mp hlen)
        cases magic with
        | v1 | v3 =>
          simp only [hcomp, false_implies, true_and, Option.some.injEq, forall_eq']
          exact hfits

/-- The 32 bytes of a V1 layout with one stripe, cut off before its object. -/
def cutOffV1 : List UInt8 :=
  [0xd0, 0x0b, 0xd1, 0x0b, 1, 0, 0, 0, 7, 0, 0, 0, 0, 0, 0, 0, 0, 0, 0, 0, 0, 0, 0, 0,
    0, 0, 1, 0, 1, 0, 0, 0]

/-- The object is read from behind the end of the buffer. -/
theorem cutOffV1_outOfBounds :
    lovUnpackmd ⟨1, false, fun _ => none⟩ cutOffV1 = .error .outOfBounds := by
  decide

end Lustre
