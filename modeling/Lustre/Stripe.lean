import Lustre.Word
import Lustre.RoundRobin
import Mathlib.Order.Lattice.Nat

/-!
# Striping: file offsets and object offsets (`lov_offset.c`, `lov_merge.c`)

A RAID0 component deals the bytes of a file out to `lsme_stripe_count` objects
in chunks of `lsme_stripe_size`. Four functions of `lov_offset.c` encode that
one mapping, each with a clamping rule of its own:

* `lovStripeOffset` goes from the file to one object and says on which side of
  the stripe the offset fell;
* `lovStripeSize` goes back, from an object size to a file size;
* `lovSizeToStripe` cuts a file size down to the object of one stripe;
* `lovStripeNumber` names the stripe of an offset.

Each is first shown to compute the round-robin map of `RoundRobin`
(`lovStripeOffset_eq`, `lovStripeSize_succ`, `lovSizeToStripe_eq`,
`lovStripeNumber_eq`); what they say about each other follows from there.
-/

namespace Lustre

open RoundRobin
open Finset (range sup)

/-! ## The layout component -/

/-- `LOV_PATTERN_F_MASK`: the flag bits of a layout pattern. -/
def lovPatternFMask : UInt32 := 0xffff0000

/-- `LOV_PATTERN_MDT`: the component is data on the MDT. -/
def lovPatternMdt : UInt32 := 0x100

def lovPatternRaid0 : UInt32 := 0x001

/-- `lov_pattern`: a pattern without its flags. -/
def lovPattern (pattern : UInt32) : UInt32 := pattern &&& ~~~lovPatternFMask

/-- The fields of `struct lov_stripe_md_entry` that the offset arithmetic reads. -/
structure LovStripeMdEntry where
  /-- the layout pattern with its flags -/
  lsmePattern : UInt32
  /-- bytes per chunk -/
  lsmeStripeSize : UInt32
  /-- number of objects -/
  lsmeStripeCount : UInt16
  deriving DecidableEq

variable (lse : LovStripeMdEntry)

def lsmeIsDom : Bool := lovPattern lse.lsmePattern == lovPatternMdt

/-- `stripe_width`: bytes per round over all objects. -/
def stripeWidth : ℕ :=
  if lsmeIsDom lse then lse.lsmeStripeSize.toNat
  else u64 (lse.lsmeStripeSize.toNat * lse.lsmeStripeCount.toNat)

/-! ## The offset functions -/

/-- `lov_stripe_size`: the file size that an object size of stripe `stripeno`
stands for. `lov_do_div64` leaves the quotient in its first argument and
returns the remainder. -/
def lovStripeSize (ostSize stripeno : ℕ) : ℕ :=
  let ssize := lse.lsmeStripeSize.toNat
  if ostSize = 0 then 0
  else
    let swidth := stripeWidth lse
    let stripeSize := ostSize % ssize
    let ostSize := ostSize / ssize
    if stripeSize ≠ 0 then u64 (ostSize * swidth + stripeno * ssize + stripeSize)
    else u64 (sub64 ostSize 1 * swidth + (stripeno + 1) * ssize)

/-- `lov_stripe_offset`: where `lovOff` lands in stripe `stripeno`. The first
component is the side the offset fell on (`-1` before the stripe, `0` inside,
`1` past its end), the second the object offset. -/
def lovStripeOffset (lovOff stripeno : ℕ) : ℤ × ℕ :=
  let ssize := lse.lsmeStripeSize.toNat
  if lovOff = obdObjectEof then (0, obdObjectEof)
  else
    let swidth := stripeWidth lse
    let stripeOff := lovOff % swidth
    let lovOff := lovOff / swidth
    let thisStripe := u64 (stripeno * ssize)
    if toS64 stripeOff < toS64 thisStripe then (-1, u64 (lovOff * ssize + 0))
    else
      let stripeOff := sub64 stripeOff thisStripe
      if stripeOff ≥ ssize then (1, u64 (lovOff * ssize + ssize))
      else (0, u64 (lovOff * ssize + stripeOff))

/-- `lov_size_to_stripe`: the size of the object of stripe `stripeno` in a file
of size `fileSize`. -/
def lovSizeToStripe (fileSize stripeno : ℕ) : ℕ :=
  let ssize := lse.lsmeStripeSize.toNat
  if fileSize = obdObjectEof then obdObjectEof
  else
    let swidth := stripeWidth lse
    let stripeOff := fileSize % swidth
    let fileSize := fileSize / swidth
    let thisStripe := u64 (stripeno * ssize)
    if toS64 stripeOff < toS64 thisStripe then
      -- move to the end of the previous stripe, or zero
      if fileSize > 0 then u64 (sub64 fileSize 1 * ssize + ssize)
      else u64 (fileSize * ssize + 0)
    else
      let stripeOff := sub64 stripeOff thisStripe
      if stripeOff ≥ ssize then u64 (fileSize * ssize + ssize)
      else u64 (fileSize * ssize + stripeOff)

/-- `lov_stripe_number`: the stripe that `lovOff` is written to. -/
def lovStripeNumber (lovOff : ℕ) : ℕ :=
  lovOff % stripeWidth lse / lse.lsmeStripeSize.toNat

/-! ## Merging the attributes of the objects -/

/-- The fields of `struct ost_lvb` that the merge reads and writes. -/
structure OstLvb where
  /-- object or file size -/
  lvbSize : ℕ
  /-- modification time -/
  lvbMtime : ℤ
  lvbAtime : ℤ
  lvbCtime : ℤ
  /-- allocated blocks, or an encoded error -/
  lvbBlocks : UInt64
  deriving DecidableEq

/-- The fields of `struct lov_oinfo` that the merge reads. -/
structure LovOinfo where
  /-- known minimum size of the object -/
  loiKms : ℕ
  /-- its lock value block -/
  loiLvb : OstLvb
  deriving DecidableEq

def ostLvbErrInit : UInt64 := 0xffbadbad80000000

def ostLvbErrMask : UInt64 := 0xffbadbad00000000

def ostLvbIsErr (blocks : UInt64) : Bool := blocks &&& ostLvbErrMask == ostLvbErrMask

/-- `OST_LVB_GET_ERR`: the difference, cast to a signed 32-bit `int`. -/
def ostLvbGetErr (blocks : UInt64) : ℤ := (blocks - ostLvbErrInit).toUInt32.toInt32.toInt

/-- The local variables of `lov_merge_lvb_kms`. -/
structure MergeAcc where
  /-- largest file size seen -/
  size : ℕ
  /-- largest known minimum size seen -/
  kms : ℕ
  /-- sum of the blocks -/
  blocks : UInt64
  /-- newest modification time -/
  mtime : ℤ
  /-- newest access time -/
  atime : ℤ
  /-- newest change time -/
  ctime : ℤ
  /-- error of the last object that had one -/
  rc : ℤ
  deriving DecidableEq

/-- One turn of the loop of `lov_merge_lvb_kms`, for the object of stripe `i`. -/
def lovMergeStep (acc : MergeAcc) (i : ℕ) (loi : LovOinfo) : MergeAcc :=
  if ostLvbIsErr loi.loiLvb.lvbBlocks then { acc with rc := ostLvbGetErr loi.loiLvb.lvbBlocks }
  else
    let lovSize := lovStripeSize lse loi.loiKms i
    let kms := if lovSize > acc.kms then lovSize else acc.kms
    let tmpsize := if loi.loiLvb.lvbSize > loi.loiKms then loi.loiLvb.lvbSize else loi.loiKms
    let lovSize := lovStripeSize lse tmpsize i
    { acc with
      kms := kms
      size := if lovSize > acc.size then lovSize else acc.size
      blocks := acc.blocks + loi.loiLvb.lvbBlocks
      mtime := if loi.loiLvb.lvbMtime > acc.mtime then loi.loiLvb.lvbMtime else acc.mtime
      atime := if loi.loiLvb.lvbAtime > acc.atime then loi.loiLvb.lvbAtime else acc.atime
      ctime := if loi.loiLvb.lvbCtime > acc.ctime then loi.loiLvb.lvbCtime else acc.ctime }

/-- The loop of `lov_merge_lvb_kms` over the first `m` stripes. -/
def lovMergeLoop (lse : LovStripeMdEntry) (oinfo : ℕ → LovOinfo) (acc : MergeAcc) : ℕ → MergeAcc
  | 0 => acc
  | m + 1 => lovMergeStep lse (lovMergeLoop lse oinfo acc m) m (oinfo m)

/-- `lov_merge_lvb_kms`: the return code, the merged block and the known minimum
size. -/
def lovMergeLvbKms (oinfo : ℕ → LovOinfo) (lvb : OstLvb) : ℤ × OstLvb × ℕ :=
  let acc := lovMergeLoop lse oinfo
    ⟨0, 0, 0, lvb.lvbMtime, lvb.lvbAtime, lvb.lvbCtime, 0⟩ lse.lsmeStripeCount.toNat
  (acc.rc, ⟨acc.size, acc.mtime, acc.atime, acc.ctime, acc.blocks⟩, acc.kms)

/-! ## What the functions compute

`Striped lse` collects what the arithmetic needs of a component: neither its chunk
size nor its number of objects is zero. `Raid0 lse` is the case of a RAID0
component, whose number of objects is the stripe count. -/

/-- The number of objects of a component: data on the MDT is one object, whatever
the stripe count says. -/
def stripes : ℕ :=
  if lsmeIsDom lse then 1 else lse.lsmeStripeCount.toNat

/-- A component that bytes can be dealt out to. -/
structure Striped : Prop where
  /-- chunks are not empty -/
  ssize_pos : 0 < lse.lsmeStripeSize.toNat
  /-- there is an object -/
  stripes_pos : 0 < stripes lse

/-- A usable RAID0 component. -/
structure Raid0 : Prop where
  /-- the pattern, flags aside, is RAID0 -/
  pattern : lovPattern lse.lsmePattern = lovPatternRaid0
  /-- chunks are not empty -/
  ssize_pos : 0 < lse.lsmeStripeSize.toNat
  /-- there is an object -/
  count_pos : 0 < lse.lsmeStripeCount.toNat

variable {lse : LovStripeMdEntry}

theorem Raid0.stripes_eq (h : Raid0 lse) : stripes lse = lse.lsmeStripeCount.toNat := by
  have hdom : lsmeIsDom lse = false := by
    rw [lsmeIsDom, h.pattern]
    decide
  rw [stripes, hdom]
  rfl

theorem Raid0.striped (h : Raid0 lse) : Striped lse where
  ssize_pos := h.ssize_pos
  stripes_pos := by
    rw [h.stripes_eq]
    exact h.count_pos

section

variable (lse : LovStripeMdEntry)

theorem ssize_lt : lse.lsmeStripeSize.toNat < 2 ^ 32 :=
  UInt32.toNat_lt lse.lsmeStripeSize

theorem stripes_lt : stripes lse < 2 ^ 16 := by
  rw [stripes]
  split
  · decide
  · exact UInt16.toNat_lt lse.lsmeStripeCount

/-- A round is at most `2 ^ 48` bytes, so its width never wraps. -/
theorem mul_lt_of_stripe : lse.lsmeStripeSize.toNat * stripes lse < 2 ^ 48 := by
  calc lse.lsmeStripeSize.toNat * stripes lse
      < 2 ^ 32 * 2 ^ 16 := Nat.mul_lt_mul'' (ssize_lt lse) (stripes_lt lse)
    _ = 2 ^ 48 := by norm_num

theorem stripeWidth_eq : stripeWidth lse = lse.lsmeStripeSize.toNat * stripes lse := by
  have hlt := mul_lt_of_stripe lse
  rw [stripes] at hlt ⊢
  rw [stripeWidth]
  split at hlt
  · rename_i hdom
    rw [if_pos hdom, if_pos hdom, mul_one]
  · rename_i hdom
    rw [if_neg hdom, if_neg hdom]
    exact u64_of_lt (by omega)

end

theorem lovStripeNumber_eq (h : Raid0 lse) (off : ℕ) : lovStripeNumber lse off =
      blockOf lse.lsmeStripeSize.toNat lse.lsmeStripeCount.toNat off := by
  rw [lovStripeNumber, stripeWidth_eq, h.stripes_eq, blockOf]

/-- The start of stripe `k` within a round is a small number. -/
theorem thisStripe_eq (lse : LovStripeMdEntry) {k : ℕ} (hk : k < stripes lse) :
    u64 (k * lse.lsmeStripeSize.toNat) = k * lse.lsmeStripeSize.toNat ∧
      k * lse.lsmeStripeSize.toNat < 2 ^ 48 := by
  have hlt := mul_lt_of_stripe lse
  have hle : k * lse.lsmeStripeSize.toNat ≤ stripes lse * lse.lsmeStripeSize.toNat :=
    Nat.mul_le_mul_right _ hk.le
  rw [mul_comm] at hlt
  exact ⟨u64_of_lt (by omega), by omega⟩

/-- An offset inside a round is a small number. -/
theorem stripeOff_lt (h : Striped lse) (off : ℕ) : off % stripeWidth lse < 2 ^ 48 := by
  have hlt := mul_lt_of_stripe lse
  rw [stripeWidth_eq]
  have hmod := Nat.mod_lt off (Nat.mul_pos h.ssize_pos h.stripes_pos)
  omega

/-- **`lov_stripe_offset` counts** the bytes of a stripe before an offset, and the
side it reports is zero exactly on the stripe of the offset. -/
theorem lovStripeOffset_count (h : Striped lse) {off k : ℕ} (hoff : off < obdObjectEof)
    (hk : k < stripes lse) : ((lovStripeOffset lse off k).1 = 0 ↔
        blockOf lse.lsmeStripeSize.toNat (stripes lse) off = k) ∧ (lovStripeOffset lse off k).2 =
        countBelow lse.lsmeStripeSize.toNat (stripes lse) off k := by
  have hs := h.ssize_pos
  obtain ⟨hthis, hthis_lt⟩ := thisStripe_eq lse hk
  have hso := stripeOff_lt h off
  have heof : obdObjectEof < 2 ^ 64 := by decide
  have hle := countBelow_le lse.lsmeStripeSize.toNat h.stripes_pos off k
  rw [lovStripeOffset, if_neg hoff.ne]
  simp only [hthis, toS64_lt_iff (show off % stripeWidth lse < 2 ^ 63 by omega)
    (show k * lse.lsmeStripeSize.toNat < 2 ^ 63 by omega)]
  rw [stripeWidth_eq] at hso ⊢
  rw [countBelow] at hle ⊢
  rw [blockOf, Nat.div_eq_iff hs]
  generalize hS : lse.lsmeStripeSize.toNat = s at *
  generalize hN : stripes lse = n at *
  rcases lt_or_ge (off % (s * n)) (k * s) with hlt | hge
  · -- before the stripe
    rw [Nat.sub_eq_zero_of_le hlt.le, Nat.min_zero] at hle ⊢
    rw [if_pos hlt]
    refine ⟨⟨fun h0 => absurd h0 (by simp), fun hkb => ?_⟩, u64_of_lt (by omega)⟩
    omega
  · rw [if_neg (by omega), sub64_of_le (by omega) hge]
    rcases lt_or_ge (off % (s * n) - k * s) s with hin | hout
    · -- inside
      rw [Nat.min_eq_right hin.le] at hle ⊢
      rw [if_neg (by omega)]
      refine ⟨⟨fun _ => ?_, fun _ => rfl⟩, u64_of_lt (by omega)⟩
      omega
    · -- past its end
      rw [Nat.min_eq_left hout] at hle ⊢
      rw [if_pos hout]
      refine ⟨⟨fun h0 => absurd h0 (by simp), fun hkb => ?_⟩, u64_of_lt (by omega)⟩
      omega

section

variable (h : Raid0 lse)
include h

/-- **`lov_stripe_offset` on the stripe of the offset** gives the place of the
byte in its object; on every other stripe it reports a side. -/
theorem lovStripeOffset_eq {off k : ℕ} (hoff : off < obdObjectEof)
    (hk : k < lse.lsmeStripeCount.toNat) : ((lovStripeOffset lse off k).1 = 0 ↔
        k = blockOf lse.lsmeStripeSize.toNat lse.lsmeStripeCount.toNat off) ∧
      ((lovStripeOffset lse off k).1 = 0 → (lovStripeOffset lse off k).2 =
          innerOf lse.lsmeStripeSize.toNat lse.lsmeStripeCount.toNat off) := by
  obtain ⟨hside, hval⟩ := lovStripeOffset_count h.striped hoff (by rwa [h.stripes_eq])
  rw [h.stripes_eq] at hside hval
  refine ⟨hside.trans eq_comm, fun h0 => ?_⟩
  rw [hval, ← hside.mp h0]
  exact countBelow_blockOf h.ssize_pos h.count_pos off

/-- **`lov_stripe_size` undoes `lov_stripe_offset`**: an object that ends right
after its byte `o` stands for a file that ends right after the byte's position. -/
theorem lovStripeSize_succ {k o : ℕ}
    (hlt : outerOf lse.lsmeStripeSize.toNat lse.lsmeStripeCount.toNat k o + 1 < 2 ^ 64) :
    lovStripeSize lse (o + 1) k =
      outerOf lse.lsmeStripeSize.toNat lse.lsmeStripeCount.toNat k o + 1 := by
  have hs := h.ssize_pos
  have hn := h.count_pos
  rw [lovStripeSize, if_neg (Nat.succ_ne_zero o), stripeWidth_eq, h.stripes_eq]
  rw [outerOf] at *
  generalize hS : lse.lsmeStripeSize.toNat = s at *
  generalize hN : lse.lsmeStripeCount.toNat = n at *
  have hdm : s * (o / s) + o % s = o := Nat.div_add_mod o s
  have hms : o % s < s := Nat.mod_lt o hs
  have hq : o / s ≤ o / s * (s * n) := Nat.le_mul_of_pos_right _ (Nat.mul_pos hs hn)
  rcases lt_or_ge (o % s + 1) s with hin | hend
  · -- the object ends inside a chunk
    have hdiv : (o + 1) / s = o / s := by
      rw [Nat.div_eq_iff hs]
      constructor
      · rw [mul_comm]
        omega
      · rw [mul_comm]
        omega
    have hmod : (o + 1) % s = o % s + 1 := by
      have hdm' : s * ((o + 1) / s) + (o + 1) % s = o + 1 := Nat.div_add_mod (o + 1) s
      rw [hdiv] at hdm'
      omega
    rw [hdiv, hmod, if_pos (Nat.succ_ne_zero _)]
    exact u64_of_lt hlt
  · -- the object ends at the end of a chunk
    have hfull : o + 1 = s * (o / s + 1) := by
      rw [mul_add, mul_one]
      omega
    have hdiv : (o + 1) / s = o / s + 1 := by
      rw [hfull, Nat.mul_div_cancel_left _ hs]
    have hmod : (o + 1) % s = 0 := by
      rw [hfull, Nat.mul_mod_right]
    have hsub : sub64 (o / s + 1) 1 = o / s := sub64_of_le (by omega) (Nat.le_add_left 1 _)
    have hval : o / s * (s * n) + (k + 1) * s = o / s * (s * n) + k * s + o % s + 1 := by
      rw [add_mul, one_mul]
      omega
    rw [hdiv, hmod, if_neg (by simp), hsub, hval]
    exact u64_of_lt hlt

section

variable {size k : ℕ} (hsize : size < obdObjectEof) (hk : k < lse.lsmeStripeCount.toNat)
include hsize hk

/-- **`lov_size_to_stripe` counts** the bytes of the file that lie on a stripe. -/
theorem lovSizeToStripe_eq : lovSizeToStripe lse size k =
      countBelow lse.lsmeStripeSize.toNat lse.lsmeStripeCount.toNat size k := by
  have hcount := (lovStripeOffset_count h.striped hsize (by rwa [h.stripes_eq])).2
  rw [h.stripes_eq] at hcount
  rw [← hcount, lovSizeToStripe, lovStripeOffset, if_neg hsize.ne, if_neg hsize.ne]
  dsimp only
  split
  · -- before the stripe: the end of the previous one is where this round starts
    rcases Nat.eq_zero_or_pos (size / stripeWidth lse) with h0 | hpos
    · rw [h0]
      rfl
    · have heof : obdObjectEof < 2 ^ 64 := by decide
      have hqle : size / stripeWidth lse ≤ size := Nat.div_le_self _ _
      have hback : (size / stripeWidth lse - 1) * lse.lsmeStripeSize.toNat +
          lse.lsmeStripeSize.toNat = size / stripeWidth lse * lse.lsmeStripeSize.toNat := by
        rw [Nat.sub_mul, one_mul, Nat.sub_add_cancel (Nat.le_mul_of_pos_left _ hpos)]
      rw [if_pos hpos, sub64_of_le (by omega) hpos, hback]
      rfl
  · split <;> rfl

/-! ## The size of the file from the sizes of its objects -/

/-- No object claims more than the file it was cut from. -/
theorem lovStripeSize_sizeToStripe_le :
    lovStripeSize lse (lovSizeToStripe lse size k) k ≤ size := by
  have heof : obdObjectEof < 2 ^ 64 := by decide
  rcases hc : lovSizeToStripe lse size k with - | o
  · simp [lovStripeSize]
  · rw [lovSizeToStripe_eq h hsize hk] at hc
    have hlt := (outerOf_lt_iff h.ssize_pos hk o size).mpr (by omega)
    rw [lovStripeSize_succ h (by omega)]
    exact hlt

end

/-- The object that holds the last byte of the file claims all of it. -/
theorem lovStripeSize_sizeToStripe_last {size : ℕ} (hsize : size + 1 < obdObjectEof) :
    lovStripeSize lse (lovSizeToStripe lse (size + 1) (lovStripeNumber lse size))
      (lovStripeNumber lse size) = size + 1 := by
  have heof : obdObjectEof < 2 ^ 64 := by decide
  rw [lovStripeNumber_eq h]
  have hk := blockOf_lt h.ssize_pos h.count_pos size
  have hback := outerOf_innerOf (n := lse.lsmeStripeCount.toNat) h.ssize_pos size
  rw [lovSizeToStripe_eq h hsize hk, countBelow_succ h.ssize_pos h.count_pos,
    lovStripeSize_succ h (by omega), hback]

/-- The largest size any object claims is the size of the file. -/
theorem sup_lovStripeSize {size : ℕ} (hsize : size < obdObjectEof) :
    (range lse.lsmeStripeCount.toNat).sup
      (fun k => lovStripeSize lse (lovSizeToStripe lse size k) k) = size := by
  apply le_antisymm
  · refine Finset.sup_le fun k hk => ?_
    exact lovStripeSize_sizeToStripe_le h hsize (Finset.mem_range.mp hk)
  · cases size with
    | zero => exact Nat.zero_le _
    | succ size =>
      have hk : lovStripeNumber lse size < lse.lsmeStripeCount.toNat := by
        rw [lovStripeNumber_eq h]
        exact blockOf_lt h.ssize_pos h.count_pos size
      have hle := Finset.le_sup (f := fun k =>
        lovStripeSize lse (lovSizeToStripe lse (size + 1) k) k) (Finset.mem_range.mpr hk)
      simpa only [lovStripeSize_sizeToStripe_last h hsize] using hle

end

/-- While no object reports an error, the merge loop takes maxima. -/
theorem lovMergeLoop_spec (lse : LovStripeMdEntry) (oinfo : ℕ → LovOinfo) (acc : MergeAcc) :
    ∀ m : ℕ, (∀ k < m, ostLvbIsErr (oinfo k).loiLvb.lvbBlocks = false) →
      (lovMergeLoop lse oinfo acc m).rc = acc.rc ∧ (lovMergeLoop lse oinfo acc m).kms = max acc.kms
        ((range m).sup fun k => lovStripeSize lse (oinfo k).loiKms k) ∧
      (lovMergeLoop lse oinfo acc m).size = max acc.size ((range m).sup fun k =>
          lovStripeSize lse (max (oinfo k).loiKms (oinfo k).loiLvb.lvbSize) k) := by
  intro m
  induction m with
  | zero => intro _; simp [lovMergeLoop]
  | succ m ih =>
    intro hok
    obtain ⟨hrc, hkms, hsz⟩ := ih fun k hk => hok k (by omega)
    have hm : ostLvbIsErr (oinfo m).loiLvb.lvbBlocks = false := hok m (Nat.lt_succ_self m)
    have hmax : ∀ a b : ℕ, (if a > b then a else b) = max b a := by
      intro a b
      split <;> omega
    rw [lovMergeLoop, lovMergeStep, hm]
    simp only [Finset.range_add_one, Finset.sup_insert, hmax, hrc, hkms, hsz,
      Bool.false_eq_true, if_false, true_and]
    constructor <;> rw [max_assoc, max_comm (sup _ _)]

/-- **Striping is a bijection.** On a RAID0 component every offset lies on
exactly one stripe, the one `lov_stripe_number` names, and `lov_stripe_size`
leads from its object offset back to it; every object offset whose file offset
fits in 64 bits comes from that file offset; and the objects of a file of any
size share its bytes out without loss, so that the largest size they claim, which
is what `lov_merge_lvb_kms` reports, is the size of the file. -/
theorem raid0_striping (lse : LovStripeMdEntry) (h : Raid0 lse) : (∀ off, off + 1 < 2 ^ 64 →
      (∃! k, k < lse.lsmeStripeCount.toNat ∧ (lovStripeOffset lse off k).1 = 0) ∧
      lovStripeNumber lse off < lse.lsmeStripeCount.toNat ∧
      (lovStripeOffset lse off (lovStripeNumber lse off)).1 = 0 ∧
      lovStripeSize lse ((lovStripeOffset lse off (lovStripeNumber lse off)).2 + 1)
        (lovStripeNumber lse off) = off + 1) ∧ (∀ k o, k < lse.lsmeStripeCount.toNat →
      o / lse.lsmeStripeSize.toNat * (lse.lsmeStripeSize.toNat * lse.lsmeStripeCount.toNat) +
        k * lse.lsmeStripeSize.toNat + o % lse.lsmeStripeSize.toNat + 1 < 2 ^ 64 →
      lovStripeNumber lse (lovStripeSize lse (o + 1) k - 1) = k ∧
      lovStripeOffset lse (lovStripeSize lse (o + 1) k - 1) k = (0, o)) ∧
    (∀ size, size < obdObjectEof →
      ∑ k ∈ range lse.lsmeStripeCount.toNat, lovSizeToStripe lse size k = size ∧
      (range lse.lsmeStripeCount.toNat).sup
        (fun k => lovStripeSize lse (lovSizeToStripe lse size k) k) = size ∧
      ∀ (oinfo : ℕ → LovOinfo) (lvb : OstLvb),
        (∀ k < lse.lsmeStripeCount.toNat, ostLvbIsErr (oinfo k).loiLvb.lvbBlocks = false) →
        ((∀ k < lse.lsmeStripeCount.toNat, (oinfo k).loiKms = lovSizeToStripe lse size k) →
          (lovMergeLvbKms lse oinfo lvb).2.2 = size) ∧ ((∀ k < lse.lsmeStripeCount.toNat,
            max (oinfo k).loiKms (oinfo k).loiLvb.lvbSize = lovSizeToStripe lse size k) →
          (lovMergeLvbKms lse oinfo lvb).2.1.lvbSize = size)) := by
  have heof : obdObjectEof + 1 = 2 ^ 64 := by decide
  refine ⟨fun off hoff => ?_, fun k o hk ho => ?_, fun size hsize => ⟨?_, ?_, ?_⟩⟩
  · have hk : lovStripeNumber lse off < lse.lsmeStripeCount.toNat := by
      rw [lovStripeNumber_eq h]
      exact blockOf_lt h.ssize_pos h.count_pos off
    have hoff' : off < obdObjectEof := by omega
    obtain ⟨hiff, hval⟩ := lovStripeOffset_eq h hoff' hk
    have hzero : (lovStripeOffset lse off (lovStripeNumber lse off)).1 = 0 :=
      hiff.mpr (lovStripeNumber_eq h off)
    refine ⟨⟨lovStripeNumber lse off, ⟨hk, hzero⟩, fun k' hk' => ?_⟩, hk, hzero, ?_⟩
    · rw [lovStripeNumber_eq h]
      exact (lovStripeOffset_eq h hoff' hk'.1).1.mp hk'.2
    · have hback := outerOf_innerOf (n := lse.lsmeStripeCount.toNat) h.ssize_pos off
      rw [hval hzero, lovStripeNumber_eq h, lovStripeSize_succ h (by omega), hback]
  · have ho' : outerOf lse.lsmeStripeSize.toNat lse.lsmeStripeCount.toNat k o + 1 < 2 ^ 64 := ho
    rw [lovStripeSize_succ h ho', Nat.add_sub_cancel]
    have hlt : outerOf lse.lsmeStripeSize.toNat lse.lsmeStripeCount.toNat k o < obdObjectEof := by
      omega
    have hblock := blockOf_outerOf h.ssize_pos hk o
    obtain ⟨hiff, hval⟩ := lovStripeOffset_eq h hlt hk
    have hzero := hiff.mpr hblock.symm
    refine ⟨by rw [lovStripeNumber_eq h, hblock], Prod.ext hzero ?_⟩
    rw [hval hzero, innerOf_outerOf h.ssize_pos hk]
  · have hcount : ∀ k ∈ range lse.lsmeStripeCount.toNat, lovSizeToStripe lse size k =
        countBelow lse.lsmeStripeSize.toNat lse.lsmeStripeCount.toNat size k :=
      fun k hk => lovSizeToStripe_eq h hsize (Finset.mem_range.mp hk)
    rw [Finset.sum_congr rfl hcount]
    exact sum_countBelow h.ssize_pos h.count_pos size
  · exact sup_lovStripeSize h hsize
  · intro oinfo lvb hok
    obtain ⟨-, hkms, hsz⟩ := lovMergeLoop_spec lse oinfo
      ⟨0, 0, 0, lvb.lvbMtime, lvb.lvbAtime, lvb.lvbCtime, 0⟩ lse.lsmeStripeCount.toNat hok
    have hsup : ∀ g : ℕ → ℕ, (∀ k < lse.lsmeStripeCount.toNat, g k = lovSizeToStripe lse size k) →
        (range lse.lsmeStripeCount.toNat).sup (fun k => lovStripeSize lse (g k) k) = size := by
      intro g hg
      refine (Finset.sup_congr rfl fun k hk => ?_).trans (sup_lovStripeSize h hsize)
      rw [hg k (Finset.mem_range.mp hk)]
    refine ⟨fun hobj => ?_, fun hobj => ?_⟩
    · rw [Nat.zero_max, hsup _ hobj] at hkms
      exact hkms
    · rw [Nat.zero_max, hsup _ hobj] at hsz
      exact hsz

/-- Four stripes of 64 KiB: byte 300000 is byte 103392 of the first object, and
the file that ends right after it is split `103393 + 65536 + 65536 + 65536`. -/
theorem raid0_striping_four : (lovStripeOffset ⟨1, 65536, 4⟩ 300000 0 = (0, 103392)) ∧
      ∑ k ∈ range 4, lovSizeToStripe ⟨1, 65536, 4⟩ 300001 k = 300001 := by
  have h : Raid0 ⟨1, 65536, 4⟩ := ⟨by decide, by decide, by decide⟩
  refine ⟨by decide, ?_⟩
  exact ((raid0_striping ⟨1, 65536, 4⟩ h).2.2 300001 (by decide)).1

end Lustre
