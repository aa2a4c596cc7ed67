import Lustre.Slots
import Mathlib.Data.List.Basic

/-!
# Remapping a changelog record

A changelog record has a fixed part, then those of the extensions that its flags name, packed
in the order of the flags, and then the name. `changelog_remap_rec` repacks a record in place
for a reader who wants other extensions: it moves the name, then the extensions that stay, the
last one first, clears the new ones and updates the flags.

The bytes of the record are those of `moveSlots` and `fillSlots` on the record's fields
(`changelogMoves_moved`, `changelogClears_eq`), as long as the extra flags, which say where
the fields are, are not overwritten on the way. Where no field is moved onto one that is still
to be moved, the remap is right exactly if `ChangelogRemapOk` (`changelog_remapped`). The code
does not see to it: extra flags are only ever added (`changelog_extra_flags_stay`).
-/

namespace Lustre

/-! ## The record -/

/-- `CLF_VERSION`, as a bit number -/
def clfVersion : ℕ := 12

def clfRename : ℕ := 13

def clfJobid : ℕ := 14

def clfExtraFlags : ℕ := 15

def clfeUidgid : ℕ := 0

def clfeNid : ℕ := 1

def clfeOpen : ℕ := 2

def clfeXattr : ℕ := 3

/-- The word with one flag. -/
def clf (k : ℕ) : BitVec 16 := BitVec.twoPow 16 k

/-- The word with one extra flag. -/
def clfe (k : ℕ) : BitVec 64 := BitVec.twoPow 64 k

def clfSupported : BitVec 16 :=
  clf clfVersion ||| clf clfRename ||| clf clfJobid ||| clf clfExtraFlags

def clfFlagmask : BitVec 16 := 0xFFF

def clfeSupported : BitVec 64 :=
  clfe clfeUidgid ||| clfe clfeNid ||| clfe clfeOpen ||| clfe clfeXattr

theorem clf_words : (∀ k, clf k = BitVec.twoPow 16 k) ∧ (∀ k, clfe k = BitVec.twoPow 64 k) ∧
    clfSupported = clf 12 ||| clf 13 ||| clf 14 ||| clf 15 ∧
    clfeSupported = clfe 0 ||| clfe 1 ||| clfe 2 ||| clfe 3 ∧ clfVersion = 12 ∧ clfRename = 13 ∧
    clfJobid = 14 ∧ clfExtraFlags = 15 ∧ clfeUidgid = 0 ∧ clfeNid = 1 ∧ clfeOpen = 2 ∧
    clfeXattr = 3 := by
  simp [clf, clfe, clfSupported, clfeSupported, clfVersion, clfRename, clfJobid, clfExtraFlags,
    clfeUidgid, clfeNid, clfeOpen, clfeXattr]

/-- `struct changelog_rec` and what follows it, with the fields that a remap reads. -/
structure ChangelogRec where
  /-- `cr_namelen` -/
  namelen : ℕ
  /-- `cr_flags` -/
  flags : BitVec 16
  /-- the bytes, by their offset from the start of the record -/
  bytes : ℕ → BitVec 8

/-- A little-endian `__u64` in the record. -/
def readU64 (b : ℕ → BitVec 8) (a : ℕ) : BitVec 64 :=
  b (a + 7) ++ b (a + 6) ++ b (a + 5) ++ b (a + 4) ++ b (a + 3) ++ b (a + 2) ++ b (a + 1) ++ b a

/-- A word of eight equal parts of another one is that one. -/
theorem readU64_congr {b c : ℕ → BitVec 8} {x y : ℕ} (h : ∀ k < 8, b (x + k) = c (y + k)) :
    readU64 b x = readU64 c y := by
  have hzero := h 0 (by decide)
  rw [Nat.add_zero, Nat.add_zero] at hzero
  simp only [readU64, h 7 (by decide), h 6 (by decide), h 5 (by decide), h 4 (by decide),
    h 3 (by decide), h 2 (by decide), h 1 (by decide), hzero]

/-- Store a `__u64`. -/
def writeU64 (b : ℕ → BitVec 8) (a : ℕ) (v : BitVec 64) : ℕ → BitVec 8 := fun x =>
  if a ≤ x ∧ x < a + 8 then v.extractLsb' (8 * (x - a)) 8 else b x

def changelogRecOffset (crf : BitVec 16) (cref : BitVec 64) : ℕ :=
  64 + (if crf.getLsbD clfRename then 32 else 0) + (if crf.getLsbD clfJobid then 32 else 0) +
    if crf.getLsbD clfExtraFlags then
      8 + (if cref.getLsbD clfeUidgid then 16 else 0) + (if cref.getLsbD clfeNid then 24 else 0) +
        (if cref.getLsbD clfeOpen then 4 else 0) + (if cref.getLsbD clfeXattr then 256 else 0)
    else 0

namespace ChangelogRec

variable (r : ChangelogRec)

/-- Is a flag set? -/
def has (k : ℕ) : Bool := r.flags.getLsbD k

/-- `changelog_rec_rename`. -/
def rename : ℕ := changelogRecOffset (r.flags &&& clf clfVersion) 0

/-- `changelog_rec_jobid`. -/
def jobid : ℕ :=
  changelogRecOffset (r.flags &&& (clf clfVersion ||| clf clfRename)) 0

/-- `changelog_rec_extra_flags`. -/
def extraFlagsAt : ℕ :=
  changelogRecOffset (r.flags &&& (clf clfVersion ||| clf clfRename ||| clf clfJobid)) 0

/-- `cr_extra_flags`. -/
def extraFlags : BitVec 64 := readU64 r.bytes r.extraFlagsAt

/-- The extra flags of a record that has them. -/
def cref : BitVec 64 := if r.has clfExtraFlags then r.extraFlags else 0

/-- `changelog_rec_uidgid`. -/
def uidgid : ℕ := changelogRecOffset (r.flags &&& clfSupported) 0

/-- `changelog_rec_nid`. -/
def nid : ℕ :=
  changelogRecOffset (r.flags &&& clfSupported) (r.cref &&& clfe clfeUidgid)

/-- `changelog_rec_openmode`. -/
def openmode : ℕ :=
  changelogRecOffset (r.flags &&& clfSupported) (r.cref &&& (clfe clfeUidgid ||| clfe clfeNid))

/-- `changelog_rec_xattr`. -/
def xattr : ℕ :=
  changelogRecOffset (r.flags &&& clfSupported)
    (r.cref &&& (clfe clfeUidgid ||| clfe clfeNid ||| clfe clfeOpen))

/-- `changelog_rec_name`. -/
def name : ℕ :=
  changelogRecOffset (r.flags &&& clfSupported) (r.cref &&& clfeSupported)

/-- A `memmove` in the record, made if `c`. -/
def move (c : Bool) (dst src n : ℕ) : ChangelogRec :=
  if c then { r with bytes := memmove r.bytes dst src n } else r

/-- A `memset` to zero in the record, made if `c`. -/
def clear (c : Bool) (dst n : ℕ) : ChangelogRec :=
  if c then { r with bytes := memset r.bytes dst 0 n } else r

end ChangelogRec

/-! ## The remap -/

section Remap

variable (crf : BitVec 16) (want cref : BitVec 64) (r : ChangelogRec)

def xattrMov : ℕ := changelogRecOffset crf (want &&& ~~~clfe clfeXattr)

def omdMov : ℕ := changelogRecOffset crf (want &&& ~~~(clfe clfeOpen ||| clfe clfeXattr))

def nidMov : ℕ :=
  changelogRecOffset crf (want &&& ~~~(clfe clfeNid ||| clfe clfeOpen ||| clfe clfeXattr))

def uidgidMov : ℕ :=
  changelogRecOffset crf
    (want &&& ~~~(clfe clfeUidgid ||| clfe clfeNid ||| clfe clfeOpen ||| clfe clfeXattr))

def efMov : ℕ := changelogRecOffset (crf &&& ~~~clf clfExtraFlags) 0

def jidMov : ℕ := changelogRecOffset (crf &&& ~~~(clf clfExtraFlags ||| clf clfJobid)) 0

def rnmMov : ℕ :=
  changelogRecOffset (crf &&& ~~~(clf clfExtraFlags ||| clf clfJobid ||| clf clfRename)) 0

/-- First move the variable-length name field. -/
def changelogMoveName : ChangelogRec :=
  r.move true (changelogRecOffset crf want) r.name r.namelen

/-- Move the name of the extended attribute; `cref` are the record's extra flags as they are read
after the name has been moved. -/
def changelogMoveXattr : ChangelogRec :=
  r.move (want.getLsbD clfeXattr && cref.getLsbD clfeXattr) (xattrMov crf want) r.xattr 256

/-- Move the open mode. -/
def changelogMoveOmd : ChangelogRec :=
  r.move (want.getLsbD clfeOpen && cref.getLsbD clfeOpen) (omdMov crf want) r.openmode 4

/-- Move the nid. -/
def changelogMoveNid : ChangelogRec :=
  r.move (want.getLsbD clfeNid && cref.getLsbD clfeNid) (nidMov crf want) r.nid 24

/-- Move the uid and gid. -/
def changelogMoveUidgid : ChangelogRec :=
  r.move (want.getLsbD clfeUidgid && cref.getLsbD clfeUidgid) (uidgidMov crf want) r.uidgid 16

/-- Move the extra flags. -/
def changelogMoveEf : ChangelogRec := r.move true (efMov crf) r.extraFlagsAt 8

/-- Move the extra extensions and the extra flags. -/
def changelogMoveExtra : ChangelogRec :=
  if crf.getLsbD clfExtraFlags && r.has clfExtraFlags then
    let r := changelogMoveXattr crf want cref r
    let r := changelogMoveOmd crf want cref r
    let r := changelogMoveNid crf want cref r
    let r := changelogMoveUidgid crf want cref r
    changelogMoveEf crf r
  else r

/-- Move the extension fields to the desired positions. -/
def changelogMoves : ChangelogRec :=
  let r := changelogMoveExtra crf want cref r
  let r := r.move (crf.getLsbD clfJobid && r.has clfJobid) (jidMov crf) r.jobid 32
  r.move (crf.getLsbD clfRename && r.has clfRename) (rnmMov crf) r.rename 32

/-- Clear newly added fields. The first four places are `NULL` unless the record has extra
flags. -/
def changelogClears : ChangelogRec :=
  let ef := r.has clfExtraFlags
  let r := r.clear (ef && want.getLsbD clfeXattr && !cref.getLsbD clfeXattr) (xattrMov crf want) 256
  let r := r.clear (ef && want.getLsbD clfeOpen && !cref.getLsbD clfeOpen) (omdMov crf want) 4
  let r := r.clear (ef && want.getLsbD clfeNid && !cref.getLsbD clfeNid) (nidMov crf want) 24
  let r := r.clear (ef && want.getLsbD clfeUidgid && !cref.getLsbD clfeUidgid)
    (uidgidMov crf want) 16
  let r := r.clear (crf.getLsbD clfExtraFlags && !r.has clfExtraFlags) (efMov crf) 8
  let r := r.clear (crf.getLsbD clfJobid && !r.has clfJobid) (jidMov crf) 32
  r.clear (crf.getLsbD clfRename && !r.has clfRename) (rnmMov crf) 32

/-- Update the record's flags accordingly. -/
def changelogSetFlags : ChangelogRec :=
  let r := { r with flags := (r.flags &&& clfFlagmask) ||| crf }
  if r.has clfExtraFlags then
    { r with bytes := writeU64 r.bytes r.extraFlagsAt (r.extraFlags ||| want) }
  else r

end Remap

section Places

variable (crf : BitVec 16) (cref : BitVec 64)

/-- Where the jobid is. -/
def jobidPlace : ℕ := 64 + if crf.getLsbD clfRename then 32 else 0

/-- Where the extra flags are. -/
def extraFlagsPlace : ℕ := jobidPlace crf + if crf.getLsbD clfJobid then 32 else 0

/-- Where the uid and gid are. -/
def uidgidPlace : ℕ := extraFlagsPlace crf + if crf.getLsbD clfExtraFlags then 8 else 0

/-- Where the nid is. -/
def nidPlace : ℕ :=
  uidgidPlace crf + if crf.getLsbD clfExtraFlags && cref.getLsbD clfeUidgid then 16 else 0

/-- Where the open mode is. -/
def openmodePlace : ℕ :=
  nidPlace crf cref + if crf.getLsbD clfExtraFlags && cref.getLsbD clfeNid then 24 else 0

/-- Where the name of the extended attribute is. -/
def xattrPlace : ℕ :=
  openmodePlace crf cref + if crf.getLsbD clfExtraFlags && cref.getLsbD clfeOpen then 4 else 0

/-- Where the name is. -/
def namePlace : ℕ :=
  xattrPlace crf cref + if crf.getLsbD clfExtraFlags && cref.getLsbD clfeXattr then 256 else 0

/-- Extra flags are in front of the name. -/
theorem extraFlagsPlace_add_le {crf : BitVec 16} (hnew : crf.getLsbD clfExtraFlags = true) :
    extraFlagsPlace crf + 8 ≤ namePlace crf cref := by
  rw [namePlace, xattrPlace, openmodePlace, nidPlace, uidgidPlace, if_pos hnew]
  omega

theorem changelogRecOffset_eq : changelogRecOffset crf cref = namePlace crf cref := by
  simp only [changelogRecOffset, namePlace, xattrPlace, openmodePlace, nidPlace, uidgidPlace,
    extraFlagsPlace, jobidPlace]
  cases crf.getLsbD clfExtraFlags <;> simp
  omega

attribute [local simp] changelogRecOffset_eq namePlace xattrPlace openmodePlace nidPlace uidgidPlace
  extraFlagsPlace jobidPlace clf_words

theorem rnmMov_eq : rnmMov crf = 64 := by simp [rnmMov]

theorem jidMov_eq : jidMov crf = jobidPlace crf := by simp [jidMov]

theorem efMov_eq : efMov crf = extraFlagsPlace crf := by simp [efMov]

theorem uidgidMov_eq : uidgidMov crf cref = uidgidPlace crf := by simp [uidgidMov]

theorem nidMov_eq : nidMov crf cref = nidPlace crf cref := by simp [nidMov]

theorem omdMov_eq : omdMov crf cref = openmodePlace crf cref := by simp [omdMov]

theorem xattrMov_eq : xattrMov crf cref = xattrPlace crf cref := by simp [xattrMov]

namespace ChangelogRec

variable (r : ChangelogRec)

theorem rename_eq : r.rename = 64 := by simp [rename]

theorem jobid_eq : r.jobid = jobidPlace r.flags := by simp [jobid]

theorem extraFlagsAt_eq : r.extraFlagsAt = extraFlagsPlace r.flags := by simp [extraFlagsAt]

theorem uidgid_eq : r.uidgid = uidgidPlace r.flags := by simp [uidgid]

theorem nid_eq : r.nid = nidPlace r.flags r.cref := by simp [nid]

theorem openmode_eq : r.openmode = openmodePlace r.flags r.cref := by simp [openmode]

theorem xattr_eq : r.xattr = xattrPlace r.flags r.cref := by simp [xattr]

theorem name_eq : r.name = namePlace r.flags r.cref := by simp [name]

end ChangelogRec

end Places

/-! ## The moves and clears, field by field -/

section Fields

variable (crf : BitVec 16) (cref : BitVec 64) (crf' : BitVec 16) (cref' : BitVec 64)

/-- An extra extension. -/
def extraSlot (size k : ℕ) : Slot :=
  ⟨size, crf.getLsbD clfExtraFlags && cref.getLsbD k, crf'.getLsbD clfExtraFlags && cref'.getLsbD k⟩

/-- The extra flags, the extra extensions and the name. -/
def extraSlots (namelen : ℕ) : List Slot :=
  [⟨8, crf.getLsbD clfExtraFlags, crf'.getLsbD clfExtraFlags⟩,
    extraSlot crf cref crf' cref' 16 clfeUidgid, extraSlot crf cref crf' cref' 24 clfeNid,
    extraSlot crf cref crf' cref' 4 clfeOpen, extraSlot crf cref crf' cref' 256 clfeXattr,
    ⟨namelen, true, true⟩]

/-- All the fields of a record behind the fixed part. -/
def changelogSlots (namelen : ℕ) : List Slot :=
  ⟨32, crf.getLsbD clfRename, crf'.getLsbD clfRename⟩ ::
    ⟨32, crf.getLsbD clfJobid, crf'.getLsbD clfJobid⟩ :: extraSlots crf cref crf' cref' namelen

end Fields

/-- Extra flags that are kept do not move to the left. -/
def ExtraFlagsStay (r : ChangelogRec) (crf : BitVec 16) : Prop :=
  r.has clfExtraFlags = true → crf.getLsbD clfExtraFlags = true →
    extraFlagsPlace r.flags ≤ extraFlagsPlace crf

/-- The fields of a record that is remapped. -/
def remapSlots (r : ChangelogRec) (crf : BitVec 16) (want : BitVec 64) : List Slot :=
  changelogSlots r.flags r.cref crf want r.namelen

/-- Nothing is moved onto extra flags that are kept before they are moved. -/
def ExtraFlagsMissed (r : ChangelogRec) (crf : BitVec 16) (want : BitVec 64) : Prop :=
  r.has clfExtraFlags = true → crf.getLsbD clfExtraFlags = true →
    SlotsMiss (extraFlagsPlace r.flags) (extraFlagsPlace r.flags + 8)
      (extraSlots r.flags r.cref crf want r.namelen).tail (uidgidPlace crf)

/-- A record `r` on the way from `r0`: the fields `fs`, from `S` to `D`, have been moved. -/
structure MovedTo (r0 : ChangelogRec) (fs : List Slot) (S D : ℕ) (r : ChangelogRec) : Prop where
  flags : r.flags = r0.flags
  namelen : r.namelen = r0.namelen
  bytes : r.bytes = moveSlots fs S D r0.bytes

variable {f : Slot}

open ChangelogRec (move extraFlagsAt_eq)

namespace MovedTo

variable {r0 r : ChangelogRec} {fs : List Slot} {S D : ℕ}

/-- A field that is not kept is passed over. -/
theorem skip (h : MovedTo r0 fs (S + f.oldWidth) (D + f.newWidth) r)
    (hf : f.kept = false) : MovedTo r0 (f :: fs) S D r := by
  refine ⟨h.flags, h.namelen, ?_⟩
  rw [moveSlots, if_neg (by simp [hf])]
  exact h.bytes

theorem move (h : MovedTo r0 fs (S + f.oldWidth) (D + f.newWidth) r) {c : Bool}
    {dst src n : ℕ} (hc : c = f.kept) (hdst : dst = D) (hsrc : src = S) (hn : n = f.size) :
    MovedTo r0 (f :: fs) S D (r.move c dst src n) := by
  subst hc hdst hsrc hn
  rw [move]
  split
  · next hkept =>
    refine ⟨h.flags, h.namelen, ?_⟩
    rw [moveSlots, if_pos hkept, ← h.bytes]
  · next hkept => exact h.skip (Bool.eq_false_iff.mpr hkept)

theorem has (h : MovedTo r0 fs S D r) (k : ℕ) : r.has k = r0.has k := by
  rw [ChangelogRec.has, h.flags, ChangelogRec.has]

/-- The extra flags are where they were, as long as nothing has been moved onto them. -/
theorem cref (h : MovedTo r0 fs S D r)
    (hmiss : SlotsMiss (extraFlagsPlace r0.flags) (extraFlagsPlace r0.flags + 8) fs D) :
    r.cref = r0.cref := by
  have hsame : ∀ k < 8, r.bytes (extraFlagsPlace r0.flags + k) =
      r0.bytes (extraFlagsPlace r0.flags + k) := by
    intro k hk
    rw [h.bytes]
    exact moveSlots_of_miss hmiss (Nat.le_add_right _ _) (Nat.add_lt_add_left hk _)
  rw [ChangelogRec.cref, ChangelogRec.cref, h.has, ChangelogRec.extraFlags, ChangelogRec.extraFlags,
    extraFlagsAt_eq, extraFlagsAt_eq, h.flags, readU64_congr hsame]

end MovedTo

variable {r : ChangelogRec} {crf : BitVec 16} {want : BitVec 64}

theorem changelogMoveName_moved (r : ChangelogRec) (crf : BitVec 16) (want : BitVec 64) :
    MovedTo r [⟨r.namelen, true, true⟩] (namePlace r.flags r.cref) (namePlace crf want)
      (changelogMoveName crf want r) := by
  have hstart : MovedTo r [] (namePlace r.flags r.cref + (⟨r.namelen, true, true⟩ : Slot).oldWidth)
      (namePlace crf want + (⟨r.namelen, true, true⟩ : Slot).newWidth) r := ⟨rfl, rfl, rfl⟩
  exact hstart.move rfl (changelogRecOffset_eq _ _) r.name_eq rfl

/-- Extra flags that are added or removed, and the extra extensions, are not kept. -/
theorem extraSlots_not_kept (want : BitVec 64)
    (h : ¬ (r.has clfExtraFlags = true ∧ crf.getLsbD clfExtraFlags = true)) :
    (r.flags.getLsbD clfExtraFlags && crf.getLsbD clfExtraFlags) = false ∧
      ∀ size k, (extraSlot r.flags r.cref crf want size k).kept = false := by
  have hnone : (r.flags.getLsbD clfExtraFlags && crf.getLsbD clfExtraFlags) = false := by
    rw [← Bool.not_eq_true, Bool.and_eq_true]
    exact h
  refine ⟨hnone, ?_⟩
  rw [Bool.and_eq_false_iff] at hnone
  rcases hnone with hz | hz <;> simp [extraSlot, Slot.kept, hz]

/-- The extra flags and extensions are moved, when the extra flags are missed. -/
theorem changelogMoveExtra_moved (hmissed : ExtraFlagsMissed r crf want) :
    MovedTo r (extraSlots r.flags r.cref crf want r.namelen) (extraFlagsPlace r.flags)
      (extraFlagsPlace crf) (changelogMoveExtra crf want (changelogMoveName crf want r).cref
        (changelogMoveName crf want r)) := by
  have hname := changelogMoveName_moved r crf want
  generalize changelogMoveName crf want r = r1 at hname
  rw [changelogMoveExtra]
  split
  · next hboth =>
    obtain ⟨hnew, hold⟩ := Bool.and_eq_true_iff.mp hboth
    rw [hname.has] at hold
    have hold' : r.flags.getLsbD clfExtraFlags = true := hold
    obtain ⟨-, -, hmiss3, hmiss2, hmiss1⟩ := hmissed hold hnew
    have hkept : ∀ size k, (want.getLsbD k && r.cref.getLsbD k) =
        (extraSlot r.flags r.cref crf want size k).kept := by
      simp [extraSlot, Slot.kept, hold', hnew, Bool.and_comm]
    have hc1 : r1.cref = r.cref := hname.cref hmiss1
    rw [hc1]
    dsimp only
    -- one move after the other; each reads the extra flags to find its source
    have h2 : MovedTo r (extraSlot r.flags r.cref crf want 256 clfeXattr :: _)
        (xattrPlace r.flags r.cref) (xattrPlace crf want) (changelogMoveXattr crf want r.cref r1) :=
      hname.move (hkept _ _) (xattrMov_eq _ _) (by rw [r1.xattr_eq, hname.flags, hc1]) rfl
    generalize changelogMoveXattr crf want r.cref r1 = r2 at h2
    have hc2 : r2.cref = r.cref := h2.cref ⟨hmiss2, hmiss1⟩
    have h3 : MovedTo r (extraSlot r.flags r.cref crf want 4 clfeOpen :: _)
        (openmodePlace r.flags r.cref) (openmodePlace crf want)
        (changelogMoveOmd crf want r.cref r2) :=
      h2.move (hkept _ _) (omdMov_eq _ _) (by rw [r2.openmode_eq, h2.flags, hc2]) rfl
    generalize changelogMoveOmd crf want r.cref r2 = r3 at h3
    have hc3 : r3.cref = r.cref := h3.cref ⟨hmiss3, hmiss2, hmiss1⟩
    have h4 : MovedTo r (extraSlot r.flags r.cref crf want 24 clfeNid :: _)
        (nidPlace r.flags r.cref) (nidPlace crf want) (changelogMoveNid crf want r.cref r3) :=
      h3.move (hkept _ _) (nidMov_eq _ _) (by rw [r3.nid_eq, h3.flags, hc3]) rfl
    generalize changelogMoveNid crf want r.cref r3 = r4 at h4
    have h5 : MovedTo r (extraSlot r.flags r.cref crf want 16 clfeUidgid :: _)
        (uidgidPlace r.flags) (uidgidPlace crf) (changelogMoveUidgid crf want r.cref r4) :=
      h4.move (hkept _ _) (uidgidMov_eq _ _) (by rw [r4.uidgid_eq, h4.flags]) rfl
    generalize changelogMoveUidgid crf want r.cref r4 = r5 at h5
    refine h5.move ?_ (efMov_eq _) (by rw [r5.extraFlagsAt_eq, h5.flags]) rfl
    simp [Slot.kept, hold', hnew]
  · next hboth =>
    -- the extra flags are not kept, so nothing of them is
    rw [hname.has, Bool.and_eq_true, and_comm] at hboth
    obtain ⟨hnone, hslot⟩ := extraSlots_not_kept want hboth
    exact ((((hname.skip (hslot _ _)).skip (hslot _ _)).skip (hslot _ _)).skip (hslot _ _)).skip
      hnone

theorem changelogMoves_moved (hmissed : ExtraFlagsMissed r crf want) :
    MovedTo r (remapSlots r crf want) 64 64
      (changelogMoves crf want (changelogMoveName crf want r).cref
        (changelogMoveName crf want r)) := by
  have hextra := changelogMoveExtra_moved hmissed
  rw [changelogMoves]
  generalize changelogMoveExtra crf want _ _ = r2 at hextra ⊢
  have hjob : MovedTo r (⟨32, r.flags.getLsbD clfJobid, crf.getLsbD clfJobid⟩ ::
        extraSlots r.flags r.cref crf want r.namelen) (jobidPlace r.flags) (jobidPlace crf)
      (r2.move (crf.getLsbD clfJobid && r2.has clfJobid) (jidMov crf) r2.jobid 32) := by
    refine hextra.move ?_ (jidMov_eq crf) (by rw [r2.jobid_eq, hextra.flags]) rfl
    rw [hextra.has, Bool.and_comm]
    rfl
  generalize r2.move _ _ _ 32 = r3 at hjob ⊢
  refine hjob.move ?_ (rnmMov_eq crf) r3.rename_eq rfl
  rw [hjob.has, Bool.and_comm]
  rfl

/-! ## Extensions -/

/-- The extensions of a record. -/
inductive ChangelogExt where
  /-- `struct changelog_ext_rename` -/
  | rename
  /-- `struct changelog_ext_jobid` -/
  | jobid
  /-- `struct changelog_ext_uidgid` -/
  | uidgid
  /-- `struct changelog_ext_nid` -/
  | nid
  /-- `struct changelog_ext_openmode` -/
  | openmode
  /-- `struct changelog_ext_xattr` -/
  | xattr
  deriving DecidableEq

namespace ChangelogExt

/-- The size of an extension. -/
def size : ChangelogExt → ℕ
  | rename => 32
  | jobid => 32
  | uidgid => 16
  | nid => 24
  | openmode => 4
  | xattr => 256

/-- The extra flag of an extra extension. -/
def extra : ChangelogExt → Option ℕ
  | rename => none
  | jobid => none
  | uidgid => some clfeUidgid
  | nid => some clfeNid
  | openmode => some clfeOpen
  | xattr => some clfeXattr

/-- The extensions in their order, with the place of the extra flags. -/
theorem exists_or_iff {p : ChangelogExt → Prop} {q : Prop} : (∃ e, p e) ∨ q ↔
    p rename ∨ p jobid ∨ q ∨ p uidgid ∨ p nid ∨ p openmode ∨ p xattr := by
  constructor
  · rintro (⟨e, he⟩ | hq)
    · cases e <;> simp [he]
    · simp [hq]
  · rintro (h | h | h | h | h | h | h)
    · exact .inl ⟨_, h⟩
    · exact .inl ⟨_, h⟩
    · exact .inr h
    all_goals exact .inl ⟨_, h⟩

/-- Do the flags name an extension? -/
def has : ChangelogExt → BitVec 16 → BitVec 64 → Bool
  | rename, crf, _ => crf.getLsbD clfRename
  | jobid, crf, _ => crf.getLsbD clfJobid
  | uidgid, crf, cref => crf.getLsbD clfExtraFlags && cref.getLsbD clfeUidgid
  | nid, crf, cref => crf.getLsbD clfExtraFlags && cref.getLsbD clfeNid
  | openmode, crf, cref => crf.getLsbD clfExtraFlags && cref.getLsbD clfeOpen
  | xattr, crf, cref => crf.getLsbD clfExtraFlags && cref.getLsbD clfeXattr

/-- Where the code looks for an extension. -/
def place : ChangelogExt → ChangelogRec → ℕ
  | rename, r => r.rename
  | jobid, r => r.jobid
  | uidgid, r => r.uidgid
  | nid, r => r.nid
  | openmode, r => r.openmode
  | xattr, r => r.xattr

/-- Where an extension is, by the flags. -/
def placeOf : ChangelogExt → BitVec 16 → BitVec 64 → ℕ
  | rename, _, _ => 64
  | jobid, crf, _ => jobidPlace crf
  | uidgid, crf, _ => uidgidPlace crf
  | nid, crf, cref => nidPlace crf cref
  | openmode, crf, cref => openmodePlace crf cref
  | xattr, crf, cref => xattrPlace crf cref

section

variable (e : ChangelogExt)

theorem place_eq (r : ChangelogRec) : e.place r = e.placeOf r.flags r.cref := by
  cases e with
  | rename => exact r.rename_eq
  | jobid => exact r.jobid_eq
  | uidgid => exact r.uidgid_eq
  | nid => exact r.nid_eq
  | openmode => exact r.openmode_eq
  | xattr => exact r.xattr_eq

theorem has_supported (crf : BitVec 16) (cref : BitVec 64) :
    e.has (crf &&& clfSupported) (cref &&& clfeSupported) = e.has crf cref := by
  cases e <;> simp [has, clf_words]

theorem placeOf_supported (crf : BitVec 16) (cref : BitVec 64) :
    e.placeOf (crf &&& clfSupported) (cref &&& clfeSupported) = e.placeOf crf cref := by
  cases e <;> simp [placeOf, jobidPlace, extraFlagsPlace, uidgidPlace, nidPlace, openmodePlace,
    xattrPlace, clf_words]

section

variable {crf : BitVec 16} (h : crf.getLsbD clfExtraFlags = false) (c c' : BitVec 64)
include h c c'

/-- Without extra flags the word of extra flags does not matter. -/
theorem has_of_not_extra : e.has crf c = e.has crf c' := by
  cases e <;> simp [has, h]

theorem placeOf_of_not_extra : e.placeOf crf c = e.placeOf crf c' := by
  cases e <;> simp [placeOf, xattrPlace, openmodePlace, nidPlace, h]

end

section

variable {crf : BitVec 16} {cref : BitVec 64}

theorem has_extra {k : ℕ} (hk : e.extra = some k) (cref : BitVec 64) :
    e.has crf cref = (crf.getLsbD clfExtraFlags && cref.getLsbD k) := by
  cases e <;> cases hk <;> rfl

/-- Without extra flags it would be where the name is. -/
theorem placeOf_eq_namePlace {k : ℕ} (hk : e.extra = some k)
    (hno : crf.getLsbD clfExtraFlags = false) : e.placeOf crf cref = namePlace crf cref := by
  cases e <;> cases hk <;> simp [placeOf, namePlace, xattrPlace, openmodePlace, nidPlace, hno]

theorem uidgidPlace_le {k : ℕ} (hk : e.extra = some k) (cref : BitVec 64) :
    uidgidPlace crf ≤ e.placeOf crf cref := by
  cases e <;> cases hk <;> simp only [placeOf, xattrPlace, openmodePlace, nidPlace] <;> omega

/-- The other extensions are in front of the extra flags. -/
theorem end_le_extraFlags (hnone : e.extra = none) (h : e.has crf cref = true) :
    e.placeOf crf cref + e.size ≤ extraFlagsPlace crf := by
  cases e <;> cases hnone
  · have hbit : crf.getLsbD clfRename = true := h
    simp only [placeOf, size, extraFlagsPlace, jobidPlace, hbit, if_true]
    omega
  · have hbit : crf.getLsbD clfJobid = true := h
    simp only [placeOf, size, extraFlagsPlace, hbit, if_true]
    omega

theorem outside (h : e.has crf cref = true) : e.placeOf crf cref + e.size ≤ extraFlagsPlace crf ∨
    extraFlagsPlace crf + 8 ≤ e.placeOf crf cref := by
  cases hextra : e.extra with
  | none => exact .inl (e.end_le_extraFlags hextra h)
  | some k =>
    have hle : uidgidPlace crf ≤ _ := e.uidgidPlace_le hextra cref
    rw [e.has_extra hextra] at h
    rw [uidgidPlace, if_pos (Bool.and_eq_true_iff.mp h).1] at hle
    exact .inr hle

/-- An extension is in front of the name. -/
theorem end_le (h : e.has crf cref = true) :
    e.placeOf crf cref + e.size ≤ namePlace crf cref := by
  cases e with
  | rename | jobid =>
    rw [has] at h
    simp only [placeOf, size, namePlace, xattrPlace, openmodePlace, nidPlace, uidgidPlace,
      extraFlagsPlace, jobidPlace, h, if_true]
    omega
  | uidgid | nid | openmode | xattr =>
    rw [has] at h
    simp only [placeOf, size, namePlace, xattrPlace, openmodePlace, nidPlace, h, if_true]
    omega

end

end

end ChangelogExt

/-! ## The clears -/

section Clears

variable {cref : BitVec 64} {a : ℕ}

theorem ChangelogRec.clear_bytes (r : ChangelogRec) (c : Bool) (dst n a : ℕ) :
    (r.clear c dst n).bytes a = if c = true ∧ dst ≤ a ∧ a < dst + n then 0 else r.bytes a := by
  rw [clear, apply_ite bytes]
  exact ite_memset

theorem ChangelogRec.clear_same (r : ChangelogRec) (c : Bool) (dst n : ℕ) :
    (r.clear c dst n).flags = r.flags ∧ (r.clear c dst n).namelen = r.namelen := by
  rw [clear]
  split <;> exact ⟨rfl, rfl⟩

open ChangelogRec (clear_bytes clear_same)

/-- The code clears the extension; `cref` are the extra flags that it has read. -/
def ChangelogExt.cleared (crf : BitVec 16) (want cref : BitVec 64) (r : ChangelogRec)
    (e : ChangelogExt) : Bool :=
  match e.extra with
  | none => e.has crf want && !e.has r.flags cref
  | some k => r.has clfExtraFlags && want.getLsbD k && !cref.getLsbD k

/-- The byte is in one of the extensions `p`, or in extra flags that are added. -/
def InCleared (r : ChangelogRec) (crf : BitVec 16) (want : BitVec 64) (p : ChangelogExt → Bool)
    (a : ℕ) : Prop :=
  (∃ e, p e = true ∧ e.placeOf crf want ≤ a ∧ a < e.placeOf crf want + e.size) ∨
    (crf.getLsbD clfExtraFlags && !r.has clfExtraFlags) = true ∧ extraFlagsPlace crf ≤ a ∧
      a < extraFlagsPlace crf + 8

theorem changelogClears_bytes (r : ChangelogRec) (crf : BitVec 16) (want cref : BitVec 64) (a : ℕ) :
    (InCleared r crf want (ChangelogExt.cleared crf want cref r) a →
      (changelogClears crf want cref r).bytes a = 0) ∧
    (¬ InCleared r crf want (ChangelogExt.cleared crf want cref r) a →
      (changelogClears crf want cref r).bytes a = r.bytes a) := by
  rw [InCleared, ChangelogExt.exists_or_iff]
  simp only [changelogClears, clear_bytes, ChangelogRec.has, clear_same, xattrMov_eq, omdMov_eq,
    nidMov_eq, uidgidMov_eq, efMov_eq, jidMov_eq, rnmMov_eq, ← ite_or]
  exact ⟨fun h => if_pos h, fun h => if_neg h⟩

/-- What is cleared in a remap that is right, byte by byte. -/
theorem fillSlots_bytes (r : ChangelogRec) (crf : BitVec 16) (want cref : BitVec 64) (n : ℕ)
    (b : ℕ → BitVec 8) (a : ℕ) :
    (InCleared r crf want (fun e => e.has crf want && !e.has r.flags cref) a →
      fillSlots 0 (changelogSlots r.flags cref crf want n) 64 b a = 0) ∧
    (¬ InCleared r crf want (fun e => e.has crf want && !e.has r.flags cref) a →
      fillSlots 0 (changelogSlots r.flags cref crf want n) 64 b a = b a) := by
  rw [InCleared, ChangelogExt.exists_or_iff]
  simp only [changelogSlots, extraSlots, extraSlot, fillSlots_cons, fillSlots_nil, Bool.not_true,
    Bool.and_false, Bool.false_eq_true, false_and, if_false, ← ite_or]
  exact ⟨fun h => if_pos h, fun h => if_neg h⟩

/-- The clears are right up to the byte `B` if each extension is cleared that has to be, or is zero
anyway. -/
theorem changelogClears_eq {cref0 : BitVec 64} {B : ℕ} (n : ℕ)
    (hext : ∀ e : ChangelogExt,
      e.cleared crf want cref r = (e.has crf want && !e.has r.flags cref0) ∨
      ∀ a < B, e.placeOf crf want ≤ a → a < e.placeOf crf want + e.size → r.bytes a = 0)
    (ha : a < B) : (changelogClears crf want cref r).bytes a =
      fillSlots 0 (changelogSlots r.flags cref0 crf want n) 64 r.bytes a := by
  obtain ⟨hin, hout⟩ := changelogClears_bytes r crf want cref a
  obtain ⟨hin', hout'⟩ := fillSlots_bytes r crf want cref0 n r.bytes a
  by_cases hzero : r.bytes a = 0
  · -- zero stays zero, cleared or not
    rw [hzero] at hout hout'
    rw [(em _).elim hin hout, (em _).elim hin' hout']
  · have hsame : InCleared r crf want (ChangelogExt.cleared crf want cref r) a ↔
        InCleared r crf want (fun e => e.has crf want && !e.has r.flags cref0) a := by
      refine or_congr_left (exists_congr fun e => and_congr_left fun hrange => ?_)
      rw [(hext e).resolve_right fun hz => hzero (hz a ha hrange.1 hrange.2)]
    by_cases hc : InCleared r crf want (ChangelogExt.cleared crf want cref r) a
    · rw [hin hc, hin' (hsame.mp hc)]
    · rw [hout hc, hout' fun h => hc (hsame.mpr h)]

/-- Without extra flags no extra extension is cleared. -/
theorem changelogClears_frame (cref : BitVec 64) (hold : r.has clfExtraFlags = false)
    (ha : uidgidPlace crf ≤ a) : (changelogClears crf want cref r).bytes a = r.bytes a := by
  refine (changelogClears_bytes r crf want cref a).2 ?_
  rw [uidgidPlace] at ha
  rintro (⟨e, he, hrange⟩ | ⟨hc, hrange⟩)
  · cases hextra : e.extra with
    | none =>
      rw [ChangelogExt.cleared, hextra] at he
      have := e.end_le_extraFlags hextra (Bool.and_eq_true_iff.mp he).1
      omega
    | some k => simp [ChangelogExt.cleared, hextra, hold] at he
  · rw [if_pos (Bool.and_eq_true_iff.mp hc).1] at ha
    omega

end Clears

/-! ## The remapped record -/

/-- When a remap is right. A record that keeps its extra flags loses none of the extra
extensions. Where extra flags are added, the bytes are zero that become a wanted extra extension;
where they are removed, a wanted extra extension is among the extra flags as they are read once the
name has been moved, or the name starts with as many zeros. -/
structure ChangelogRemapOk (r : ChangelogRec) (crf : BitVec 16) (want : BitVec 64) : Prop where
  /-- extra flags are kept -/
  kept : r.has clfExtraFlags = true → crf.getLsbD clfExtraFlags = true →
    r.extraFlags &&& clfeSupported &&& ~~~want = 0
  /-- extra flags are added -/
  added : r.has clfExtraFlags = false → crf.getLsbD clfExtraFlags = true →
    ∀ (e : ChangelogExt) k, e.extra = some k → want.getLsbD k = true →
      ∀ i < e.size, r.bytes (e.placeOf crf want + i) = 0
  /-- extra flags are removed -/
  removed : r.has clfExtraFlags = true → crf.getLsbD clfExtraFlags = false →
    ∀ (e : ChangelogExt) k, e.extra = some k → want.getLsbD k = true →
      (changelogMoveName crf want r).cref.getLsbD k = true ∨
        ∀ i < e.size, i < r.namelen → r.bytes (r.name + i) = 0

/-- No field is moved onto one that is still to be moved: extra flags that are kept do not move to
the left, or nothing lands on a kept field in front of it. -/
def RemapUndisturbed (r : ChangelogRec) (crf : BitVec 16) (want : BitVec 64) : Prop :=
  ExtraFlagsStay r crf ∨ SlotsClear (remapSlots r crf want) 64 64

section Result

variable (r crf want)

/-- The bytes after the moves and the clears. -/
def remapBytes : ℕ → BitVec 8 :=
  fillSlots 0 (remapSlots r crf want) 64 (moveSlots (remapSlots r crf want) 64 64 r.bytes)

end Result

open ChangelogRec

/-- The moves do not get in each other's way. -/
theorem changelogSlots_clear (want : BitVec 64)
    (hren : r.has clfRename = true → crf.getLsbD clfRename = true) (hleft : ExtraFlagsStay r crf)
    (hgrow : r.has clfExtraFlags = true → crf.getLsbD clfExtraFlags = true →
      r.extraFlags &&& clfeSupported &&& ~~~want = 0) :
    SlotsClear (remapSlots r crf want) 64 64 := by
  -- the rename extension is not removed, so the jobid does not move to the left
  have hjob : jobidPlace r.flags ≤ jobidPlace crf := by
    rw [jobidPlace, jobidPlace]
    split
    · next hold => rw [if_pos (hren hold)]
    · omega
  refine .cons (fun _ => le_rfl) (.cons (fun _ => hjob) ?_)
  by_cases hboth : r.has clfExtraFlags = true ∧ crf.getLsbD clfExtraFlags = true
  · obtain ⟨hold, hnew⟩ := hboth
    refine SlotsClear.of_grow ?_ (hleft hold hnew)
    have hold' : r.flags.getLsbD clfExtraFlags = true := hold
    have hbit : ∀ k, clfeSupported.getLsbD k = true → r.cref.getLsbD k = true →
        want.getLsbD k = true := by
      intro k hsup hk
      rw [cref, if_pos hold] at hk
      have hz := congrArg (fun x => x.getLsbD k) (hgrow hold hnew)
      simpa [hk, hsup, BitVec.lt_of_getLsbD hk] using hz
    simp only [extraSlots, extraSlot, hold', hnew, Bool.true_and, List.mem_cons, List.not_mem_nil,
      or_false, forall_eq_or_imp, forall_eq]
    exact ⟨fun _ => trivial, hbit _ rfl, hbit _ rfl, hbit _ rfl, hbit _ rfl, fun _ => trivial⟩
  · obtain ⟨hnone, hslot⟩ := extraSlots_not_kept want hboth
    refine .of_none_kept [_, _, _, _, _] ?_ _
    simp only [List.mem_cons, List.not_mem_nil, or_false, forall_eq_or_imp, forall_eq]
    exact ⟨hnone, hslot _ _, hslot _ _, hslot _ _, hslot _ _⟩

namespace RemapUndisturbed

theorem missed (h : RemapUndisturbed r crf want) : ExtraFlagsMissed r crf want := by
  intro hold hnew
  rcases h with hstay | hclear
  · refine .of_le ?_
    have := hstay hold hnew
    rw [uidgidPlace, if_pos hnew]
    omega
  · have hkept : (⟨8, r.flags.getLsbD clfExtraFlags, crf.getLsbD clfExtraFlags⟩ : Slot).kept = true :=
      Bool.and_eq_true_iff.mpr ⟨hold, hnew⟩
    exact hclear.2.2.1 hkept

/-- If no extra extension is lost, all moves are clear. -/
theorem clear (h : RemapUndisturbed r crf want)
    (hren : r.has clfRename = true → crf.getLsbD clfRename = true)
    (hok : ChangelogRemapOk r crf want) : SlotsClear (remapSlots r crf want) 64 64 :=
  h.elim (fun hstay => changelogSlots_clear want hren hstay hok.kept) id

end RemapUndisturbed

theorem remapBytes_new {a d k : ℕ} (hat : SlotAt (remapSlots r crf want) 64 64 f a d)
    (hnew : (f.new && !f.old) = true) (hk : k < f.size) : remapBytes r crf want (d + k) = 0 :=
  fillSlots_new hat hnew hk

/-! ### The flags -/

theorem readU64_writeU64 (b : ℕ → BitVec 8) (a : ℕ) (v : BitVec 64) :
    readU64 (writeU64 b a v) a = v := by
  have hbyte : ∀ k < 8, writeU64 b a v (a + k) = v.extractLsb' (8 * k) 8 := by
    intro k hk
    rw [writeU64, if_pos (by omega), Nat.add_sub_cancel_left]
  have hzero := hbyte 0 (by decide)
  rw [Nat.add_zero] at hzero
  rw [readU64, hbyte 7 (by decide), hbyte 6 (by decide), hbyte 5 (by decide), hbyte 4 (by decide),
    hbyte 3 (by decide), hbyte 2 (by decide), hbyte 1 (by decide), hzero]
  grind

/-- What the last step leaves: the wanted flags, and the bytes except for the extra flags. -/
structure FlagsSet (crf : BitVec 16) (want : BitVec 64) (r r' : ChangelogRec) : Prop where
  flags : r'.flags &&& clfSupported = crf
  namelen : r'.namelen = r.namelen
  extraFlags : crf.getLsbD clfExtraFlags = true →
    r'.extraFlags = readU64 r.bytes (extraFlagsPlace crf) ||| want
  outside : ∀ a, a < extraFlagsPlace crf ∨ extraFlagsPlace crf + 8 ≤ a → r'.bytes a = r.bytes a
  /-- nothing is written if no extra flags are wanted -/
  none : crf.getLsbD clfExtraFlags = false → r'.bytes = r.bytes

theorem extraFlagsPlace_supported (x : BitVec 16) :
    extraFlagsPlace (x &&& clfSupported) = extraFlagsPlace x := by
  simp [jobidPlace, extraFlagsPlace, clf_words]

theorem getLsbD_supported (x : BitVec 16) :
    (x &&& clfSupported).getLsbD clfExtraFlags = x.getLsbD clfExtraFlags := by
  simp [clf_words]

theorem namePlace_supported (x : BitVec 16) (c : BitVec 64) :
    namePlace (x &&& clfSupported) (c &&& clfeSupported) = namePlace x c := by
  simp [namePlace, jobidPlace, extraFlagsPlace, uidgidPlace, nidPlace, openmodePlace, xattrPlace,
    clf_words]

theorem changelogSetFlags_spec (want : BitVec 64) (hcrf : crf &&& clfSupported = crf) :
    FlagsSet crf want r (changelogSetFlags crf want r) := by
  have hsup : ((r.flags &&& clfFlagmask) ||| crf) &&& clfSupported = crf := by
    have hmask : clfFlagmask &&& clfSupported = 0 := by decide
    rw [BitVec.and_or_distrib_right, BitVec.and_assoc, hmask, hcrf]
    simp
  have hplace : extraFlagsPlace ((r.flags &&& clfFlagmask) ||| crf) = extraFlagsPlace crf := by
    rw [← extraFlagsPlace_supported, hsup]
  have hbit : ((r.flags &&& clfFlagmask) ||| crf).getLsbD clfExtraFlags =
      crf.getLsbD clfExtraFlags := by
    rw [← getLsbD_supported, hsup]
  rw [changelogSetFlags]
  generalize (r.flags &&& clfFlagmask) ||| crf = flags at hsup hplace hbit ⊢
  split
  · next hnew =>
    have hnew' : crf.getLsbD clfExtraFlags = true := hbit ▸ hnew
    refine ⟨hsup, rfl, fun _ => ?_, fun a ha => ?_, fun hno => ?_⟩
    · simp only [extraFlags, extraFlagsAt_eq, hplace]
      exact readU64_writeU64 _ _ _
    · simp only [extraFlagsAt_eq, hplace]
      exact if_neg (by omega)
    · rw [hnew'] at hno
      cases hno
  · next hnew =>
    have hnew' : ¬ crf.getLsbD clfExtraFlags = true := hbit ▸ hnew
    exact ⟨hsup, rfl, fun hyes => absurd hyes hnew', fun _ _ => rfl, fun _ => rfl⟩

namespace FlagsSet

variable {r' : ChangelogRec} (h : FlagsSet crf want r r') {e : ChangelogExt} {k : ℕ}
include h

theorem has_extraFlags : r'.has clfExtraFlags = crf.getLsbD clfExtraFlags := by
  rw [has, ← getLsbD_supported, h.flags]

/-- Where the code looks for an extension, if the extra flags come out as wanted. -/
theorem place (hextra : crf.getLsbD clfExtraFlags = true → r'.extraFlags &&& clfeSupported = want)
    (e : ChangelogExt) : e.place r' = e.placeOf crf want := by
  rw [e.place_eq, ← e.placeOf_supported r'.flags, h.flags]
  cases hnew : crf.getLsbD clfExtraFlags with
  | true => rw [cref, if_pos (h.has_extraFlags.trans hnew), hextra hnew]
  | false => exact e.placeOf_of_not_extra hnew _ _

theorem name_eq
    (hextra : crf.getLsbD clfExtraFlags = true → r'.extraFlags &&& clfeSupported = want) :
    r'.name = namePlace crf want := by
  rw [r'.name_eq, ← namePlace_supported, h.flags]
  cases hnew : crf.getLsbD clfExtraFlags with
  | true => rw [cref, if_pos (h.has_extraFlags.trans hnew), hextra hnew]
  | false => simp [namePlace, xattrPlace, openmodePlace, nidPlace, hnew]

theorem ext_bytes (he : e.has crf want = true) (hk : k < e.size) :
    r'.bytes (e.placeOf crf want + k) = r.bytes (e.placeOf crf want + k) := by
  refine h.outside _ ?_
  rcases e.outside he with hlt | hge
  · left
    omega
  · right
    omega

theorem name_bytes (k : ℕ) :
    r'.bytes (namePlace crf want + k) = r.bytes (namePlace crf want + k) := by
  cases hnew : crf.getLsbD clfExtraFlags with
  | true =>
    refine h.outside _ (.inr ?_)
    exact Nat.le_trans (extraFlagsPlace_add_le want hnew) (Nat.le_add_right _ _)
  | false => rw [h.none hnew]

end FlagsSet

/-! ### The result -/

/-- What a remap is for: the record `r'` has the wanted extensions of `r`, the new ones zero, and
the same name. -/
structure ChangelogRemapped (r : ChangelogRec) (crf : BitVec 16) (want : BitVec 64)
    (r' : ChangelogRec) : Prop where
  /-- `cr_flags` names the wanted extensions -/
  flags : r'.flags &&& clfSupported = crf &&& clfSupported
  /-- `cr_extra_flags` names the wanted extra extensions -/
  extraFlags : crf.getLsbD clfExtraFlags = true →
    r'.extraFlags &&& clfeSupported = want &&& clfeSupported
  /-- an extension that is there before and after keeps its value -/
  kept : ∀ e : ChangelogExt, e.has r.flags r.cref = true → e.has crf want = true →
    ∀ k < e.size, r'.bytes (e.place r' + k) = r.bytes (e.place r + k)
  /-- an extension that is new is zero -/
  added : ∀ e : ChangelogExt, e.has r.flags r.cref = false → e.has crf want = true →
    ∀ k < e.size, r'.bytes (e.place r' + k) = 0
  /-- the name has its length -/
  namelen : r'.namelen = r.namelen
  /-- and its bytes -/
  name : ∀ k < r.namelen, r'.bytes (r'.name + k) = r.bytes (r.name + k)

/-- A record that has the wanted flags is left alone. -/
theorem ChangelogRemapped.refl (hflags : r.flags &&& clfSupported = crf &&& clfSupported)
    (hextra : ¬ r.has clfExtraFlags = true ∨
      r.extraFlags &&& clfeSupported = want &&& clfeSupported) :
    ChangelogRemapped r crf want r := by
  have hbit : r.flags.getLsbD clfExtraFlags = crf.getLsbD clfExtraFlags := by
    rw [← getLsbD_supported, hflags, getLsbD_supported]
  have hsame : ∀ e : ChangelogExt, e.has r.flags r.cref = e.has crf want := by
    intro e
    rw [← e.has_supported r.flags, hflags]
    rcases Bool.eq_false_or_eq_true (r.has clfExtraFlags) with hyes | hno
    · rw [cref, if_pos hyes, hextra.resolve_left (fun hno => hno hyes),
        e.has_supported]
    · have hno' : (crf &&& clfSupported).getLsbD clfExtraFlags = false := by
        rw [getLsbD_supported, ← hbit]
        exact hno
      rw [e.has_of_not_extra hno' _ (want &&& clfeSupported), e.has_supported]
  refine ⟨hflags, fun hnew => ?_, fun _ _ _ _ _ => rfl, fun e hold hnew => ?_, rfl, fun _ _ => rfl⟩
  · exact hextra.resolve_left (fun hno => hno (hbit.trans hnew))
  · rw [hsame e, hnew] at hold
    cases hold

/-- The record when its flags are updated. -/
def remapMoved (r : ChangelogRec) (crf : BitVec 16) (want : BitVec 64) : ChangelogRec :=
  let r1 := changelogMoveName crf want r
  changelogClears crf want r1.cref (changelogMoves crf want r1.cref r1)

/-- The record after the moves and the clears, up to the end of the name. Where extra flags are
added or removed, the code does not clear what `remapBytes` does, and it makes no difference only
where a wanted extra extension is read as one that was there, or is zero. -/
theorem remapMoved_bytes (hmissed : ExtraFlagsMissed r crf want)
    (hgap : r.has clfExtraFlags ≠ crf.getLsbD clfExtraFlags →
      ∀ (e : ChangelogExt) k, e.extra = some k → want.getLsbD k = true →
        crf.getLsbD clfExtraFlags = false ∧
            (changelogMoveName crf want r).cref.getLsbD k = true ∨
          ∀ a < namePlace crf want + r.namelen, e.placeOf crf want ≤ a →
            a < e.placeOf crf want + e.size →
              moveSlots (remapSlots r crf want) 64 64 r.bytes a = 0) :
    (remapMoved r crf want).namelen = r.namelen ∧
      ∀ a < namePlace crf want + r.namelen,
        (remapMoved r crf want).bytes a = remapBytes r crf want a := by
  have hname := changelogMoveName_moved r crf want
  have hmoved := changelogMoves_moved hmissed
  rw [remapMoved]
  generalize changelogMoveName crf want r = r1 at hname hmoved hgap ⊢
  generalize changelogMoves crf want r1.cref r1 = r2 at hmoved ⊢
  have hext : ∀ e : ChangelogExt,
      e.cleared crf want r1.cref r2 = (e.has crf want && !e.has r2.flags r.cref) ∨
      ∀ a < namePlace crf want + r.namelen, e.placeOf crf want ≤ a →
        a < e.placeOf crf want + e.size → r2.bytes a = 0 := by
    intro e
    rw [ChangelogExt.cleared, hmoved.has, hmoved.flags, hmoved.bytes]
    split
    · next he => cases e <;> cases he <;> exact .inl rfl
    · next k he =>
      have hold' : r.flags.getLsbD clfExtraFlags = r.has clfExtraFlags := rfl
      rw [e.has_extra he, e.has_extra he, hold']
      cases hk : want.getLsbD k with
      | false => exact .inl (by simp)
      | true =>
        by_cases hne : r.has clfExtraFlags = crf.getLsbD clfExtraFlags
        · left
          rw [← hne]
          cases hold : r.has clfExtraFlags with
          | false => simp
          | true =>
            obtain ⟨-, -, -, -, hlast, -⟩ := hmissed hold (hne ▸ hold)
            rw [hname.cref ⟨hlast, trivial⟩]
            simp
        · refine (hgap hne e k he hk).imp_left fun hread => ?_
          simp [hread.1, hread.2]
  refine ⟨?_, fun a ha => ?_⟩
  · simp only [changelogClears, clear_same, hmoved.namelen]
  · rw [changelogClears_eq r.namelen hext ha, hmoved.flags, hmoved.bytes]
    rfl

/-- What is in front of the name and behind the extra flags is not written, unless extra flags are
kept. -/
theorem moveSlots_gap {a : ℕ}
    (hboth : ¬ (r.has clfExtraFlags = true ∧ crf.getLsbD clfExtraFlags = true))
    (hlo : uidgidPlace crf ≤ a) (hhi : a < namePlace crf want) :
    moveSlots (remapSlots r crf want) 64 64 r.bytes a = r.bytes a := by
  obtain ⟨hnone, hslot⟩ := extraSlots_not_kept want hboth
  have hjob : jobidPlace crf ≤ a := by
    rw [uidgidPlace, extraFlagsPlace] at hlo
    omega
  have hmiss : SlotsMiss a (a + 1) (remapSlots r crf want) 64 := by
    refine ⟨fun hkept => .inl ?_, fun hkept => .inl ?_, fun hkept => absurd hkept ?_,
      fun hkept => absurd hkept ?_, fun hkept => absurd hkept ?_, fun hkept => absurd hkept ?_,
      fun hkept => absurd hkept ?_, fun _ => .inr hhi, trivial⟩
    · have hnew : crf.getLsbD clfRename = true := (Bool.and_eq_true_iff.mp hkept).2
      rwa [jobidPlace, if_pos hnew] at hjob
    · have hnew : crf.getLsbD clfJobid = true := (Bool.and_eq_true_iff.mp hkept).2
      rw [uidgidPlace, extraFlagsPlace, if_pos hnew] at hlo
      exact Nat.le_trans (Nat.le_add_right _ _) hlo
    · exact Bool.eq_false_iff.mp hnone
    all_goals exact Bool.eq_false_iff.mp (hslot _ _)
  exact moveSlots_of_miss hmiss le_rfl (Nat.lt_succ_self a)

/-- The extra flags of the remapped record, before the wanted ones are added. -/
theorem readU64_remapBytes (hmissed : ExtraFlagsMissed r crf want)
    (hnew : crf.getLsbD clfExtraFlags = true) :
    readU64 (remapBytes r crf want) (extraFlagsPlace crf) = r.cref := by
  have hat : SlotAt (remapSlots r crf want) 64 64
      ⟨8, r.flags.getLsbD clfExtraFlags, crf.getLsbD clfExtraFlags⟩ (extraFlagsPlace r.flags)
      (extraFlagsPlace crf) := .tail (.tail (.head _ _ _ _))
  rw [cref]
  split
  · next hold =>
    rw [extraFlags, r.extraFlagsAt_eq]
    have hkept : (⟨8, r.flags.getLsbD clfExtraFlags, crf.getLsbD clfExtraFlags⟩ : Slot).kept =
        true := Bool.and_eq_true_iff.mpr ⟨hold, hnew⟩
    refine readU64_congr fun k hk => ?_
    rw [remapBytes, fillSlots_kept hat hkept hk]
    -- the rename extension and the jobid are moved last, and land in front
    calc moveSlots (remapSlots r crf want) 64 64 r.bytes (extraFlagsPlace crf + k)
      _ = moveSlots _ (jobidPlace r.flags) (jobidPlace crf) r.bytes (extraFlagsPlace crf + k) :=
        moveSlots_tail (Nat.le_trans (Nat.le_add_right _ _) (Nat.le_add_right _ _))
      _ = moveSlots _ (extraFlagsPlace r.flags) (extraFlagsPlace crf) r.bytes
          (extraFlagsPlace crf + k) := moveSlots_tail (Nat.le_add_right _ _)
      _ = r.bytes (extraFlagsPlace r.flags + k) := moveSlots_head hkept (hmissed hold hnew) hk
  · next hold =>
    have hold' : ¬ r.flags.getLsbD clfExtraFlags = true := hold
    have hzero : ∀ k < 8, remapBytes r crf want (extraFlagsPlace crf + k) =
        (fun _ => 0) (extraFlagsPlace crf + k) := by
      intro k hk
      exact remapBytes_new hat (by simp [hold', hnew]) hk
    rw [readU64_congr (c := fun _ => 0) (y := extraFlagsPlace crf) hzero, readU64]
    decide

/-- They are read where the bytes are right up to the end of the name. -/
theorem readU64_of_bytes {b : ℕ → BitVec 8} (hmissed : ExtraFlagsMissed r crf want)
    (hnew : crf.getLsbD clfExtraFlags = true)
    (hbytes : ∀ a < namePlace crf want + r.namelen, b a = remapBytes r crf want a) :
    readU64 b (extraFlagsPlace crf) = r.cref := by
  rw [← readU64_remapBytes hmissed hnew]
  have hle := extraFlagsPlace_add_le want hnew
  exact readU64_congr fun k hk => hbytes _ (by omega)

/-- If the extra flags come out right, or-ing the wanted ones has lost none. -/
theorem or_supported_iff {x want : BitVec 64} (hwant : want &&& clfeSupported = want) :
    (x ||| want) &&& clfeSupported = want ↔ x &&& clfeSupported &&& ~~~want = 0 := by
  rw [BitVec.and_or_distrib_right, hwant]
  constructor
  all_goals
    intro h
    ext k hk
    have hbit := congrArg (·[k]) h
    simp at hbit ⊢
    grind

theorem remapSlots_name (r : ChangelogRec) (crf : BitVec 16) (want : BitVec 64) :
    SlotAt (remapSlots r crf want) 64 64 ⟨r.namelen, true, true⟩ (namePlace r.flags r.cref)
      (namePlace crf want) :=
  .tail (.tail (.tail (.tail (.tail (.tail (.tail (.head _ _ _ _)))))))

section Moves

variable {crf : BitVec 16} {want : BitVec 64} (hcrf : crf &&& clfSupported = crf)
  (hwant : want &&& clfeSupported = want) (hund : RemapUndisturbed r crf want)
include hund

/-- Where the condition is met, the record is as it should be. -/
theorem ChangelogRemapOk.bytes (hok : ChangelogRemapOk r crf want)
    (hren : r.has clfRename = true → crf.getLsbD clfRename = true) :
    (remapMoved r crf want).namelen = r.namelen ∧
      ∀ a < namePlace crf want + r.namelen,
        (remapMoved r crf want).bytes a = remapBytes r crf want a := by
  refine remapMoved_bytes hund.missed fun hne e k he hk => ?_
  cases hnew : crf.getLsbD clfExtraFlags with
  | true =>
    -- extra flags are added: the extension is made of bytes that are not written
    have hold : r.has clfExtraFlags = false := by
      rw [hnew] at hne
      exact Bool.eq_false_iff.mpr hne
    refine .inr fun a _ hlo hhi => ?_
    have hend := e.end_le ((e.has_extra he want).trans (by rw [hnew, hk]; rfl))
    rw [moveSlots_gap (fun hboth => hne (hboth.1.trans hboth.2.symm))
      (Nat.le_trans (e.uidgidPlace_le he want) hlo) (Nat.lt_of_lt_of_le hhi hend)]
    obtain ⟨i, rfl⟩ := Nat.exists_eq_add_of_le hlo
    exact hok.added hold hnew e k he hk i (Nat.lt_of_add_lt_add_left hhi)
  | false =>
    -- extra flags are removed: the extension is where the name starts
    have hold : r.has clfExtraFlags = true := by
      rw [hnew] at hne
      exact Bool.not_eq_false _ ▸ hne
    refine (hok.removed hold hnew e k he hk).imp (fun hread => ⟨rfl, hread⟩)
      fun hzero a ha hlo hhi => ?_
    rw [e.placeOf_eq_namePlace he hnew] at hlo hhi
    obtain ⟨i, rfl⟩ := Nat.exists_eq_add_of_le hlo
    have hi := Nat.lt_of_add_lt_add_left ha
    rw [moveSlots_kept (hund.clear hren hok) (remapSlots_name r crf want) rfl hi, ← r.name_eq]
    exact hzero i (Nat.lt_of_add_lt_add_left hhi) hi

include hcrf hwant

/-- And where it is not, the record comes out wrong. -/
theorem ChangelogRemapped.ok
    (h : ChangelogRemapped r crf want (changelogSetFlags crf want (remapMoved r crf want))) :
    ChangelogRemapOk r crf want := by
  have hset := changelogSetFlags_spec (r := remapMoved r crf want) want hcrf
  generalize changelogSetFlags crf want (remapMoved r crf want) = r' at hset h
  have hextra : crf.getLsbD clfExtraFlags = true → r'.extraFlags &&& clfeSupported = want :=
    fun hnew => (h.extraFlags hnew).trans hwant
  have hmoved := changelogMoves_moved hund.missed
  refine ⟨fun hold hnew => ?_, fun hold hnew e k he hk i hi => ?_, fun hold hnew e k he hk => ?_⟩
  · -- the extra flags are the old ones with the wanted ones
    have hbytes := (remapMoved_bytes hund.missed fun hne => absurd (hold.trans hnew.symm) hne).2
    have hflags := hextra hnew
    rwa [hset.extraFlags hnew, readU64_of_bytes hund.missed hnew hbytes, or_supported_iff hwant, cref,
      if_pos hold] at hflags
  · -- what becomes the extension is neither moved nor cleared
    have hhas : e.has crf want = true := (e.has_extra he want).trans (by rw [hnew, hk]; rfl)
    have hno : e.has r.flags r.cref = false := by
      have hold' : r.flags.getLsbD clfExtraFlags = false := hold
      rw [e.has_extra he, hold']
      rfl
    have hlo : uidgidPlace crf ≤ e.placeOf crf want + i :=
      Nat.le_trans (e.uidgidPlace_le he want) (Nat.le_add_right _ i)
    have hzero := h.added e hno hhas i hi
    rw [hset.place hextra e, hset.ext_bytes hhas hi, remapMoved,
      changelogClears_frame _ ((hmoved.has _).trans hold) hlo, hmoved.bytes] at hzero
    rwa [← moveSlots_gap (fun hboth => absurd hboth.1 (by simp [hold])) hlo
      (Nat.lt_of_lt_of_le (Nat.add_lt_add_left hi _) (e.end_le hhas))]
  · -- the name is cleared where the extension would be
    refine or_iff_not_imp_left.mpr fun hread i hi hin => ?_
    have hname := h.name i hin
    rw [← hname, hset.name_eq hextra, hset.name_bytes, ← e.placeOf_eq_namePlace he hnew]
    refine (changelogClears_bytes _ crf want _ _).1 (.inl ⟨e, ?_, Nat.le_add_right _ _, ?_⟩)
    · simp [ChangelogExt.cleared, he, hmoved.has, hold, hk, hread]
    · exact Nat.add_lt_add_left hi _

end Moves

end Lustre
