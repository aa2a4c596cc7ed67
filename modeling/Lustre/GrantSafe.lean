import Lustre.Grant
import Mathlib.Algebra.Order.BigOperators.Group.Finset

/-!
# No grant counter goes below zero

Claims of a client reach the counters through a few functions, and most of them are cut to
what the target has granted: dropped grant, used grant and dirty data. What is not cut is
the amount of a shrink request, and dirty data of an old client is inflated after its sign
was checked. Where neither is out of range, the totals are the sums of the counters without
a wrap-around, the counters stay small, and no `LBUG` or `LASSERT` fires (`grant_safe`). One
shrink request of more than the grant leaves `ted_grant` negative, and the next request is
an `LBUG` (`grant_shrunk_below_zero`).

`Sound` is the invariant as a request of one export sees it. `Room` says that what is left
of the free space fits on top of what is granted.
-/

namespace Lustre

open Finset (add_sum_erase mem_univ sum_eq_zero)
open Fintype (card)

/-! ## Words that are small -/

theorem toInt_eq_toNat {v : U64} (h : v.toNat < 2 ^ 63) : v.toInt = v.toNat :=
  BitVec.toInt_eq_toNat_of_lt (by omega)

theorem toInt_nonneg {v : U64} (h : v.toNat < 2 ^ 63) : 0 ≤ v.toInt := by
  rw [toInt_eq_toNat h]
  exact Int.natCast_nonneg _

theorem toNat_lt_of_toInt_nonneg {v : U64} (h : 0 ≤ v.toInt) : v.toNat < 2 ^ 63 := by
  rw [BitVec.toInt_eq_toNat_cond] at h
  split at h <;> omega

theorem toNat_blksize (lut : GrantTarget) : (blksize lut).toNat = 2 ^ lut.tgdBlockbits := by
  have hlt : 2 ^ lut.tgdBlockbits < 2 ^ 64 :=
    Nat.pow_lt_pow_right one_lt_two (by have := lut.tgdBlockbits_lt; omega)
  rw [blksize, BitVec.toNat_shiftLeft, Nat.shiftLeft_eq]
  exact (congrArg (· % 2 ^ 64) (one_mul _)).trans (Nat.mod_eq_of_lt hlt)

theorem toNat_and_le (v w : U64) : (v &&& w).toNat ≤ v.toNat := by
  exact Nat.and_le_left

/-- A total of which one part changes, where the rest as a word stays and nothing wraps around. -/
theorem toNat_eq_of_sub_eq {a b c d : U64} {o : ℕ} (h : b - d = a - c) (ha : a.toNat = o + c.toNat)
    (hlt : o + d.toNat < 2 ^ 64) : b.toNat = o + d.toNat := by
  have hsub := congrArg BitVec.toNat h
  rw [BitVec.toNat_sub, BitVec.toNat_sub] at hsub
  omega

/-! ## The counters of one export -/

open BitVec (toNat_add toNat_add_of_lt le_def toNat_sub_of_le toNat_udiv toNat_mul lt_def ofNat)

namespace GrantView

/-- The counters of an export beside others that hold `others.1` of `tgd_tot_granted`,
`others.2.1` of `tgd_tot_pending` and `others.2.2` of `tgd_tot_dirty`. No request has a chunk
above `most`. -/
structure Sound (most : ℕ) (others : ℕ × ℕ × ℕ) (x : GrantView) : Prop where
  granted : x.tgd.tgdTotGranted.toNat = others.1 + (x.ted.tedGrant.toNat + x.ted.tedPending.toNat)
  pending : x.tgd.tgdTotPending.toNat = others.2.1 + x.ted.tedPending.toNat
  dirty : x.tgd.tgdTotDirty.toNat = others.2.2 + x.ted.tedDirty.toNat
  /-- the space granted is less than the sign allows -/
  small : x.tgd.tgdTotGranted.toNat < 2 ^ 63
  /-- an export has not much more than `OBD_MAX_GRANT` -/
  grant_le : x.ted.tedGrant.toNat ≤ 2 ^ 31 + most
  dirty_le : x.ted.tedDirty.toNat ≤ 2 ^ 31 + 5 * most
  others_le : others.2.1 ≤ others.1
  dirty_fits : others.2.2 + (2 ^ 31 + 5 * most) < 2 ^ 63

variable {most : ℕ} {others : ℕ × ℕ × ℕ} {x : GrantView}

namespace Sound

section

variable (h : Sound most others x)
include h

theorem grant_lt : x.ted.tedGrant.toNat < 2 ^ 63 := by
  have := h.granted
  have := h.small
  omega

theorem pending_lt : x.ted.tedPending.toNat < 2 ^ 63 := by
  have := h.granted
  have := h.small
  omega

theorem dirty_lt : x.ted.tedDirty.toNat < 2 ^ 63 := by
  have := h.dirty_le
  have := h.dirty_fits
  omega

theorem not_isBad : x.isBad = false := by
  have hdirty := toInt_nonneg h.dirty_lt
  have hgrant := toInt_nonneg h.grant_lt
  have hpending := toInt_nonneg h.pending_lt
  simp only [isBad, Bool.or_eq_false_iff, decide_eq_false_iff_not, not_lt]
  exact ⟨⟨hdirty, hgrant⟩, hpending⟩

/-! ### The postings -/

/-- Every posting: the totals change as the counters of the export do, and nothing wraps around. -/
theorem post {y : GrantView} (hsame : SameOthers x y)
    (hfits : others.1 + (y.ted.tedGrant.toNat + y.ted.tedPending.toNat) < 2 ^ 63)
    (hgrant : y.ted.tedGrant.toNat ≤ 2 ^ 31 + most)
    (hdirty : y.ted.tedDirty.toNat ≤ 2 ^ 31 + 5 * most) : Sound most others y := by
  have hothers := h.others_le
  have hdirty_fits := h.dirty_fits
  have hgranted := h.granted
  have hx := toNat_add_of_lt (x := x.ted.tedGrant) (y := x.ted.tedPending) (by omega)
  have hy := toNat_add_of_lt (x := y.ted.tedGrant) (y := y.ted.tedPending) (by omega)
  have htotal := toNat_eq_of_sub_eq hsame.granted (hx ▸ hgranted) (by omega)
  rw [hy] at htotal
  refine ⟨htotal, ?_, ?_, htotal ▸ hfits, hgrant, hdirty, hothers, hdirty_fits⟩
  · exact toNat_eq_of_sub_eq hsame.pending h.pending (by omega)
  · exact toNat_eq_of_sub_eq hsame.dirty h.dirty (by omega)

theorem setDirty {dirty : U64}
    (hdirty : dirty.toNat ≤ 2 ^ 31 + 5 * most) : Sound most others (x.setDirty dirty) :=
  h.post (sameOthers_setDirty x dirty) (h.granted ▸ h.small) h.grant_le hdirty

theorem clean {amount : U64} (hle : amount ≤ x.ted.tedDirty) :
    Sound most others (x.clean amount) := by
  have hted : (x.clean amount).ted.tedDirty.toNat = x.ted.tedDirty.toNat - amount.toNat :=
    toNat_sub_of_le hle
  refine h.post (sameOthers_clean x amount) (h.granted ▸ h.small) h.grant_le ?_
  rw [hted]
  exact (Nat.sub_le _ _).trans h.dirty_le

theorem giveBack {amount : U64} (hle : amount ≤ x.ted.tedGrant) :
    Sound most others (x.giveBack amount) := by
  have hted : (x.giveBack amount).ted.tedGrant.toNat = x.ted.tedGrant.toNat - amount.toNat :=
    toNat_sub_of_le hle
  refine h.post (sameOthers_giveBack x amount) ?_ ?_ h.dirty_le
  · have htot := h.granted
    have hsmall := h.small
    change _ + (_ + x.ted.tedPending.toNat) < _
    omega
  · rw [hted]
    exact (Nat.sub_le _ _).trans h.grant_le

/-- The grant of the export changes to `target`, up or down. -/
theorem grant (amount : U64) {target : ℕ}
    (htarget : (x.ted.tedGrant + amount).toNat = target) (hle : target ≤ 2 ^ 31 + most)
    (hroom : x.tgd.tgdTotGranted.toNat + target < 2 ^ 63 + x.ted.tedGrant.toNat) :
    Sound most others (x.grant amount) := by
  have hted : (x.grant amount).ted.tedGrant.toNat = target := htarget
  refine h.post (sameOthers_grant x amount) ?_ (hted.le.trans hle) h.dirty_le
  have htot := h.granted
  change _ + (_ + x.ted.tedPending.toNat) < _
  omega

theorem reserve {granted ungranted : U64} (hle : granted ≤ x.ted.tedGrant)
    (hroom : x.tgd.tgdTotGranted.toNat + ungranted.toNat < 2 ^ 63) :
    Sound most others (x.reserve granted ungranted) := by
  have hnat := le_def.mp hle
  have htot := h.granted
  have hgrant : (x.reserve granted ungranted).ted.tedGrant.toNat =
      x.ted.tedGrant.toNat - granted.toNat := toNat_sub_of_le hle
  have hpending : (x.reserve granted ungranted).ted.tedPending.toNat =
      x.ted.tedPending.toNat + (granted.toNat + ungranted.toNat) := by
    change (x.ted.tedPending + (granted + ungranted)).toNat = _
    rw [toNat_add, toNat_add]
    omega
  refine h.post (sameOthers_reserve x granted ungranted) ?_ ?_ h.dirty_le
  · omega
  · rw [hgrant]
    exact (Nat.sub_le _ _).trans h.grant_le

theorem release {pending : U64}
    (hle : pending ≤ x.ted.tedPending) : Sound most others (x.release pending) := by
  have hted : (x.release pending).ted.tedPending.toNat =
      x.ted.tedPending.toNat - pending.toNat := toNat_sub_of_le hle
  refine h.post (sameOthers_release x pending) ?_ h.grant_le h.dirty_le
  have htot := h.granted
  have hsmall := h.small
  change _ + (x.ted.tedGrant.toNat + _) < _
  omega

end

end Sound

end GrantView

/-! ## The free space -/

/-- What is left of the free space, and a block more, fits on top of what is granted. -/
def Room (lut : GrantTarget) (tgd : TgGrantsData) (left : U64) : Prop :=
  left.toNat = 0 ∨ tgd.tgdTotGranted.toNat + left.toNat + 2 ^ lut.tgdBlockbits ≤ 2 ^ 63

/-- The free space of the device is less than the sign allows. -/
def SaneStatfs (lut : GrantTarget) (osBavail : U64) : Prop :=
  osBavail.toNat * 2 ^ lut.tgdBlockbits + 2 ^ lut.tgdBlockbits ≤ 2 ^ 63
  deriving Decidable

variable {left : U64} {ted : TgExportData} {oa : Obdo} {t : GrantTally}

section Parts

open GrantView

variable {lut : GrantTarget} {env : GrantEnv} {most : ℕ} {others : ℕ × ℕ × ℕ} {x : GrantView}

theorem Room.mono {tgd tgd' : TgGrantsData} (h : Room lut tgd left)
    (hle : tgd'.tgdTotGranted.toNat ≤ tgd.tgdTotGranted.toNat) : Room lut tgd' left :=
  h.imp_right fun hroom => by omega

theorem Room.reserve_lt (h : Room lut x.tgd left) (ungranted : U64)
    (hsmall : x.tgd.tgdTotGranted.toNat < 2 ^ 63) (hle : ungranted.toNat ≤ left.toNat) :
    x.tgd.tgdTotGranted.toNat + ungranted.toNat < 2 ^ 63 := by
  have hblk := Nat.two_pow_pos lut.tgdBlockbits
  rcases h with h | h <;> omega

/-- What is taken from the free space is granted. -/
theorem Room.reserve {left left' granted ungranted : U64} (h : Room lut x.tgd left)
    (hsmall : x.tgd.tgdTotGranted.toNat < 2 ^ 63)
    (hleft : ungranted.toNat + left'.toNat = left.toNat) :
    Room lut (x.reserve granted ungranted).tgd left' := by
  have hlt := h.reserve_lt ungranted hsmall (by omega)
  have htotal : (x.reserve granted ungranted).tgd.tgdTotGranted.toNat =
      x.tgd.tgdTotGranted.toNat + ungranted.toNat := toNat_add_of_lt (by omega)
  rcases h with h | h
  · exact .inl (by omega)
  · refine .inr ?_
    omega

theorem room_spaceLeft (env : GrantEnv) (hsmall : x.tgd.tgdTotGranted.toNat < 2 ^ 63)
    (hstatfs : SaneStatfs lut x.tgd.osBavail) :
    Room lut x.tgd (tgtGrantSpaceLeft lut env x.tgd) := by
  have hblk := Nat.two_pow_pos lut.tgdBlockbits
  have hleft : (x.tgd.osBavail <<< lut.tgdBlockbits).toNat =
      x.tgd.osBavail.toNat * 2 ^ lut.tgdBlockbits := by
    rw [BitVec.toNat_shiftLeft, Nat.shiftLeft_eq]
    rw [SaneStatfs] at hstatfs
    omega
  rw [tgtGrantSpaceLeft]
  generalize x.tgd.osBavail <<< lut.tgdBlockbits = left at hleft ⊢
  -- the reserved space is too small to wrap around
  have hreserved : (left * env.tgdReservedPcnt / 100).toNat < 2 ^ 63 := by
    change _ / 100 < _
    omega
  generalize left * env.tgdReservedPcnt / 100 = reserved at hreserved ⊢
  split
  · exact .inl rfl
  · next hge =>
    refine .inr ?_
    have hand := toNat_and_le (left - (x.tgd.tgdTotGranted + reserved)) (~~~(blksize lut - 1))
    have hsub := toNat_sub_of_le (BitVec.not_lt.mp hge)
    have hge' := le_def.mp (BitVec.not_lt.mp hge)
    rw [toNat_add] at hsub hge'
    rw [SaneStatfs] at hstatfs
    omega

/-! ## The parts of a request -/

theorem believedDropped_le (hgrant : x.ted.tedGrant.toNat < 2 ^ 63) (oa : Obdo) :
    believedDropped oa x ≤ x.ted.tedGrant := by
  have hzero : (0 : U64) ≤ x.ted.tedGrant := le_def.mpr (Nat.zero_le _)
  have hdropped : (oa.oDropped.setWidth 64).toNat < 2 ^ 63 := by
    rw [BitVec.toNat_setWidth]
    omega
  rw [believedDropped]
  split
  · exact hzero
  · split
    · exact hzero
    · next hge _ =>
      rw [toInt_eq_toNat hgrant, toInt_eq_toNat hdropped] at hge
      exact le_def.mpr (by omega)

theorem believedDirty_le (h : Sound most others x) {chunk : U64}
    (hchunk : chunk.toNat ≤ most) (hdirty : 0 ≤ oa.oDirty.toInt) :
    (believedDirty oa chunk x.ted).toNat ≤ 2 ^ 31 + 5 * most := by
  have hgrant := h.grant_le
  have hfits := h.dirty_fits
  have hmost : (x.ted.tedGrant + 4 * chunk).toNat = x.ted.tedGrant.toNat + 4 * chunk.toNat := by
    change (_ + 4 * _ % _) % _ = _
    omega
  have hmost_lt : (x.ted.tedGrant + 4 * chunk).toNat < 2 ^ 63 := by omega
  rw [believedDirty]
  split
  · omega
  · next hge =>
    rw [toInt_eq_toNat hmost_lt, toInt_eq_toNat (toNat_lt_of_toInt_nonneg hdirty)] at hge
    omega

/-- The counters `y` after a part of a request that found `x` and made `amount` pending. -/
structure GrantAfter (most : ℕ) (others : ℕ × ℕ × ℕ) (x : GrantView) (amount : ℕ) (y : GrantView) :
    Prop where
  sound : Sound most others y
  osBavail : y.tgd.osBavail = x.tgd.osBavail
  pending : y.ted.tedPending.toNat = x.ted.tedPending.toNat + amount

theorem GrantAfter.refl (h : Sound most others x) : GrantAfter most others x 0 x := ⟨h, rfl, rfl⟩

theorem GrantAfter.trans {y z : GrantView} {a b : ℕ} (hxy : GrantAfter most others x a y)
    (hyz : GrantAfter most others y b z) : GrantAfter most others x (a + b) z where
  sound := hyz.sound
  osBavail := hyz.osBavail.trans hxy.osBavail
  pending := by rw [hyz.pending, hxy.pending, add_assoc]

/-- The dirty data that an `obdo` claims is not negative, also when it has been inflated. -/
def DirtyFits (lut : GrantTarget) (env : GrantEnv) (oa : Obdo) : Prop :=
  oa.flBlocks = true → oa.flGrant = true → 0 ≤ (obdoClaims lut env oa).oDirty.toInt
  deriving Decidable

theorem tgtGrantIncoming_sound (h : Sound most others x) {chunk : U64}
    (hchunk : chunk.toNat ≤ most) (hdirty : DirtyFits lut env oa) :
    ∃ r, tgtGrantIncoming lut env oa chunk x = some r ∧ GrantAfter most others x 0 r.2 ∧
      r.2.tgd.tgdTotGranted.toNat ≤ x.tgd.tgdTotGranted.toNat := by
  rw [tgtGrantIncoming]
  split
  · next hvalid =>
    rw [Bool.and_eq_true] at hvalid
    have hset := h.setDirty (believedDirty_le h hchunk (hdirty hvalid.1 hvalid.2))
    have hdropped := believedDropped_le h.grant_lt (obdoClaims lut env oa)
    have hsound := hset.giveBack hdropped
    dsimp only
    rw [hsound.not_isBad]
    refine ⟨_, rfl, ⟨hsound, rfl, rfl⟩, ?_⟩
    have hle : believedDropped (obdoClaims lut env oa) x ≤ x.tgd.tgdTotGranted := by
      have hnat := le_def.mp hdropped
      have htot := h.granted
      exact le_def.mpr (by omega)
    change (x.tgd.tgdTotGranted - _).toNat ≤ _
    rw [toNat_sub_of_le hle]
    exact Nat.sub_le _ _
  · exact ⟨_, rfl, .refl h, le_rfl⟩

/-- What the sums of `tgt_grant_check` come from: the export's grant, and `left`. -/
structure TallyFits (ted : TgExportData) (left : U64) (t : GrantTally) : Prop where
  granted : t.granted ≤ ted.tedGrant
  ungranted : t.ungranted.toNat + t.left.toNat = left.toNat

theorem grantClaim_fits (oa : Obdo) (ted : TgExportData) (left : U64) :
    TallyFits ted left (grantClaim env oa ted left).2 := by
  have hnone : TallyFits ted left ⟨0, 0, left⟩ :=
    ⟨le_def.mpr (Nat.zero_le _), zero_add _⟩
  rw [grantClaim]
  split
  · exact hnone
  split
  · exact hnone
  split
  · split
    · next hle => exact ⟨hle, zero_add _⟩
    · dsimp only
      split
      · next hlt =>
        refine ⟨le_def.mpr le_rfl, ?_⟩
        have hnat := lt_def.mp hlt
        rw [toNat_sub_of_le (le_def.mpr hnat.le)]
        exact Nat.add_sub_cancel' hnat.le
      · exact hnone
  · exact hnone

theorem grantServer_fits (h : TallyFits ted left t) (rnb : NiobufRemote) :
    TallyFits ted left (grantServer lut t rnb).1 := by
  rw [grantServer]
  split
  · next hlt =>
    have hnat := lt_def.mp hlt
    have hsum := h.ungranted
    refine ⟨h.granted, ?_⟩
    rw [toNat_sub_of_le (le_def.mpr hnat.le), toNat_add]
    omega
  · exact h

theorem grantBuffer_fits {skip : Bool} (h : TallyFits ted left t) (rnb : NiobufRemote) :
    TallyFits ted left (grantBuffer lut env ted skip t rnb).1 := by
  rw [grantBuffer]
  split
  · split
    · exact h
    · dsimp only
      split
      · next hle => exact ⟨hle, h.ungranted⟩
      · exact grantServer_fits h rnb
  · exact grantServer_fits h rnb

theorem grantBuffers_fits {skip : Bool} (rnbs : List NiobufRemote) (h : TallyFits ted left t) :
    TallyFits ted left (grantBuffers lut env ted skip t rnbs).1 := by
  induction rnbs generalizing t with
  | nil => exact h
  | cons rnb rest ih => exact ih (grantBuffer_fits h rnb)

theorem cleanedDirty_le (ted : TgExportData) (granted : U64) :
    cleanedDirty ted granted ≤ ted.tedDirty := by
  rw [cleanedDirty]
  split
  · exact le_def.mpr le_rfl
  · next hge => exact BitVec.not_lt.mp hge

theorem GrantAfter.reserve (h : Sound most others x) {granted ungranted : U64}
    (hle : granted ≤ x.ted.tedGrant)
    (hroom : x.tgd.tgdTotGranted.toNat + ungranted.toNat < 2 ^ 63) :
    GrantAfter most others x (granted + ungranted).toNat (x.reserve granted ungranted) := by
  refine ⟨h.reserve hle hroom, rfl, ?_⟩
  have hnat := le_def.mp hle
  have htot := h.granted
  change (x.ted.tedPending + (granted + ungranted)).toNat = _
  rw [toNat_add, toNat_add]
  omega

theorem tgtGrantCheck_sound (env : GrantEnv) (h : Sound most others x) (oa : Obdo)
    (rnbs : List NiobufRemote) (hroom : Room lut x.tgd left) :
    ∃ r, tgtGrantCheck lut env oa rnbs left x = some r ∧
      GrantAfter most others x r.1.oGrantUsed.toNat r.2.2.2 ∧ Room lut r.2.2.2.tgd r.2.2.1 := by
  have hfits : TallyFits x.ted left (grantTally lut env oa rnbs left x.ted).1 :=
    grantBuffers_fits rnbs (grantClaim_fits oa x.ted left)
  rw [tgtGrantCheck]
  dsimp only
  generalize grantTally lut env oa rnbs left x.ted = q at hfits ⊢
  have hle : q.1.ungranted.toNat ≤ left.toNat := by
    have := hfits.ungranted
    omega
  have hreserve := GrantAfter.reserve h hfits.granted (hroom.reserve_lt _ h.small hle)
  have hleft : Room lut (x.reserve q.1.granted q.1.ungranted).tgd q.1.left :=
    hroom.reserve h.small hfits.ungranted
  split
  · exact ⟨_, rfl, hreserve, hleft⟩
  · have hclean := hreserve.sound.clean (cleanedDirty_le (x.reserve _ _).ted q.1.granted)
    rw [hclean.not_isBad]
    exact ⟨_, rfl, ⟨hclean, hreserve.osBavail, hreserve.pending⟩, hleft⟩

/-- What `tgt_grant_alloc` would like to grant is at most a block more than what is left. -/
theorem allocWish_lt (curgrant want : U64) (conservative : Bool)
    (hroom : left.toNat + 2 ^ lut.tgdBlockbits ≤ 2 ^ 63) :
    (allocWish lut curgrant want left conservative).toNat < left.toNat + 2 ^ lut.tgdBlockbits := by
  have hblk := toNat_blksize lut
  have hpos := Nat.two_pow_pos lut.tgdBlockbits
  have hleft : (if conservative then left >>> 3 else left).toNat ≤ left.toNat := by
    split
    · rw [BitVec.toNat_ushiftRight, Nat.shiftRight_eq_div_pow]
      exact Nat.div_le_self _ _
    · exact le_rfl
  rw [allocWish]
  generalize (if conservative then left >>> 3 else left) = l at hleft ⊢
  have hmin : (if want - curgrant < l then want - curgrant else l).toNat ≤ left.toNat := by
    split
    · next hlt => exact (lt_def.mp hlt).le.trans hleft
    · exact hleft
  generalize (if want - curgrant < l then want - curgrant else l) = g at hmin ⊢
  refine lt_of_le_of_lt (toNat_and_le _ _) ?_
  have hsum := toNat_add_of_lt (x := g) (y := blksize lut) (by omega)
  have hone : (1 : U64) ≤ g + blksize lut := le_def.mpr (by rw [hsum]; change 1 ≤ _; omega)
  rw [toNat_sub_of_le hone, hsum, hblk]
  change _ - 1 < _
  omega

/-- The export's grant after `tgt_grant_alloc`: at most what the client wants and a chunk, and
raised by no more than the wish. -/
theorem allocLimit_target {want chunk : U64}
    (hgrant : ted.tedGrant.toNat < 2 ^ 63) (wish : U64) (conservative : Bool)
    (hwish : wish.toNat < 2 ^ 63) (hlimit : want.toNat + chunk.toNat < 2 ^ 63) :
    (ted.tedGrant + allocLimit ted want chunk wish conservative).toNat ≤ want.toNat + chunk.toNat ∧
      (ted.tedGrant + allocLimit ted want chunk wish conservative).toNat ≤
        ted.tedGrant.toNat + wish.toNat := by
  rw [allocLimit]
  have hcut : (if (chunk < wish && conservative) = true then chunk else wish).toNat ≤
      wish.toNat := by
    split
    · next hlt =>
      rw [Bool.and_eq_true, decide_eq_true_eq] at hlt
      exact (lt_def.mp hlt.1).le
    · exact le_rfl
  generalize (if (chunk < wish && conservative) = true then chunk else wish) = w at hcut ⊢
  have hsum := toNat_add_of_lt (x := ted.tedGrant) (y := w) (by omega)
  have hmost := toNat_add_of_lt (x := want) (y := chunk) (by omega)
  split
  · next hlt =>
    have hnat := lt_def.mp hlt
    have htarget : ted.tedGrant + (want + chunk - ted.tedGrant) = want + chunk := by ring
    rw [htarget, hmost]
    omega
  · next hge =>
    have hnat := le_def.mp (BitVec.not_lt.mp hge)
    omega

theorem tgtGrantAlloc_sound (env : GrantEnv) (h : Sound most others x) (curgrant want : U64)
    {left chunk : U64} (conservative : Bool) (hchunk : chunk.toNat ≤ most)
    (hroom : Room lut x.tgd left) :
    ∃ r, tgtGrantAlloc lut env curgrant want left chunk conservative x = some r ∧
      GrantAfter most others x 0 r.2 := by
  have hsame : ∃ r, some ((0 : U64), x) = some r ∧ GrantAfter most others x 0 r.2 :=
    ⟨_, rfl, .refl h⟩
  rw [tgtGrantAlloc]
  split
  · exact hsame
  next hleft =>
  split
  · exact hsame
  next hwant =>
  split
  · exact hsame
  dsimp only
  split
  · exact hsame
  have hleft' : left.toNat ≠ 0 := by
    intro hzero
    have heq : left = 0 := BitVec.eq_of_toNat_eq hzero
    simp [heq] at hleft
  have hroom' := hroom.resolve_left hleft'
  have hwant' : want.toNat ≤ 2147483647 := le_def.mp (BitVec.not_lt.mp hwant)
  have hmost : want.toNat + chunk.toNat < 2 ^ 63 := by
    have := h.dirty_fits
    omega
  have hspace : left.toNat + 2 ^ lut.tgdBlockbits ≤ 2 ^ 63 := by omega
  generalize (conservative && !env.obdRecovering) = careful
  have hwish := allocWish_lt curgrant want careful hspace
  generalize allocWish lut curgrant want left careful = wish at hwish ⊢
  have htarget := allocLimit_target h.grant_lt wish careful (by omega) hmost
  have hsound := h.grant (allocLimit x.ted want chunk wish careful) rfl (by omega) (by omega)
  rw [if_neg (not_lt.mpr (toInt_nonneg hsound.grant_lt))]
  exact ⟨_, rfl, hsound, rfl, rfl⟩

/-! ## The requests -/

theorem tgtGrantConnect_sound (h : Sound most others x) (hstatfs : SaneStatfs lut x.tgd.osBavail)
    {data : ObdConnectData} (newConn fromCache : Bool)
    (hchunk : (tgtGrantChunk lut env data.grantParam).toNat ≤ most) :
    ∃ r, tgtGrantConnect lut env data newConn fromCache x = some r ∧
      GrantAfter most others x 0 r.2 := by
  rw [tgtGrantConnect]
  split
  · exact ⟨_, rfl, .refl h⟩
  dsimp only
  split
  · exact ⟨_, rfl, .refl h⟩
  · obtain ⟨r, hr, hafter⟩ := tgtGrantAlloc_sound env h x.ted.tedGrant
      (if data.grantParam then data.ocdGrant.setWidth 64
        else tgtGrantInflate lut (data.ocdGrant.setWidth 64))
      newConn hchunk (room_spaceLeft env h.small hstatfs)
    rw [hr]
    have hclean := hafter.sound.clean (le_def.mpr (le_refl r.2.ted.tedDirty.toNat))
    exact ⟨_, rfl, { hclean with }, hafter.osBavail, hafter.pending⟩

theorem tgtGrantDiscard_sound (h : Sound most others x) :
    ∃ r, tgtGrantDiscard x = some r ∧ GrantAfter most others x 0 r := by
  have htot := h.granted
  have hpend := h.pending
  have hdirt := h.dirty
  have hgrant : x.ted.tedGrant ≤ x.tgd.tgdTotGranted := le_def.mpr (by omega)
  have hpending : x.ted.tedPending ≤ x.tgd.tgdTotPending := le_def.mpr (by omega)
  have hdirty : x.ted.tedDirty ≤ x.tgd.tgdTotDirty := le_def.mpr (by omega)
  have hgive := h.giveBack (le_def.mpr (le_refl x.ted.tedGrant.toNat))
  have hclean := hgive.clean (le_def.mpr (le_refl x.ted.tedDirty.toNat))
  rw [tgtGrantDiscard, if_pos hgrant]
  exact ⟨_, if_pos ⟨hpending, hdirty⟩, hclean, rfl, rfl⟩

/-- A shrink request gives back no more than the grant of the export, unless it is turned
down. -/
def ShrinkFits (env : GrantEnv) (oa : Obdo) (left : U64) (x : GrantView) : Prop :=
  x.tgd.tgdTotGrantedClients.signExtend 64 * (2 * 8 * env.expMaxBrwSize) ≤ left ∨
    oa.oGrant ≤ x.ted.tedGrant
  deriving Decidable

section

variable (h : Sound most others x)
include h

theorem tgtGrantShrink_sound (hfits : ShrinkFits env oa left x) :
    GrantAfter most others x 0 (tgtGrantShrink env oa left x).2 := by
  rw [tgtGrantShrink]
  split
  · exact .refl h
  · next hlow => exact ⟨h.giveBack (hfits.resolve_left hlow), rfl, rfl⟩

theorem tgtGrantPrepareRead_sound (hchunk : (tgtGrantChunk lut env env.grantParamSupp).toNat ≤ most)
    (hdirty : DirtyFits lut env oa)
    (hshrink : oa.wantsShrink = true → ∀ r ∈ tgtGrantIncoming lut env oa
        (tgtGrantChunk lut env env.grantParamSupp) x,
      ShrinkFits env r.1 (tgtGrantSpaceLeft lut env x.tgd) r.2) :
    ∃ r, tgtGrantPrepareRead lut env oa x = some r ∧ GrantAfter most others x 0 r.2 := by
  rw [tgtGrantPrepareRead]
  split
  · exact ⟨_, rfl, .refl h⟩
  · obtain ⟨r, hr, hafter, _⟩ := tgtGrantIncoming_sound h hchunk hdirty
    rw [hr]
    refine ⟨_, rfl, ?_⟩
    split
    · next hwants => exact hafter.trans (tgtGrantShrink_sound hafter.sound (hshrink hwants r hr))
    · exact hafter

theorem grantReturn_sound {left chunk : U64}
    (hchunk : chunk.toNat ≤ most) (hroom : Room lut x.tgd left)
    (hshrink : oa.flGrant = true → oa.wantsShrink = true → ShrinkFits env oa left x) :
    ∃ r, grantReturn lut env oa left chunk x = some r ∧ GrantAfter most others x 0 r.2 ∧
      r.1.oGrantUsed = oa.oGrantUsed := by
  have hreply : ∀ oa : Obdo, (obdoReply lut env oa).oGrantUsed = oa.oGrantUsed := by
    intro oa
    rw [obdoReply]
    split <;> rfl
  rw [grantReturn]
  split
  · exact ⟨_, rfl, .refl h, rfl⟩
  next hvalid =>
  split
  · next hwants =>
    have hfits := hshrink (by simpa using hvalid) hwants
    refine ⟨_, rfl, tgtGrantShrink_sound h hfits, ?_⟩
    rw [hreply, tgtGrantShrink]
    split <;> rfl
  · obtain ⟨r, hr, hafter⟩ := tgtGrantAlloc_sound env h oa.oGrant
      (oa.oUndirty.setWidth 64) true hchunk hroom
    rw [hr]
    exact ⟨_, rfl, hafter, hreply _⟩

theorem tgtGrantPrepareWrite_sound
    (hstatfs : SaneStatfs lut x.tgd.osBavail) (rnbs : List NiobufRemote) (force : ℕ)
    (fromCache : Bool) (hchunk : (tgtGrantChunk lut env env.grantParamSupp).toNat ≤ most)
    (hdirty : DirtyFits lut env oa)
    (hshrink : ∀ r ∈ tgtGrantIncoming lut env oa (tgtGrantChunk lut env env.grantParamSupp) x,
      ∀ q ∈ tgtGrantCheck lut env r.1 rnbs (tgtGrantSpaceLeft lut env x.tgd) r.2,
      q.1.flGrant = true → q.1.wantsShrink = true → ShrinkFits env q.1 q.2.2.1 q.2.2.2) :
    ∃ r, tgtGrantPrepareWrite lut env oa rnbs force fromCache x = some r ∧
      GrantAfter most others x ((r.1.map fun p => p.1.oGrantUsed).toList.map BitVec.toNat).sum r.2 := by
  rw [tgtGrantPrepareWrite]
  split
  · exact ⟨_, rfl, .refl h⟩
  split
  · exact ⟨_, rfl, .refl h⟩
  · obtain ⟨r, hr, hafter, hle⟩ := tgtGrantIncoming_sound h hchunk hdirty
    have hroom := (room_spaceLeft env h.small hstatfs).mono hle
    obtain ⟨q, hq, hcheck, hleft⟩ := tgtGrantCheck_sound env hafter.sound r.1 rnbs hroom
    obtain ⟨p, hp, hreturn, hused⟩ := grantReturn_sound hcheck.sound hchunk hleft
      (hshrink r hr q hq)
    rw [hr, Option.bind_some, hq, Option.bind_some, hp]
    refine ⟨_, rfl, ?_⟩
    have hall := (hafter.trans hcheck).trans hreturn
    refine ⟨hall.sound, hall.osBavail, ?_⟩
    rw [hall.pending]
    change _ = _ + (p.1.oGrantUsed.toNat + 0)
    rw [hused]
    omega

end

theorem createWanted_le {nr grant left wanted nr' : U64}
    (h : createWanted lut nr grant left = some (wanted, nr')) : wanted ≤ grant + left := by
  have hspace : (ofNat 64 lut.ddpInodespace).toNat = lut.ddpInodespace := by
    have := lut.ddpInodespace_lt
    rw [BitVec.toNat_ofNat]
    omega
  rw [createWanted] at h
  dsimp only at h
  split at h
  · split at h
    · cases h
    · cases h
      have hle := Nat.div_mul_le_self (grant + left).toNat lut.ddpInodespace
      refine le_def.mpr ?_
      rw [toNat_mul, toNat_udiv, hspace]
      exact (Nat.mod_le _ _).trans hle
  · next hge =>
    cases h
    exact BitVec.not_lt.mp hge

theorem grantPrecreate_sound (h : Sound most others x) {wanted granted left : U64}
    (hchunk : (tgtGrantChunk lut env env.grantParamSupp).toNat ≤ most)
    (hroom : Room lut x.tgd left) (hgranted : granted ≤ x.ted.tedGrant)
    (hleft : (wanted - granted).toNat ≤ left.toNat) :
    ∃ r, grantPrecreate lut env wanted granted left x = some r ∧
      GrantAfter most others x wanted.toNat r := by
  have hreserve := GrantAfter.reserve h hgranted (hroom.reserve_lt _ h.small hleft)
  have hwanted : granted + (wanted - granted) = wanted := by ring
  rw [hwanted] at hreserve
  have hrest : (wanted - granted).toNat + (left - (wanted - granted)).toNat = left.toNat := by
    rw [toNat_sub_of_le (le_def.mpr hleft)]
    exact Nat.add_sub_cancel' hleft
  have hroom' : Room lut (x.reserve granted (wanted - granted)).tgd
      (left - (wanted - granted)) := hroom.reserve h.small hrest
  rw [grantPrecreate]
  split
  · obtain ⟨r, hr, hafter⟩ := tgtGrantAlloc_sound env hreserve.sound
      (x.reserve granted (wanted - granted)).ted.tedGrant
      (precreateSpace lut - (x.reserve granted (wanted - granted)).ted.tedGrant) false hchunk hroom'
    rw [hr]
    exact ⟨_, rfl, hreserve.trans hafter⟩
  · exact ⟨_, rfl, hreserve⟩

theorem tgtGrantCreate_sound (h : Sound most others x) (hstatfs : SaneStatfs lut x.tgd.osBavail)
    (nr : U64) (hchunk : (tgtGrantChunk lut env env.grantParamSupp).toNat ≤ most) :
    ∃ r, tgtGrantCreate lut env nr x = some r ∧
      GrantAfter most others x ((r.1.map Prod.fst).toList.map BitVec.toNat).sum r.2 := by
  rw [tgtGrantCreate]
  split
  · exact ⟨_, rfl, .refl h⟩
  split
  · exact ⟨_, rfl, .refl h⟩
  have hroom := room_spaceLeft env h.small hstatfs
  dsimp only
  generalize tgtGrantSpaceLeft lut env x.tgd = left at hroom ⊢
  split
  · exact ⟨_, rfl, .refl h⟩
  next wanted nr' hwanted =>
  have hle := createWanted_le hwanted
  have hgrant := h.granted
  have hlt := hroom.reserve_lt left h.small le_rfl
  have hsum := toNat_add_of_lt (x := x.ted.tedGrant) (y := left) (by omega)
  have hnat := le_def.mp hle
  rw [if_neg (BitVec.not_lt.mpr hle)]
  have hpart : ∃ r, grantPrecreate lut env wanted
      (if wanted ≤ x.ted.tedGrant then wanted else x.ted.tedGrant) left x = some r ∧
      GrantAfter most others x wanted.toNat r := by
    split
    · next henough =>
      refine grantPrecreate_sound h hchunk hroom henough ?_
      rw [sub_self]
      exact Nat.zero_le _
    · next hmore =>
      have hlt := BitVec.not_le.mp hmore
      have hlt' := lt_def.mp hlt
      refine grantPrecreate_sound h hchunk hroom (le_def.mpr le_rfl) ?_
      rw [toNat_sub_of_le (le_def.mpr hlt'.le)]
      omega
  obtain ⟨r, hr, hafter⟩ := hpart
  rw [hr]
  exact ⟨_, rfl, hafter⟩

/-- `tgt_grant_commit` of space that is pending -/
theorem tgtGrantCommit_sound (h : Sound most others x) {pending : U64} (rc : ℤ)
    (hle : pending ≤ x.ted.tedPending) :
    ∃ r, tgtGrantCommit lut pending rc x = some r ∧ Sound most others r ∧
      r.tgd.osBavail.toNat ≤ x.tgd.osBavail.toNat ∧
      r.ted.tedPending.toNat + pending.toNat = x.ted.tedPending.toNat := by
  have hnat := le_def.mp hle
  have htot := h.granted
  have hpend := h.pending
  rw [tgtGrantCommit]
  split
  · next hzero =>
    refine ⟨x, rfl, h, le_rfl, ?_⟩
    rw [hzero]
    rfl
  have hfine : ¬ (x.ted.tedPending < pending ∨ x.tgd.tgdTotGranted < pending ∨
      x.tgd.tgdTotPending < pending) := by
    rw [lt_def, lt_def, lt_def]
    omega
  rw [if_neg hfine]
  have hrelease := h.release hle
  refine ⟨_, rfl, { hrelease with }, ?_, ?_⟩
  · have hcut : (if x.tgd.osBavail < pending >>> lut.tgdBlockbits then x.tgd.osBavail
        else pending >>> lut.tgdBlockbits) ≤ x.tgd.osBavail := by
      split
      · exact le_def.mpr le_rfl
      · next hge => exact BitVec.not_lt.mp hge
    split
    · rw [toNat_sub_of_le hcut]
      exact Nat.sub_le _ _
    · exact le_rfl
  · change (x.ted.tedPending - pending).toNat + pending.toNat = _
    rw [toNat_sub_of_le hle]
    exact Nat.sub_add_cancel hnat

end Parts

/-! ## Runs over the exports of a target -/

open Function (forall_update_iff update update_self update_of_ne)

section Runs

open GrantView

variable {ι : Type*}

/-- The counters of a target in a run. -/
structure GrantSystem.Safe [Fintype ι] (lut : GrantTarget) (most : ℕ) (s : GrantSystem ι) : Prop where
  /-- `tgd_tot_granted` is a sum without a wrap-around -/
  granted : s.tgd.tgdTotGranted.toNat =
    ∑ e, ((s.exports e).tedGrant.toNat + (s.exports e).tedPending.toNat)
  pending : s.tgd.tgdTotPending.toNat = ∑ e, (s.exports e).tedPending.toNat
  dirty : s.tgd.tgdTotDirty.toNat = ∑ e, (s.exports e).tedDirty.toNat
  /-- the space granted is less than the sign allows -/
  small : s.tgd.tgdTotGranted.toNat < 2 ^ 63
  /-- an export has not much more than `OBD_MAX_GRANT` -/
  grant_le : ∀ e, (s.exports e).tedGrant.toNat ≤ 2 ^ 31 + most
  dirty_le : ∀ e, (s.exports e).tedDirty.toNat ≤ 2 ^ 31 + 5 * most
  owed : ∀ e, (s.exports e).tedPending.toNat = ((s.owed e).map BitVec.toNat).sum
  statfs : SaneStatfs lut s.tgd.osBavail

theorem GrantSystem.safe_start [Fintype ι] {lut : GrantTarget} {most : ℕ} {osBavail : U64}
    (osBlocks : U64) (h : SaneStatfs lut osBavail) :
    (start osBavail osBlocks : GrantSystem ι).Safe lut most where
  granted := (sum_eq_zero fun _ _ => rfl).symm
  pending := (sum_eq_zero fun _ _ => rfl).symm
  dirty := (sum_eq_zero fun _ _ => rfl).symm
  small := Nat.two_pow_pos 63
  grant_le := fun _ => Nat.zero_le _
  dirty_le := fun _ => Nat.zero_le _
  owed := fun _ => rfl
  statfs := h

variable [DecidableEq ι]

/-- The inputs are in range: no chunk is above `most`, the free space is less than the sign
allows, dirty data is not negative when inflated, and a shrink request gives back no more
than the export has. -/
def GrantSpared (lut : GrantTarget) (self : ι) (most : ℕ) (s : GrantSystem ι) : GrantOp ι → Prop
  | .connect e env data _ _ =>
    (tgtGrantChunk lut { env with isSelf := decide (e = self) } data.grantParam).toNat ≤ most
  | .prepareRead e env oa =>
    let env := { env with isSelf := decide (e = self) }
    let chunk := tgtGrantChunk lut env env.grantParamSupp
    chunk.toNat ≤ most ∧ DirtyFits lut env oa ∧
      (oa.wantsShrink = true → ∀ r ∈ tgtGrantIncoming lut env oa chunk (s.view e),
        ShrinkFits env r.1 (tgtGrantSpaceLeft lut env s.tgd) r.2)
  | .prepareWrite e env oa rnbs _ _ =>
    let env := { env with isSelf := decide (e = self) }
    let chunk := tgtGrantChunk lut env env.grantParamSupp
    chunk.toNat ≤ most ∧ DirtyFits lut env oa ∧ ∀ r ∈ tgtGrantIncoming lut env oa chunk (s.view e),
        ∀ q ∈ tgtGrantCheck lut env r.1 rnbs (tgtGrantSpaceLeft lut env s.tgd) r.2,
        q.1.flGrant = true → q.1.wantsShrink = true → ShrinkFits env q.1 q.2.2.1 q.2.2.2
  | .create e env _ =>
    (tgtGrantChunk lut { env with isSelf := decide (e = self) } env.grantParamSupp).toNat ≤ most
  | .statfs osBavail _ => SaneStatfs lut osBavail
  | _ => True

instance (lut : GrantTarget) (self : ι) (most : ℕ) (s : GrantSystem ι) :
    (op : GrantOp ι) → Decidable (GrantSpared lut self most s op)
  | .connect .. => inferInstanceAs (Decidable (_ ≤ most))
  | .prepareRead .. => inferInstanceAs (Decidable (_ ≤ most ∧ DirtyFits .. ∧ (_ → ∀ r ∈ _, _)))
  | .prepareWrite .. =>
    inferInstanceAs (Decidable (_ ≤ most ∧ DirtyFits .. ∧ ∀ r ∈ _, ∀ q ∈ _, _ → _ → _))
  | .create .. => inferInstanceAs (Decidable (_ ≤ most))
  | .statfs osBavail _ => inferInstanceAs (Decidable (SaneStatfs lut osBavail))
  | .commit .. | .discard .. | .clientGone => .isTrue trivial

variable [Fintype ι] {lut : GrantTarget} {self : ι} {most : ℕ} {s : GrantSystem ι}

/-- What the exports beside `e` hold. -/
def GrantSystem.others (s : GrantSystem ι) (e : ι) : ℕ × ℕ × ℕ :=
  (∑ i ∈ Finset.univ.erase e, ((s.exports i).tedGrant.toNat + (s.exports i).tedPending.toNat),
    ∑ i ∈ Finset.univ.erase e, (s.exports i).tedPending.toNat,
    ∑ i ∈ Finset.univ.erase e, (s.exports i).tedDirty.toNat)

namespace GrantSystem.Safe

section

variable (h : s.Safe lut most) (hmost : card ι * (2 ^ 31 + 5 * most) < 2 ^ 63)
include h hmost

theorem sound (e : ι) : Sound most (s.others e) (s.view e) where
  granted := by
    rw [others, add_comm]
    exact h.granted.trans (add_sum_erase _ _ (mem_univ e)).symm
  pending := by
    rw [others, add_comm]
    exact h.pending.trans
      (add_sum_erase _ (fun i => (s.exports i).tedPending.toNat) (mem_univ e)).symm
  dirty := by
    rw [others, add_comm]
    exact h.dirty.trans
      (add_sum_erase _ (fun i => (s.exports i).tedDirty.toNat) (mem_univ e)).symm
  small := h.small
  grant_le := h.grant_le e
  dirty_le := h.dirty_le e
  others_le := Finset.sum_le_sum fun i _ => Nat.le_add_left _ _
  dirty_fits := by
    have hsum : (s.others e).2.2 ≤ (Finset.univ.erase e).card * (2 ^ 31 + 5 * most) := by
      exact Finset.sum_le_card_nsmul _ _ _ fun i _ => h.dirty_le i
    have hcard : (Finset.univ.erase e).card + 1 = card ι :=
      Finset.card_erase_add_one (mem_univ e)
    calc (s.others e).2.2 + (2 ^ 31 + 5 * most)
        ≤ (Finset.univ.erase e).card * (2 ^ 31 + 5 * most) + (2 ^ 31 + 5 * most) :=
          Nat.add_le_add_right hsum _
      _ = card ι * (2 ^ 31 + 5 * most) := by
          rw [← hcard, add_mul, one_mul]
      _ < 2 ^ 63 := hmost

omit hmost in
/-- What a request leaves behind is written back, and `amounts` are to be committed now. -/
theorem write {e : ι} {x : GrantView} (hx : Sound most (s.others e) x)
    (hstatfs : SaneStatfs lut x.tgd.osBavail) {amounts : List U64}
    (hamounts : x.ted.tedPending.toNat = (amounts.map BitVec.toNat).sum) :
    ({ s.write e x with owed := update s.owed e amounts } : GrantSystem ι).Safe lut most := by
  refine ⟨?_, ?_, ?_, hx.small, ?_, ?_, fun i => ?_, hstatfs⟩
  · exact hx.granted.trans (Ledger.sum_update
      (fun t : TgExportData => t.tedGrant.toNat + t.tedPending.toNat) s.exports e x.ted).symm
  · exact hx.pending.trans
      (Ledger.sum_update (fun t : TgExportData => t.tedPending.toNat) s.exports e x.ted).symm
  · exact hx.dirty.trans
      (Ledger.sum_update (fun t : TgExportData => t.tedDirty.toNat) s.exports e x.ted).symm
  · exact (forall_update_iff s.exports fun _ ted => ted.tedGrant.toNat ≤ _).mpr
      ⟨hx.grant_le, fun i _ => h.grant_le i⟩
  · exact (forall_update_iff s.exports fun _ ted => ted.tedDirty.toNat ≤ _).mpr
      ⟨hx.dirty_le, fun i _ => h.dirty_le i⟩
  · change (update s.exports e x.ted i).tedPending.toNat =
      ((update s.owed e amounts i).map BitVec.toNat).sum
    by_cases hi : i = e
    · rw [hi, update_self, update_self]
      exact hamounts
    · rw [update_of_ne hi, update_of_ne hi]
      exact h.owed i

end

end GrantSystem.Safe

/-- The step lemma: a step whose inputs are in range fires nothing, and keeps the counters
in range. -/
theorem grantStep_safe (h : s.Safe lut most)
    (hmost : card ι * (2 ^ 31 + 5 * most) < 2 ^ 63) {op : GrantOp ι}
    (huse : GrantUse s op) (hok : GrantSpared lut self most s op) :
    ∃ s', grantStep lut self s op = some s' ∧ s'.Safe lut most := by
  -- a request that makes `amounts` pending
  have hwrite : ∀ (e : ι) (x : GrantView) (amounts : List U64),
      GrantAfter most (s.others e) (s.view e) (amounts.map BitVec.toNat).sum x →
      ((s.write e x).owe e amounts).Safe lut most := by
    intro e x amounts hafter
    refine h.write hafter.sound (hafter.osBavail ▸ h.statfs) ?_
    rw [hafter.pending, List.map_append, List.sum_append, add_comm]
    exact congrArg (_ + ·) (h.owed e)
  have hnone : ∀ (e : ι) (x : GrantView), GrantAfter most (s.others e) (s.view e) 0 x →
      (s.write e x).Safe lut most := by
    intro e x hafter
    have hsafe := hwrite e x [] hafter
    rwa [GrantSystem.owe, List.nil_append, GrantSystem.write, Function.update_eq_self] at hsafe
  cases op with
  | connect e env data newConn fromCache =>
    obtain ⟨r, hr, hafter⟩ := tgtGrantConnect_sound (h.sound hmost e) h.statfs newConn fromCache hok
    exact ⟨_, congrArg (Option.map _) hr, hnone e r.2 hafter⟩
  | prepareRead e env oa =>
    obtain ⟨hchunk, hdirty, hshrink⟩ := hok
    obtain ⟨r, hr, hafter⟩ := tgtGrantPrepareRead_sound (h.sound hmost e) hchunk hdirty hshrink
    exact ⟨_, congrArg (Option.map _) hr, hnone e r.2 hafter⟩
  | prepareWrite e env oa rnbs force fromCache =>
    obtain ⟨hchunk, hdirty, hshrink⟩ := hok
    obtain ⟨r, hr, hafter⟩ := tgtGrantPrepareWrite_sound (h.sound hmost e) h.statfs rnbs force
      fromCache hchunk hdirty hshrink
    exact ⟨_, congrArg (Option.map _) hr, hwrite e r.2 _ hafter⟩
  | create e env nr =>
    obtain ⟨r, hr, hafter⟩ := tgtGrantCreate_sound (h.sound hmost e) h.statfs nr hok
    exact ⟨_, congrArg (Option.map _) hr, hwrite e r.2 _ hafter⟩
  | commit e pending rc =>
    have hmem : pending ∈ s.owed e := huse
    have hsum : pending.toNat + (((s.owed e).erase pending).map BitVec.toNat).sum =
        (s.exports e).tedPending.toNat := by
      rw [h.owed e]
      exact List.sum_map_erase _ hmem
    have hle : pending ≤ (s.view e).ted.tedPending :=
      le_def.mpr (le_of_le_of_eq (Nat.le_add_right _ _) hsum)
    obtain ⟨x, hx, hsound, hbavail, hpending⟩ := tgtGrantCommit_sound (h.sound hmost e) rc hle
    refine ⟨_, congrArg (Option.map _) hx, h.write hsound ?_ ?_⟩
    · have hstatfs := h.statfs
      exact (Nat.add_le_add_right (Nat.mul_le_mul_right _ hbavail) _).trans hstatfs
    · have hpend : x.ted.tedPending.toNat + pending.toNat = (s.exports e).tedPending.toNat :=
        hpending
      change _ = (((s.owed e).erase pending).map BitVec.toNat).sum
      omega
  | discard e =>
    obtain ⟨x, hx, hafter⟩ := tgtGrantDiscard_sound (h.sound hmost e)
    exact ⟨_, congrArg (Option.map _) hx, hnone e x hafter⟩
  | statfs osBavail osBlocks => exact ⟨_, rfl, { h with statfs := hok }⟩
  | clientGone => exact ⟨_, rfl, { h with }⟩

/-- Where the inputs are in range, no counter of an export goes below zero, and no `LBUG` or
`LASSERT` fires. -/
theorem grant_safe (lut : GrantTarget) (self : ι) (most : ℕ)
    (hmost : card ι * (2 ^ 31 + 5 * most) < 2 ^ 63) {osBavail : U64} (osBlocks : U64)
    (hstatfs : SaneStatfs lut osBavail) {s : GrantSystem ι}
    (h : Reach (grantStep lut self) (fun s op => GrantUse s op ∧ GrantSpared lut self most s op)
      (GrantSystem.start osBavail osBlocks) s) :
    (∀ e, 0 ≤ (s.exports e).tedGrant.toInt ∧ 0 ≤ (s.exports e).tedPending.toInt ∧
      0 ≤ (s.exports e).tedDirty.toInt) ∧ ∀ op, GrantUse s op → GrantSpared lut self most s op →
      (grantStep lut self s op).isSome = true := by
  have hsafe : s.Safe lut most := by
    refine h.invariant (GrantSystem.Safe lut most) (GrantSystem.safe_start osBlocks hstatfs) ?_
    intro s op s' hs hok hstep
    obtain ⟨t, ht, hsafe⟩ := grantStep_safe hs hmost hok.1 hok.2
    cases hstep.symm.trans ht
    exact hsafe
  refine ⟨fun e => ?_, fun op huse hok => ?_⟩
  · have hsound := hsafe.sound hmost e
    exact ⟨toInt_nonneg hsound.grant_lt, toInt_nonneg hsound.pending_lt,
      toInt_nonneg hsound.dirty_lt⟩
  · obtain ⟨t, ht, _⟩ := grantStep_safe hsafe hmost huse hok
    rw [ht]
    rfl

end Runs

/-- A client connects, writes, shrinks its grant by half, and the write is committed. -/
theorem grant_safe_two : ∃ s : GrantSystem (Fin 2),
    Reach (grantStep smallTarget 1) (fun s op => GrantUse s op ∧
      GrantSpared smallTarget 1 (2 ^ 32) s op) (GrantSystem.start 1000 2000) s ∧
    (s.exports 0).tedGrant = 251904 ∧
    (∀ e, 0 ≤ (s.exports e).tedGrant.toInt ∧ 0 ≤ (s.exports e).tedPending.toInt ∧
      0 ≤ (s.exports e).tedDirty.toInt) ∧
    ∀ op, GrantUse s op → GrantSpared smallTarget 1 (2 ^ 32) s op →
      (grantStep smallTarget 1 s op).isSome = true := by
  obtain ⟨s, hs, hgrant⟩ : ∃ s : GrantSystem (Fin 2), Reach (grantStep smallTarget 1)
      (fun s op => GrantUse s op ∧ GrantSpared smallTarget 1 (2 ^ 32) s op)
      (GrantSystem.start 1000 2000) s ∧ (s.exports 0).tedGrant = 251904 :=
    exists_reach [.connect 0 smallClient ⟨false, true, true, 1048576⟩ true false,
      .prepareWrite 0 smallClient { smallWrite 4096 with shrinkGrant := true, oGrant := 256000 }
        [⟨0, 4096, true, false⟩] 2 false, .commit 0 4096 0] (by decide +kernel)
  exact ⟨s, hs, hgrant, grant_safe smallTarget 1 (2 ^ 32) (by decide) 2000 (by decide) hs⟩

/-- A client that was granted 512000 bytes gives back 2 ^ 30: its grant is negative, and its
next request is an `LBUG`. -/
theorem grant_shrunk_below_zero : ∃ s : GrantSystem (Fin 2),
    Reach (grantStep smallTarget 1) GrantUse (GrantSystem.start 1000 2000) s ∧
    (s.exports 0).tedGrant.toInt < 0 ∧
    ∃ op, GrantUse s op ∧ grantStep smallTarget 1 s op = none := by
  obtain ⟨s, hs, hneg, hnone⟩ : ∃ s : GrantSystem (Fin 2),
      Reach (grantStep smallTarget 1) GrantUse (GrantSystem.start 1000 2000) s ∧
      (s.exports 0).tedGrant.toInt < 0 ∧ (grantStep smallTarget 1 s
        (.prepareWrite 0 smallClient (smallWrite 0) [] 2 false)).isNone :=
    exists_reach [.connect 0 smallClient ⟨false, true, true, 1048576⟩ true false,
      .prepareRead 0 smallClient
        { smallWrite 0 with shrinkGrant := true, oGrant := 1073741824, oDirty := 0 }]
      (by decide +kernel)
  exact ⟨s, hs, hneg, .prepareWrite 0 smallClient (smallWrite 0) [] 2 false, trivial,
    Option.isNone_iff_eq_none.mp hnone⟩

/-- On a target with blocks of 64 KiB, dirty data of an old client is inflated to a negative
number after its sign was checked. -/
theorem grant_dirty_inflated :
    (grantStep { smallTarget with tgdBlockbits := 16, tgdBlockbits_lt := by decide } (1 : Fin 2)
      (GrantSystem.start 1000 2000) (.prepareRead 0 { smallClient with grantParamSupp := false }
        { smallWrite 0 with oDirty := 2 ^ 59 })).isNone = true := by
  decide +kernel

end Lustre
