import Lustre.Qmt
import Mathlib.Tactic.Ring

/-!
# Grant space (`tgt_grant.c`)

A target grants space to its clients so that they can cache writes. For every export it
counts the space granted (`ted_grant`), the space of writes between prepare and commit
(`ted_pending`) and the data the client says it has cached (`ted_dirty`), and for the
target the totals. Requests bring a client's claims in an `obdo`: what it has written to
its cache, dropped, used up, wants, or gives back.

Counters and claims are 64-bit words: the totals are `u64`, the counters of an export are
`long`, and C compares a `long` with a `u64` as unsigned words. `toInt` marks the
comparisons that are signed. An `LBUG` or `LASSERT` that fires is `none`.

Each function works on the counters of one export and the totals (`GrantView`) and changes
them by a few postings, each of which changes a total by as much as the export's counter.
So the totals are the sums over the exports in every run (`grant_conserved`).
-/

namespace Lustre

open Option (map_eq_some_iff)

/-! ## The target, its exports and the requests -/

/-- What is fixed about a target. -/
structure GrantTarget where
  tgdBlockbits : ℕ
  /-- a block is smaller than an `int` can say -/
  tgdBlockbits_lt : tgdBlockbits < 31
  /-- `ddp_inodespace`, a `short` -/
  ddpInodespace : ℕ
  /-- it is not negative -/
  ddpInodespace_lt : ddpInodespace < 2 ^ 15
  ddpMaxExtentBlks : ℕ
  /-- an extent has blocks -/
  ddpMaxExtentBlks_pos : 0 < ddpMaxExtentBlks
  /-- an `unsigned` -/
  ddpMaxExtentBlks_lt : ddpMaxExtentBlks < 2 ^ 32
  ddpExtentTax : BitVec 32

/-- The counters of an export, `struct tg_export_data`. -/
structure TgExportData where
  tedGrant : U64
  tedPending : U64
  tedDirty : U64
  deriving DecidableEq

/-- The counters of a target, `struct tg_grants_data`, with the statfs data it caches. -/
structure TgGrantsData where
  tgdTotGranted : U64
  tgdTotPending : U64
  tgdTotDirty : U64
  /-- `tgd_tot_granted_clients`, an `int` -/
  tgdTotGrantedClients : BitVec 32
  /-- `os_bavail` of `tgd_osfs` -/
  osBavail : U64
  /-- `os_blocks` of `tgd_osfs` -/
  osBlocks : U64
  deriving DecidableEq

/-- The counters that a request works on under `tgd_grant_lock`. -/
structure GrantView where
  /-- those of its export -/
  ted : TgExportData
  /-- those of the target -/
  tgd : TgGrantsData
  deriving DecidableEq

/-- What a request reads of its export and of the target beside the counters. -/
structure GrantEnv where
  /-- whether it is the self export -/
  isSelf : Bool
  /-- `exp_grant_param_supp` -/
  grantParamSupp : Bool
  expMaxBrwSize : U64
  expFailed : Bool
  obdRecovering : Bool
  tgdGrantCompatDisable : Bool
  tgdReservedPcnt : U64
  deriving DecidableEq

/-- The `obdo` of a request, as far as grants are concerned. -/
structure Obdo where
  /-- `OBD_MD_FLBLOCKS` in `o_valid` -/
  flBlocks : Bool
  /-- `OBD_MD_FLGRANT` in `o_valid` -/
  flGrant : Bool
  /-- `OBD_MD_FLFLAGS` in `o_valid` -/
  flFlags : Bool
  /-- `OBD_FL_SHRINK_GRANT` in `o_flags` -/
  shrinkGrant : Bool
  /-- `OBD_FL_RECOV_RESEND` in `o_flags` -/
  recovResend : Bool
  oGrant : U64
  oDirty : U64
  oDropped : BitVec 32
  oUndirty : BitVec 32
  oGrantUsed : U64
  deriving DecidableEq

structure NiobufRemote where
  rnbOffset : U64
  rnbLen : BitVec 32
  /-- `OBD_BRW_FROM_GRANT` in `rnb_flags` -/
  fromGrant : Bool
  /-- `OBD_BRW_GRANTED` in `rnb_flags` -/
  granted : Bool
  deriving DecidableEq

def obdMaxGrant : U64 := 0x7fffffff

variable (lut : GrantTarget) (env : GrantEnv) (x : GrantView)

/-- The block size. -/
def blksize : U64 := (1 : U64) <<< lut.tgdBlockbits

def tgtGrantInflate (val : U64) : U64 :=
  if 12 < lut.tgdBlockbits then val <<< (lut.tgdBlockbits - 12) else val

def tgtGrantDeflate (val : U64) : U64 :=
  if 12 < lut.tgdBlockbits then val >>> (lut.tgdBlockbits - 12) else val

/-- The space for a big precreate request, `OST_MAX_PRECREATE * ddp_inodespace / 2`. -/
def precreateSpace : U64 := BitVec.ofNat 64 (20000 * lut.ddpInodespace / 2)

/-- `tgt_grant_chunk`, where `param` says whether the client supports the grant
parameters. -/
def tgtGrantChunk (param : Bool) : U64 :=
  let chunk := env.expMaxBrwSize
  if env.isSelf then precreateSpace lut
  else if !param then tgtGrantInflate lut chunk <<< 1
  else
    let extent := blksize lut * BitVec.ofNat 64 lut.ddpMaxExtentBlks
    let tax := (chunk + extent - 1) / extent * lut.ddpExtentTax.setWidth 64
    (chunk + tax) * 2

def tgtGrantSpaceLeft (tgd : TgGrantsData) : U64 :=
  let left := tgd.osBavail <<< lut.tgdBlockbits
  let totGranted := tgd.tgdTotGranted + left * env.tgdReservedPcnt / 100
  if left < totGranted then 0 else (left - totGranted) &&& ~~~(blksize lut - 1)

/-! ## The postings -/

namespace GrantView

/-- The client holds `dirty` in its cache. -/
def setDirty (dirty : U64) : GrantView where
  ted := { x.ted with tedDirty := dirty }
  tgd := { x.tgd with tgdTotDirty := x.tgd.tgdTotDirty + (dirty - x.ted.tedDirty) }

/-- `amount` of the dirty data is being written. -/
def clean (amount : U64) : GrantView where
  ted := { x.ted with tedDirty := x.ted.tedDirty - amount }
  tgd := { x.tgd with tgdTotDirty := x.tgd.tgdTotDirty - amount }

/-- The export loses `amount` of its grant. -/
def giveBack (amount : U64) : GrantView where
  ted := { x.ted with tedGrant := x.ted.tedGrant - amount }
  tgd := { x.tgd with tgdTotGranted := x.tgd.tgdTotGranted - amount }

/-- The export gets `amount` of grant. -/
def grant (amount : U64) : GrantView where
  ted := { x.ted with tedGrant := x.ted.tedGrant + amount }
  tgd := { x.tgd with tgdTotGranted := x.tgd.tgdTotGranted + amount }

/-- `granted` of the export's grant and `ungranted` of the free space become pending. -/
def reserve (granted ungranted : U64) : GrantView where
  ted := { x.ted with
    tedGrant := x.ted.tedGrant - granted
    tedPending := x.ted.tedPending + (granted + ungranted) }
  tgd := { x.tgd with
    tgdTotGranted := x.tgd.tgdTotGranted + ungranted
    tgdTotPending := x.tgd.tgdTotPending + (granted + ungranted) }

/-- `pending` is released. -/
def release (pending : U64) : GrantView where
  ted := { x.ted with tedPending := x.ted.tedPending - pending }
  tgd := { x.tgd with
    tgdTotGranted := x.tgd.tgdTotGranted - pending
    tgdTotPending := x.tgd.tgdTotPending - pending }

/-- The check before the `LBUG`s of `tgt_grant_incoming` and `tgt_grant_check`. -/
def isBad : Bool :=
  x.ted.tedDirty.toInt < 0 || x.ted.tedGrant.toInt < 0 || x.ted.tedPending.toInt < 0

end GrantView

/-! ## The parts of a request -/

/-- The claims of an `obdo` as `tgt_grant_incoming` reads them. -/
def obdoClaims (oa : Obdo) : Obdo :=
  let oa := { oa with oDirty := if oa.oDirty.toInt < 0 then 0 else oa.oDirty }
  if env.grantParamSupp then oa
  else { oa with
    oGrant := tgtGrantInflate lut oa.oGrant
    oDirty := tgtGrantInflate lut oa.oDirty
    oDropped := (tgtGrantInflate lut (oa.oDropped.setWidth 64)).setWidth 32
    oUndirty := (tgtGrantInflate lut (oa.oUndirty.setWidth 64)).setWidth 32 }

/-- The dirty data that is believed. -/
def believedDirty (oa : Obdo) (chunk : U64) (ted : TgExportData) : U64 :=
  let most := ted.tedGrant + 4 * chunk
  if most.toInt < oa.oDirty.toInt then most else oa.oDirty

/-- The dropped grant that is believed. -/
def believedDropped (oa : Obdo) (x : GrantView) : U64 :=
  let dropped := oa.oDropped.setWidth 64
  let dropped := if x.ted.tedGrant.toInt < dropped.toInt then 0 else dropped
  if x.tgd.tgdTotGranted < dropped then 0 else dropped

def tgtGrantIncoming (oa : Obdo) (chunk : U64) (x : GrantView) : Option (Obdo × GrantView) :=
  if oa.flBlocks && oa.flGrant then
    let oa := obdoClaims lut env oa
    let x' := (x.setDirty (believedDirty oa chunk x.ted)).giveBack (believedDropped oa x)
    if x'.isBad then none else some (oa, x')
  else some ({ oa with flGrant := false }, x)

def tgtGrantShrink (oa : Obdo) (leftSpace : U64) (x : GrantView) : Obdo × GrantView :=
  -- TGT_GRANT_SHRINK_LIMIT
  if x.tgd.tgdTotGrantedClients.signExtend 64 * (2 * 8 * env.expMaxBrwSize) ≤ leftSpace then (oa, x)
  else ({ oa with oGrant := 0 }, x.giveBack oa.oGrant)

/-- `tgt_grant_rnb_size`, where `exp` is what `exp_grant_param_supp` says of the export if
there is one. -/
def tgtGrantRnbSize (exp : Option Bool) (rnb : NiobufRemote) : U64 :=
  let blk := if exp = some false ∧ 12 < lut.tgdBlockbits then (1 : U64) <<< 12 else blksize lut
  let bytes := (rnb.rnbOffset &&& (blk - 1)) + rnb.rnbLen.setWidth 64
  let last := bytes &&& (blk - 1)
  let bytes := if last = 0 then bytes else bytes + (blk - last)
  if exp = some false then tgtGrantInflate lut bytes
  else
    let maxExt := blk * BitVec.ofNat 64 lut.ddpMaxExtentBlks
    let nrExt := ((bytes + maxExt - 1) / maxExt).setWidth 32
    bytes + (nrExt * lut.ddpExtentTax).setWidth 64

/-- A `u64` stored in an `int` and read as an `unsigned long`. -/
def throughInt (v : U64) : U64 := (v.setWidth 32).signExtend 64

/-- The variables of `tgt_grant_check`. -/
structure GrantTally where
  granted : U64
  ungranted : U64
  /-- `*left` -/
  left : U64
  deriving DecidableEq

/-- What `tgt_grant_check` makes of `o_grant_used`, and `skip`. -/
def grantClaim (oa : Obdo) (ted : TgExportData) (left : U64) : Bool × GrantTally :=
  if env.obdRecovering then (true, ⟨0, 0, left⟩)
  else if oa.flFlags && oa.recovResend then (true, ⟨0, 0, left⟩)
  else if env.grantParamSupp ∧ 0 < oa.oGrantUsed then
    if oa.oGrantUsed ≤ ted.tedGrant then (true, ⟨oa.oGrantUsed, 0, left⟩)
    else
      let gap := oa.oGrantUsed - ted.tedGrant
      if gap < left then (true, ⟨ted.tedGrant, gap, left - gap⟩) else (false, ⟨0, 0, left⟩)
  else (false, ⟨0, 0, left⟩)

/-- Space for a network buffer out of the free space. -/
def grantServer (t : GrantTally) (rnb : NiobufRemote) : GrantTally × NiobufRemote :=
  let bytes := throughInt (tgtGrantRnbSize lut none rnb)
  if bytes < t.left then
    (⟨t.granted, t.ungranted + bytes, t.left - bytes⟩, { rnb with granted := true })
  else (t, { rnb with granted := false })

/-- One round of the loop of `tgt_grant_check`. -/
def grantBuffer (ted : TgExportData) (skip : Bool) (t : GrantTally) (rnb : NiobufRemote) :
    GrantTally × NiobufRemote :=
  if rnb.fromGrant then
    if skip then (t, { rnb with granted := true })
    else
      let bytes := throughInt (tgtGrantRnbSize lut (some env.grantParamSupp) rnb)
      if t.granted + bytes ≤ ted.tedGrant then
        ({ t with granted := t.granted + bytes }, { rnb with granted := true })
      else grantServer lut t rnb
  else grantServer lut t rnb

/-- The loop of `tgt_grant_check`. -/
def grantBuffers (lut : GrantTarget) (env : GrantEnv) (ted : TgExportData) (skip : Bool) :
    GrantTally → List NiobufRemote → GrantTally × List NiobufRemote
  | t, [] => (t, [])
  | t, rnb :: rest =>
    let r := grantBuffer lut env ted skip t rnb
    let q := grantBuffers lut env ted skip r.1 rest
    (q.1, r.2 :: q.2)

/-- The sums of `tgt_grant_check`, and its buffers. -/
def grantTally (oa : Obdo) (rnbs : List NiobufRemote) (left : U64) (ted : TgExportData) :
    GrantTally × List NiobufRemote :=
  let claim := grantClaim env oa ted left
  grantBuffers lut env ted claim.1 claim.2 rnbs

/-- The dirty data that a write of `granted` cleans. -/
def cleanedDirty (ted : TgExportData) (granted : U64) : U64 :=
  if ted.tedDirty < granted then ted.tedDirty else granted

/-- `tgt_grant_check`: the `obdo`, the buffers, and what is left. -/
def tgtGrantCheck (oa : Obdo) (rnbs : List NiobufRemote) (left : U64) (x : GrantView) :
    Option (Obdo × List NiobufRemote × U64 × GrantView) :=
  let q := grantTally lut env oa rnbs left x.ted
  let oa := { oa with oGrantUsed := q.1.granted + q.1.ungranted }
  let x := x.reserve q.1.granted q.1.ungranted
  if env.obdRecovering || !oa.flGrant then some (oa, q.2, q.1.left, x)
  else
    let x := x.clean (cleanedDirty x.ted q.1.granted)
    if x.isBad then none else some (oa, q.2, q.1.left, x)

/-- How much `tgt_grant_alloc` would like to grant before it looks at the chunk. -/
def allocWish (curgrant want left : U64) (conservative : Bool) : U64 :=
  let left := if conservative then left >>> 3 else left
  let grant := if want - curgrant < left then want - curgrant else left
  -- round grant up to the next block size
  (grant + blksize lut - 1) &&& ~~~(blksize lut - 1)

/-- The limits of `tgt_grant_alloc`. -/
def allocLimit (ted : TgExportData) (want chunk grant : U64) (conservative : Bool) : U64 :=
  let grant := if chunk < grant && conservative then chunk else grant
  if want + chunk < ted.tedGrant + grant then want + chunk - ted.tedGrant else grant

def tgtGrantAlloc (curgrant want left chunk : U64) (conservative : Bool) (x : GrantView) :
    Option (U64 × GrantView) :=
  if (!env.isSelf && !env.grantParamSupp && env.tgdGrantCompatDisable) || left = 0 ||
      env.expFailed then some (0, x)
  else if obdMaxGrant < want then some (0, x)
  else if want ≤ curgrant ∨ x.ted.tedGrant + chunk ≤ curgrant then some (0, x)
  else
    let conservative := conservative && !env.obdRecovering
    let grant := allocWish lut curgrant want left conservative
    if grant = 0 then some (0, x)
    else
      let grant := allocLimit x.ted want chunk grant conservative
      let x := x.grant grant
      if x.ted.tedGrant.toInt < 0 then none else some (grant, x)

/-! ## The requests -/

/-- `struct obd_connect_data`, as far as grants are concerned. -/
structure ObdConnectData where
  /-- `OBD_CONNECT_RDONLY` -/
  rdonly : Bool
  /-- `OBD_CONNECT_GRANT` -/
  grant : Bool
  /-- `OBD_CONNECT_GRANT_PARAM` -/
  grantParam : Bool
  ocdGrant : BitVec 32
  deriving DecidableEq

/-- `tgt_grant_connect` from the last statfs on, which was answered from the cache where
`fromCache` says so; without data it goes back for fresh ones. -/
def tgtGrantConnect (data : ObdConnectData) (newConn fromCache : Bool) (x : GrantView) :
    Option (Option ObdConnectData × GrantView) :=
  if data.rdonly || !data.grantParam && env.tgdGrantCompatDisable then
    some (some { data with ocdGrant := 0, grant := false, grantParam := false }, x)
  else
    let claim := data.ocdGrant.setWidth 64
    let want := if data.grantParam then claim else tgtGrantInflate lut claim
    let chunk := tgtGrantChunk lut env data.grantParam
    let left := tgtGrantSpaceLeft lut env x.tgd
    if fromCache ∧ left < 32 * chunk then some (none, x)
    else
      (tgtGrantAlloc lut env x.ted.tedGrant want left chunk newConn x).map fun r =>
        let x := r.2
        let ocdGrant :=
          if data.grantParam then x.ted.tedGrant else tgtGrantDeflate lut x.ted.tedGrant
        let x := x.clean x.ted.tedDirty
        let clients := if newConn && data.grant then x.tgd.tgdTotGrantedClients + 1
          else x.tgd.tgdTotGrantedClients
        (some { data with ocdGrant := ocdGrant.setWidth 32 },
          { x with tgd := { x.tgd with tgdTotGrantedClients := clients } })

def tgtGrantDiscard : Option GrantView :=
  if x.ted.tedGrant ≤ x.tgd.tgdTotGranted then
    let x := x.giveBack x.ted.tedGrant
    if x.ted.tedPending ≤ x.tgd.tgdTotPending ∧ x.ted.tedDirty ≤ x.tgd.tgdTotDirty then
      some (x.clean x.ted.tedDirty)
    else none
  else none

/-- The end of a prepare: the grant that is returned is deflated for old clients. -/
def obdoReply (oa : Obdo) : Obdo :=
  if env.grantParamSupp then oa else { oa with oGrant := tgtGrantDeflate lut oa.oGrant }

/-- The request asks to shrink the grant. -/
def Obdo.wantsShrink (oa : Obdo) : Bool := oa.flFlags && oa.shrinkGrant

/-- `tgt_grant_prepare_read` of a request with an `obdo` -/
def tgtGrantPrepareRead (oa : Obdo) (x : GrantView) : Option (Obdo × GrantView) :=
  if !oa.flGrant then some (oa, x)
  else
    let left := tgtGrantSpaceLeft lut env x.tgd
    (tgtGrantIncoming lut env oa (tgtGrantChunk lut env env.grantParamSupp) x).map fun r =>
      let r := if oa.wantsShrink then tgtGrantShrink env r.1 left r.2
        else ({ r.1 with oGrant := 0 }, r.2)
      (obdoReply lut env r.1, r.2)

/-- The end of `tgt_grant_prepare_write`, after `tgt_grant_check`. -/
def grantReturn (oa : Obdo) (left chunk : U64) (x : GrantView) : Option (Obdo × GrantView) :=
  if !oa.flGrant then some (oa, x)
  else if oa.wantsShrink then
    let r := tgtGrantShrink env oa left x
    some (obdoReply lut env r.1, r.2)
  else
    (tgtGrantAlloc lut env oa.oGrant (oa.oUndirty.setWidth 64) left chunk true x).map fun r =>
      (obdoReply lut env { oa with oGrant := r.1 }, r.2)

/-- `tgt_grant_prepare_write` from the last statfs on; without an `obdo` it goes back for
fresh statfs data, after a sync where `force` is not two. -/
def tgtGrantPrepareWrite (oa : Obdo) (rnbs : List NiobufRemote) (force : ℕ) (fromCache : Bool)
    (x : GrantView) :
    Option (Option (Obdo × List NiobufRemote) × GrantView) :=
  let chunk := tgtGrantChunk lut env env.grantParamSupp
  let left := tgtGrantSpaceLeft lut env x.tgd
  if fromCache ∧ left < 32 * chunk then some (none, x)
  else if !env.obdRecovering ∧ force ≠ 2 ∧ left < chunk ∧ rnbs.any (!·.fromGrant) then
    some (none, x)
  else
    (tgtGrantIncoming lut env oa chunk x).bind fun r =>
    (tgtGrantCheck lut env r.1 rnbs left r.2).bind fun q =>
    (grantReturn lut env q.1 q.2.2.1 chunk q.2.2.2).map fun p => (some (p.1, q.2.1), p.2)

/-- The space for `nr` objects that `tgt_grant_create` takes, and the number of objects;
`none` is `-ENOSPC`. -/
def createWanted (nr grant left : U64) : Option (U64 × U64) :=
  let inodespace := BitVec.ofNat 64 lut.ddpInodespace
  let wanted := nr * inodespace
  if grant + left < wanted then
    let nr := (grant + left) / inodespace
    if nr = 0 then none else some (nr * inodespace, nr)
  else some (wanted, nr)

/-- The end of `tgt_grant_create`, which takes `granted` of the export's grant and the rest
of `wanted` from the free space, and books more space for the next requests. -/
def grantPrecreate (wanted granted left : U64) (x : GrantView) : Option GrantView :=
  let x := x.reserve granted (wanted - granted)
  let left := left - (wanted - granted)
  let more := precreateSpace lut
  if x.ted.tedGrant < more then
    (tgtGrantAlloc lut env x.ted.tedGrant (more - x.ted.tedGrant) left
      (tgtGrantChunk lut env env.grantParamSupp) false x).map Prod.snd
  else some x

/-- `tgt_grant_create`: the space granted and the number of objects, without them it is
`-ENOSPC`. -/
def tgtGrantCreate (nr : U64) (x : GrantView) : Option (Option (U64 × U64) × GrantView) :=
  if env.obdRecovering ∨ lut.ddpInodespace = 0 then some (some (0, nr), x)
  else if x.tgd.osBavail - x.ted.tedGrant.sshiftRight lut.tgdBlockbits < x.tgd.osBlocks >>> 10 then
    some (none, x)
  else
    let left := tgtGrantSpaceLeft lut env x.tgd
    match createWanted lut nr x.ted.tedGrant left with
    | none => some (none, x)
    | some (wanted, nr) =>
      if x.ted.tedGrant + left < wanted then none
      else
        (grantPrecreate lut env wanted (if wanted ≤ x.ted.tedGrant then wanted else x.ted.tedGrant)
          left x).map fun x => (some (wanted, nr), x)

def tgtGrantCommit (pending : U64) (rc : ℤ) (x : GrantView) : Option GrantView :=
  if pending = 0 then some x
  else
    let written := pending >>> lut.tgdBlockbits
    let osBavail := if rc = 0 then
        x.tgd.osBavail - (if x.tgd.osBavail < written then x.tgd.osBavail else written)
      else x.tgd.osBavail
    if x.ted.tedPending < pending ∨ x.tgd.tgdTotGranted < pending ∨
        x.tgd.tgdTotPending < pending then none
    else
      let x := x.release pending
      some { x with tgd := { x.tgd with osBavail } }

/-! ## Runs over the exports of a target -/

/-- The counters of a target with exports `ι`. -/
structure GrantSystem (ι : Type*) where
  /-- those of the exports -/
  exports : ι → TgExportData
  /-- those of the target -/
  tgd : TgGrantsData
  /-- what prepares and creates of an export have returned and is not yet committed -/
  owed : ι → List U64

/-- A step of a target. The functions run under `tgd_grant_lock`, from the last time they
take it; what they read beside the counters is an input. -/
inductive GrantOp (ι : Type*) where
  /-- `tgt_grant_connect` -/
  | connect (e : ι) (env : GrantEnv) (data : ObdConnectData) (newConn fromCache : Bool)
  /-- `tgt_grant_prepare_read` -/
  | prepareRead (e : ι) (env : GrantEnv) (oa : Obdo)
  /-- `tgt_grant_prepare_write` -/
  | prepareWrite (e : ι) (env : GrantEnv) (oa : Obdo) (rnbs : List NiobufRemote) (force : ℕ)
      (fromCache : Bool)
  /-- `tgt_grant_create` -/
  | create (e : ι) (env : GrantEnv) (nr : U64)
  /-- `tgt_grant_commit` -/
  | commit (e : ι) (pending : U64) (rc : ℤ)
  /-- `tgt_grant_discard` -/
  | discard (e : ι)
  /-- `tgt_statfs_internal` gets fresh data -/
  | statfs (osBavail osBlocks : U64)
  /-- a client with grants is gone -/
  | clientGone

section Runs

variable {ι : Type*} [DecidableEq ι]

namespace GrantSystem

/-- A target without grants. -/
def start (osBavail osBlocks : U64) : GrantSystem ι where
  exports := fun _ => ⟨0, 0, 0⟩
  tgd := ⟨0, 0, 0, 0, osBavail, osBlocks⟩
  owed := fun _ => []

/-- The counters that a request of `e` works on. -/
def view (s : GrantSystem ι) (e : ι) : GrantView := ⟨s.exports e, s.tgd⟩

/-- The counters of `e` and of the target are written. -/
def write (s : GrantSystem ι) (e : ι) (x : GrantView) : GrantSystem ι :=
  { s with exports := Function.update s.exports e x.ted, tgd := x.tgd }

/-- `amounts` are to be committed for `e`. -/
def owe (s : GrantSystem ι) (e : ι) (amounts : List U64) : GrantSystem ι :=
  { s with owed := Function.update s.owed e (amounts ++ s.owed e) }

/-- `amount` is committed for `e`. -/
def settle (s : GrantSystem ι) (e : ι) (amount : U64) : GrantSystem ι :=
  { s with owed := Function.update s.owed e ((s.owed e).erase amount) }

end GrantSystem

/-- One step of a target whose self export is `self`. -/
def grantStep (lut : GrantTarget) (self : ι) (s : GrantSystem ι) :
    GrantOp ι → Option (GrantSystem ι)
  | .connect e env data newConn fromCache =>
    (tgtGrantConnect lut { env with isSelf := decide (e = self) } data newConn fromCache
      (s.view e)).map fun r => s.write e r.2
  | .prepareRead e env oa =>
    (tgtGrantPrepareRead lut { env with isSelf := decide (e = self) } oa (s.view e)).map fun r =>
      s.write e r.2
  | .prepareWrite e env oa rnbs force fromCache =>
    (tgtGrantPrepareWrite lut { env with isSelf := decide (e = self) } oa rnbs force fromCache
      (s.view e)).map fun r =>
        (s.write e r.2).owe e (r.1.map fun p => p.1.oGrantUsed).toList
  | .create e env nr =>
    (tgtGrantCreate lut { env with isSelf := decide (e = self) } nr (s.view e)).map fun r =>
      (s.write e r.2).owe e (r.1.map Prod.fst).toList
  | .commit e pending rc =>
    (tgtGrantCommit lut pending rc (s.view e)).map fun x => (s.write e x).settle e pending
  | .discard e => (tgtGrantDiscard (s.view e)).map fun x => s.write e x
  | .statfs osBavail osBlocks => some { s with tgd := { s.tgd with osBavail, osBlocks } }
  | .clientGone =>
    some { s with tgd := { s.tgd with
      tgdTotGrantedClients := s.tgd.tgdTotGrantedClients - 1 } }

/-- A commit is of an amount that a prepare or a create of the export has returned. -/
def GrantUse (s : GrantSystem ι) : GrantOp ι → Prop
  | .commit e pending _ => pending ∈ s.owed e
  | _ => True

instance (s : GrantSystem ι) (op : GrantOp ι) : Decidable (GrantUse s op) := by
  cases op <;> dsimp only [GrantUse] <;> infer_instance

/-! ## The totals are sums -/

/-- The totals are the sums of the exports' counters, as 64-bit words. -/
structure GrantSystem.Balanced [Fintype ι] (s : GrantSystem ι) : Prop where
  /-- `tgd_tot_granted` -/
  granted : s.tgd.tgdTotGranted = ∑ e, ((s.exports e).tedGrant + (s.exports e).tedPending)
  /-- `tgd_tot_pending` -/
  pending : s.tgd.tgdTotPending = ∑ e, (s.exports e).tedPending
  /-- `tgd_tot_dirty` -/
  dirty : s.tgd.tgdTotDirty = ∑ e, (s.exports e).tedDirty

end Runs

/-- The parts of the totals that are not of the export. -/
structure GrantView.SameOthers (x y : GrantView) : Prop where
  granted : y.tgd.tgdTotGranted - (y.ted.tedGrant + y.ted.tedPending) =
    x.tgd.tgdTotGranted - (x.ted.tedGrant + x.ted.tedPending)
  pending : y.tgd.tgdTotPending - y.ted.tedPending = x.tgd.tgdTotPending - x.ted.tedPending
  dirty : y.tgd.tgdTotDirty - y.ted.tedDirty = x.tgd.tgdTotDirty - x.ted.tedDirty

namespace GrantView

theorem SameOthers.refl (x : GrantView) : SameOthers x x := ⟨rfl, rfl, rfl⟩

theorem SameOthers.trans {x y z : GrantView} (hxy : SameOthers x y) (hyz : SameOthers y z) :
    SameOthers x z :=
  ⟨hyz.granted.trans hxy.granted, hyz.pending.trans hxy.pending, hyz.dirty.trans hxy.dirty⟩

section

variable (x : GrantView)

theorem sameOthers_setDirty (dirty : U64) : SameOthers x (x.setDirty dirty) where
  granted := rfl
  pending := rfl
  dirty := by
    change x.tgd.tgdTotDirty + (dirty - x.ted.tedDirty) - dirty = _
    ring

theorem sameOthers_clean (amount : U64) : SameOthers x (x.clean amount) where
  granted := rfl
  pending := rfl
  dirty := sub_sub_sub_cancel_right ..

theorem sameOthers_giveBack (amount : U64) : SameOthers x (x.giveBack amount) where
  granted := by
    change x.tgd.tgdTotGranted - amount - (x.ted.tedGrant - amount + x.ted.tedPending) = _
    ring
  pending := rfl
  dirty := rfl

theorem sameOthers_grant (amount : U64) : SameOthers x (x.grant amount) where
  granted := by
    change x.tgd.tgdTotGranted + amount - (x.ted.tedGrant + amount + x.ted.tedPending) = _
    ring
  pending := rfl
  dirty := rfl

theorem sameOthers_reserve (granted ungranted : U64) :
    SameOthers x (x.reserve granted ungranted) where
  granted := by
    change x.tgd.tgdTotGranted + ungranted -
      (x.ted.tedGrant - granted + (x.ted.tedPending + (granted + ungranted))) = _
    ring
  pending := add_sub_add_right_eq_sub ..
  dirty := rfl

theorem sameOthers_release (pending : U64) : SameOthers x (x.release pending) where
  granted := by
    change x.tgd.tgdTotGranted - pending - (x.ted.tedGrant + (x.ted.tedPending - pending)) = _
    ring
  pending := sub_sub_sub_cancel_right ..
  dirty := rfl

end

end GrantView

variable {r : Obdo × GrantView} {oa : Obdo}

section Conserved

open GrantView

variable {lut : GrantTarget} {env : GrantEnv} {x : GrantView}

theorem tgtGrantIncoming_sameOthers {chunk : U64}
    (h : tgtGrantIncoming lut env oa chunk x = some r) : SameOthers x r.2 := by
  rw [tgtGrantIncoming] at h
  split at h
  · dsimp only at h
    split at h
    · cases h
    · cases h
      exact (sameOthers_setDirty x _).trans (sameOthers_giveBack _ _)
  · cases h
    exact .refl x

theorem tgtGrantShrink_sameOthers (oa : Obdo) (left : U64) :
    SameOthers x (tgtGrantShrink env oa left x).2 := by
  rw [tgtGrantShrink]
  split
  · exact .refl x
  · exact sameOthers_giveBack x _

theorem tgtGrantCheck_sameOthers {rnbs : List NiobufRemote} {left : U64}
    {r : Obdo × List NiobufRemote × U64 × GrantView}
    (h : tgtGrantCheck lut env oa rnbs left x = some r) : SameOthers x r.2.2.2 := by
  rw [tgtGrantCheck] at h
  dsimp only at h
  split at h
  · cases h
    exact sameOthers_reserve x _ _
  · split at h
    · cases h
    · cases h
      exact (sameOthers_reserve x _ _).trans (sameOthers_clean _ _)

theorem tgtGrantAlloc_sameOthers {curgrant want left chunk : U64} {conservative : Bool}
    {r : U64 × GrantView}
    (h : tgtGrantAlloc lut env curgrant want left chunk conservative x = some r) :
    SameOthers x r.2 := by
  have hsame : ∀ {v : U64}, some (v, x) = some r → SameOthers x r.2 := by
    intro v hv
    cases hv
    exact .refl x
  rw [tgtGrantAlloc] at h
  dsimp only at h
  split at h
  · exact hsame h
  split at h
  · exact hsame h
  split at h
  · exact hsame h
  split at h
  · exact hsame h
  split at h
  · cases h
  · cases h
    exact sameOthers_grant x _

theorem tgtGrantConnect_sameOthers {data : ObdConnectData} {newConn fromCache : Bool}
    {r : Option ObdConnectData × GrantView}
    (h : tgtGrantConnect lut env data newConn fromCache x = some r) : SameOthers x r.2 := by
  rw [tgtGrantConnect] at h
  dsimp only at h
  split at h
  · cases h
    exact .refl x
  split at h
  · cases h
    exact .refl x
  · obtain ⟨q, hq, rfl⟩ := map_eq_some_iff.mp h
    exact (tgtGrantAlloc_sameOthers hq).trans { sameOthers_clean q.2 q.2.ted.tedDirty with }

theorem tgtGrantDiscard_sameOthers {r : GrantView} (h : tgtGrantDiscard x = some r) :
    SameOthers x r := by
  rw [tgtGrantDiscard] at h
  split at h
  · dsimp only at h
    split at h
    · cases h
      exact (sameOthers_giveBack x _).trans (sameOthers_clean _ _)
    · cases h
  · cases h

theorem tgtGrantPrepareRead_sameOthers
    (h : tgtGrantPrepareRead lut env oa x = some r) : SameOthers x r.2 := by
  rw [tgtGrantPrepareRead] at h
  split at h
  · cases h
    exact .refl x
  · obtain ⟨q, hq, rfl⟩ := map_eq_some_iff.mp h
    refine (tgtGrantIncoming_sameOthers hq).trans ?_
    split
    · exact tgtGrantShrink_sameOthers ..
    · exact .refl _

theorem grantReturn_sameOthers {left chunk : U64}
    (h : grantReturn lut env oa left chunk x = some r) : SameOthers x r.2 := by
  rw [grantReturn] at h
  split at h
  · cases h
    exact .refl x
  split at h
  · cases h
    exact tgtGrantShrink_sameOthers ..
  · obtain ⟨q, hq, rfl⟩ := map_eq_some_iff.mp h
    exact tgtGrantAlloc_sameOthers hq

theorem tgtGrantPrepareWrite_sameOthers {rnbs : List NiobufRemote} {force : ℕ}
    {fromCache : Bool} {r : Option (Obdo × List NiobufRemote) × GrantView}
    (h : tgtGrantPrepareWrite lut env oa rnbs force fromCache x = some r) : SameOthers x r.2 := by
  rw [tgtGrantPrepareWrite] at h
  split at h
  · cases h
    exact .refl x
  split at h
  · cases h
    exact .refl x
  · obtain ⟨q, hq, h⟩ := Option.bind_eq_some_iff.mp h
    obtain ⟨p, hp, h⟩ := Option.bind_eq_some_iff.mp h
    obtain ⟨t, ht, rfl⟩ := map_eq_some_iff.mp h
    exact ((tgtGrantIncoming_sameOthers hq).trans (tgtGrantCheck_sameOthers hp)).trans
      (grantReturn_sameOthers ht)

theorem grantPrecreate_sameOthers {wanted granted left : U64} {r : GrantView}
    (h : grantPrecreate lut env wanted granted left x = some r) : SameOthers x r := by
  rw [grantPrecreate] at h
  split at h
  · obtain ⟨q, hq, rfl⟩ := map_eq_some_iff.mp h
    exact (sameOthers_reserve x _ _).trans (tgtGrantAlloc_sameOthers hq)
  · cases h
    exact sameOthers_reserve x _ _

theorem tgtGrantCreate_sameOthers {nr : U64} {r : Option (U64 × U64) × GrantView}
    (h : tgtGrantCreate lut env nr x = some r) : SameOthers x r.2 := by
  rw [tgtGrantCreate] at h
  dsimp only at h
  split at h
  · cases h
    exact .refl x
  split at h
  · cases h
    exact .refl x
  split at h
  · cases h
    exact .refl x
  split at h
  · cases h
  · obtain ⟨q, hq, rfl⟩ := map_eq_some_iff.mp h
    exact grantPrecreate_sameOthers hq

theorem tgtGrantCommit_sameOthers {pending : U64} {rc : ℤ} {r : GrantView}
    (h : tgtGrantCommit lut pending rc x = some r) : SameOthers x r := by
  rw [tgtGrantCommit] at h
  dsimp only at h
  split at h
  · cases h
    exact .refl x
  split at h
  · cases h
  · cases h
    exact { sameOthers_release x pending with }

end Conserved

open GrantSystem

section Conserved

variable {ι : Type*} [Fintype ι]

theorem GrantSystem.balanced_start (osBavail osBlocks : U64) :
    (start osBavail osBlocks : GrantSystem ι).Balanced where
  granted := (Finset.sum_eq_zero fun _ _ => rfl).symm
  pending := (Finset.sum_eq_zero fun _ _ => rfl).symm
  dirty := (Finset.sum_eq_zero fun _ _ => rfl).symm

variable [DecidableEq ι]

/-- What a request does to its export and the totals keeps the totals the sums. -/
theorem GrantSystem.Balanced.write {s : GrantSystem ι} (h : s.Balanced) {e : ι} {x : GrantView}
    (hx : (s.view e).SameOthers x) : (s.write e x).Balanced where
  granted := Ledger.total_update (fun t : TgExportData => t.tedGrant + t.tedPending) s.exports e
    x.ted h.granted (sub_eq_sub_iff_add_eq_add.mp hx.granted)
  pending := Ledger.total_update TgExportData.tedPending s.exports e x.ted h.pending
    (sub_eq_sub_iff_add_eq_add.mp hx.pending)
  dirty := Ledger.total_update TgExportData.tedDirty s.exports e x.ted h.dirty
    (sub_eq_sub_iff_add_eq_add.mp hx.dirty)

theorem grantStep_balanced {lut : GrantTarget} {self : ι} {s s' : GrantSystem ι}
    {op : GrantOp ι} (h : s.Balanced) (hs : grantStep lut self s op = some s') : s'.Balanced := by
  cases op with
  | connect e env data newConn fromCache =>
    obtain ⟨r, hr, rfl⟩ := map_eq_some_iff.mp hs
    exact h.write (tgtGrantConnect_sameOthers hr)
  | prepareRead e env oa =>
    obtain ⟨r, hr, rfl⟩ := map_eq_some_iff.mp hs
    exact h.write (tgtGrantPrepareRead_sameOthers hr)
  | prepareWrite e env oa rnbs force fromCache =>
    obtain ⟨r, hr, rfl⟩ := map_eq_some_iff.mp hs
    exact { h.write (tgtGrantPrepareWrite_sameOthers hr) with }
  | create e env nr =>
    obtain ⟨r, hr, rfl⟩ := map_eq_some_iff.mp hs
    exact { h.write (tgtGrantCreate_sameOthers hr) with }
  | commit e pending rc =>
    obtain ⟨x, hx, rfl⟩ := map_eq_some_iff.mp hs
    exact { h.write (tgtGrantCommit_sameOthers hx) with }
  | discard e =>
    obtain ⟨x, hx, rfl⟩ := map_eq_some_iff.mp hs
    exact h.write (tgtGrantDiscard_sameOthers hx)
  | statfs osBavail osBlocks | clientGone =>
    cases hs
    exact { h with }

/-- In every run of a target, with any number of exports and any claims of the clients, the
totals are the sums of the exports' counters. -/
theorem grant_conserved (lut : GrantTarget) (self : ι) (osBavail osBlocks : U64) {s : GrantSystem ι}
    (h : Reach (grantStep lut self) GrantUse (start osBavail osBlocks) s) :
    s.Balanced :=
  h.invariant GrantSystem.Balanced (balanced_start osBavail osBlocks)
    fun _ _ _ hs _ hstep => grantStep_balanced hs hstep

end Conserved
/-- A target with blocks of 4 KiB. -/
def smallTarget : GrantTarget where
  tgdBlockbits := 12
  tgdBlockbits_lt := by decide
  ddpInodespace := 256
  ddpInodespace_lt := by decide
  ddpMaxExtentBlks := 256
  ddpMaxExtentBlks_pos := by decide
  ddpMaxExtentBlks_lt := by decide
  ddpExtentTax := 24576

/-- A client with the grant parameters and RPCs of 1 MiB. -/
def smallClient : GrantEnv where
  isSelf := false
  grantParamSupp := true
  expMaxBrwSize := 1048576
  expFailed := false
  obdRecovering := false
  tgdGrantCompatDisable := false
  tgdReservedPcnt := 0

/-- A write of one page that uses `used` of the grant. -/
def smallWrite (used : U64) : Obdo := ⟨true, true, true, false, false, 4096, 8192, 0, 65536, used⟩

/-- A client connects and writes, objects are created, and the write is committed. -/
theorem grant_conserved_two : ∃ s : GrantSystem (Fin 2),
    Reach (grantStep smallTarget 1) GrantUse (start 100000 200000) s ∧
      (s.exports 0).tedPending = 0 ∧ (s.exports 1).tedPending = 5120 ∧ s.Balanced := by
  obtain ⟨s, hs, hzero, hone⟩ : ∃ s : GrantSystem (Fin 2),
      Reach (grantStep smallTarget 1) GrantUse (start 100000 200000) s ∧
        (s.exports 0).tedPending = 0 ∧ (s.exports 1).tedPending = 5120 :=
    exists_reach [.connect 0 smallClient ⟨false, true, true, 1048576⟩ true false,
      .prepareWrite 0 smallClient (smallWrite 4096) [⟨0, 4096, true, false⟩] 0 false,
      .create 1 smallClient 20, .commit 0 4096 0] (by decide +kernel)
  exact ⟨s, hs, hzero, hone, grant_conserved smallTarget 1 100000 200000 hs⟩

end Lustre
