import Lustre.Run
import Mathlib.Algebra.Group.Nat.Defs
import Mathlib.Data.Finset.Erase
import Mathlib.Data.Finset.Insert

/-!
# Reply data of a target

A target keeps a record of each reply in a slot of the file `reply_data` until the client has
received it, to answer a request again that is resent. The reply with the greatest transaction
number of an export is retained after that, because the last committed transaction of the client is
found from it when the target restarts. Which one that is, `tgt_release_reply_data` decides by a
comparison with `lcd_last_transno`.

`TedReplies.Keeps` says that this field is the greatest transaction number and that a reply which
has it is there. A failed `tgt_add_reply_data` and a restart change the field and the replies apart
from each other, so they are conditions (`ReplyDataOk`); at a restart the field comes from the file
`last_rcvd`, and what is in `reply_data` does not correct it (`reply_data_forgotten`).
-/

namespace Lustre

open List
open Function (update update_of_ne)

/-! ## The target -/

/-- `struct lsd_reply_data`, as far as slots are concerned. -/
structure LsdReplyData where
  /-- `lrd_transno` -/
  transno : ℕ
  /-- `lrd_xid` -/
  xid : ℕ
  /-- `lrd_client_gen` -/
  clientGen : ℕ
  deriving DecidableEq

structure TgReplyData where
  /-- `trd_reply` -/
  reply : LsdReplyData
  /-- `trd_index`: the slot -/
  index : ℕ
  /-- `trd_tag` -/
  tag : ℕ
  /-- the slot has been written -/
  written : Bool
  deriving DecidableEq

/-- `struct lsd_client_data`, as far as replies are concerned. -/
structure LsdClientData where
  /-- `lcd_generation` -/
  generation : ℕ
  /-- `lcd_last_transno` -/
  lastTransno : ℕ
  deriving DecidableEq

/-- The replies of `struct tg_export_data`, and `exp_last_committed`. -/
structure TedReplies where
  /-- `ted_lcd` -/
  lcd : LsdClientData
  /-- `ted_reply_list` -/
  replyList : List TgReplyData
  /-- `ted_reply_last` -/
  replyLast : Option TgReplyData
  /-- `exp_last_committed` -/
  lastCommitted : ℕ
  /-- the transaction numbers of all replies that were ever added -/
  added : List ℕ
  deriving DecidableEq

variable (ted : TedReplies) (st : Finset ℕ × TedReplies) (s : LuTarget)

/-- The replies that an export has. -/
def TedReplies.held : List TgReplyData :=
  ted.replyLast.toList ++ ted.replyList

/-- The two files. -/
structure TgtDisk where
  /-- `last_rcvd`: the records of the clients -/
  lastRcvd : List LsdClientData
  /-- `reply_data`: the slots -/
  replyData : List LsdReplyData
  deriving DecidableEq

/-- `struct lu_target`, as far as replies are concerned. -/
structure LuTarget where
  /-- the exports, by the generation of the client -/
  exports : ℕ → Option TedReplies
  /-- `lut_reply_bitmap`: the slots in use -/
  replyBitmap : Finset ℕ
  /-- `lut_client_generation` -/
  clientGeneration : ℕ
  /-- `lut_last_transno` -/
  lastTransno : ℕ
  disk : TgtDisk
  /-- what a crash would leave of them -/
  committed : TgtDisk

/-! ## Slots -/

/-- `LUT_REPLY_SLOTS_PER_CHUNK * LUT_REPLY_SLOTS_MAX_CHUNKS` -/
def lutReplySlots : ℕ := 2 ^ 20 * 16

/-- The first slot from `i` on that is not in use, among `n`. -/
def findZeroBit (bitmap : Finset ℕ) : ℕ → ℕ → Option ℕ
  | 0, _ => none
  | n + 1, i => if i ∈ bitmap then findZeroBit bitmap n (i + 1) else some i

/-- `tgt_find_free_reply_slot`; `nomem` if the bitmap of a chunk cannot be allocated. -/
def tgtFindFreeReplySlot (bitmap : Finset ℕ) (nomem : Bool) : Option ℕ :=
  if nomem then none else findZeroBit bitmap lutReplySlots 0

/-- `tgt_reply_data_write`: a record is written to a slot; a gap before it reads as zeros. -/
def tgtReplyDataWrite (file : List LsdReplyData) (i : ℕ) (lrd : LsdReplyData) : List LsdReplyData :=
  if i < file.length then file.set i lrd
  else file ++ replicate (i - file.length) ⟨0, 0, 0⟩ ++ [lrd]

/-! ## Adding and releasing -/

variable (trd : TgReplyData)

/-- `tgt_free_reply_data`, on the bitmap and an export. -/
def tgtFreeReplyData : Finset ℕ × TedReplies :=
  (st.1.erase trd.index, { st.2 with replyList := st.2.replyList.erase trd })

/-- The reply that was retained before is freed; it is on no list. -/
def freeReplyLast : Finset ℕ × TedReplies :=
  match st.2.replyLast with
  | some last => (st.1.erase last.index, { st.2 with replyLast := none })
  | none => st

/-- The reply is retained. -/
def retainReply : Finset ℕ × TedReplies :=
  (st.1, { st.2 with replyList := st.2.replyList.erase trd, replyLast := some trd })

def tgtReleaseReplyData : Finset ℕ × TedReplies :=
  if trd.reply.transno = st.2.lcd.lastTransno then retainReply (freeReplyLast st) trd
  else tgtFreeReplyData st trd

def tgtHandleReceivedXid (rcvdXid : ℕ) (st : Finset ℕ × TedReplies) : Finset ℕ × TedReplies :=
  st.2.replyList.foldl
    (fun st trd => if rcvdXid < trd.reply.xid then st else tgtReleaseReplyData st trd) st

def tgtHandleTag (tag : ℕ) (st : Finset ℕ × TedReplies) : Finset ℕ × TedReplies :=
  if tag = 0 then st
  else
    match st.2.replyList.find? fun trd => decide (trd.tag = tag) with
    | some trd => tgtReleaseReplyData st trd
    | none => st

/-- The replies of an export that goes away are freed (`tgt_client_free`). -/
def tgtClientFree : Finset ℕ × TedReplies :=
  freeReplyLast (st.2.replyList.foldl tgtReleaseReplyData st)

/-- The target with another export. -/
def LuTarget.setExport (gen : ℕ) (ted : Option TedReplies) : LuTarget :=
  { s with exports := update s.exports gen ted }

/-- Some replies of an export are released. -/
def LuTarget.release (gen : ℕ) (f : Finset ℕ × TedReplies → Finset ℕ × TedReplies) : LuTarget :=
  match s.exports gen with
  | none => s
  | some ted =>
    { s.setExport gen (some (f (s.replyBitmap, ted)).2) with
      replyBitmap := (f (s.replyBitmap, ted)).1 }

/-- The greatest transaction number of an export, when a reply is to be added. -/
def TedReplies.advance (transno : ℕ) : TedReplies :=
  if ted.lcd.lastTransno < transno then { ted with lcd := { ted.lcd with lastTransno := transno } }
  else ted

/-- A reply gets on the list of an export. -/
def TedReplies.push : TedReplies :=
  { ted with replyList := trd :: ted.replyList, added := trd.reply.transno :: ted.added }

/-- `tgt_add_reply_data`; `updateLrdFile` if the slot is to be written, and `writeFails` if that
fails. -/
def tgtAddReplyData (gen : ℕ) (ted : TedReplies) (xid transno tag : ℕ)
    (updateLrdFile nomem writeFails : Bool) : LuTarget :=
  let ted := ted.advance transno
  match tgtFindFreeReplySlot s.replyBitmap nomem with
  | none => s.setExport gen (some ted)
  | some i =>
    let s := { s with replyBitmap := insert i s.replyBitmap }
    if updateLrdFile && writeFails then s.setExport gen (some ted)
    else
      let lrd : LsdReplyData := ⟨transno, xid, gen⟩
      let s :=
        if updateLrdFile then
          { s with disk := { s.disk with
              replyData := tgtReplyDataWrite s.disk.replyData i lrd } }
        else s
      s.setExport gen (some (ted.push ⟨lrd, i, tag, updateLrdFile⟩))

/-! ## Restart -/

/-- An export as `tgt_clients_data_init` makes it. -/
def tgExportInit (lcd : LsdClientData) : TedReplies :=
  { lcd, replyList := [], replyLast := none, lastCommitted := lcd.lastTransno, added := [] }

/-- The export of a generation; generation 0 is not in the hash table. -/
def exportOf (lastRcvd : List LsdClientData) (gen : ℕ) : Option TedReplies :=
  if gen = 0 then none
  else (lastRcvd.find? fun lcd => decide (lcd.generation = gen)).map tgExportInit

/-- An export gets a reply from disk. -/
def TedReplies.restore : TedReplies :=
  { ted.push trd with lastCommitted := max ted.lastCommitted trd.reply.transno }

/-- One turn of the loop of `tgt_reply_data_init`; `none` if the slot is in use already. -/
def tgtReplyRestore (idx : ℕ) (lrd : LsdReplyData) : Option LuTarget :=
  match s.exports lrd.clientGen with
  -- old reply data from a disconnected client
  | none => some s
  | some ted =>
    if idx ∈ s.replyBitmap then none
    else some { s.setExport lrd.clientGen (some (ted.restore ⟨lrd, idx, 0, true⟩)) with
        replyBitmap := insert idx s.replyBitmap
        lastTransno := max s.lastTransno lrd.transno }

/-- The loop of `tgt_reply_data_init`. -/
def tgtReplyDataLoad (s : LuTarget) (idx : ℕ) : List LsdReplyData → Option LuTarget
  | [] => some s
  | lrd :: rest => (tgtReplyRestore s idx lrd).bind fun s => tgtReplyDataLoad s (idx + 1) rest

/-- What the target is like when `tgt_clients_data_init` is done. -/
def tgtClientsDataInit (disk : TgtDisk) : LuTarget :=
  { exports := exportOf disk.lastRcvd
    replyBitmap := ∅
    clientGeneration := disk.lastRcvd.foldl (fun g lcd => max g lcd.generation) 0
    lastTransno := disk.lastRcvd.foldl (fun t lcd => max lcd.lastTransno t) 0
    disk := disk
    committed := disk }

/-- A restart, from what was committed. -/
def tgtRestart : Option LuTarget :=
  tgtReplyDataLoad (tgtClientsDataInit s.committed) 0 s.committed.replyData

/-! ## Runs -/

/-- What happens to a target. -/
inductive TgtOp where
  /-- a new client (`tgt_client_new`) -/
  | connect
  /-- a reply is added -/
  | addReply (gen xid transno tag : ℕ) (updateLrdFile nomem writeFails : Bool)
  /-- a client says which replies it has received -/
  | receivedXid (gen rcvdXid : ℕ)
  /-- a client uses a tag again -/
  | handleTag (gen tag : ℕ)
  /-- the record of a client is written to `last_rcvd` (`tgt_client_epoch_update`) -/
  | clientUpdate (gen : ℕ)
  /-- a client goes away -/
  | disconnect (gen : ℕ)
  /-- what has been written is committed -/
  | commit
  /-- the target restarts -/
  | restart
  deriving DecidableEq

/-- A new client. -/
def tgtClientNew : LuTarget :=
  let lcd : LsdClientData := ⟨s.clientGeneration + 1, 0⟩
  { s.setExport lcd.generation
      (some { lcd, replyList := [], replyLast := none, lastCommitted := 0, added := [] }) with
    clientGeneration := s.clientGeneration + 1
    disk := { s.disk with lastRcvd := s.disk.lastRcvd ++ [lcd] } }

/-- The record of a client is written. -/
def tgtClientDataUpdate (gen : ℕ) : LuTarget :=
  match s.exports gen with
  | none => s
  | some ted =>
    { s with disk := { s.disk with
        lastRcvd := s.disk.lastRcvd.map fun lcd =>
          if lcd.generation = gen then ted.lcd else lcd } }

/-- A client goes away: its record is erased and its replies are freed. -/
def tgtClientDel (gen : ℕ) : LuTarget :=
  { (s.release gen tgtClientFree).setExport gen none with
    disk := { s.disk with
      lastRcvd := s.disk.lastRcvd.filter fun lcd => decide (lcd.generation ≠ gen) } }

/-- One step. -/
def tgtStep : TgtOp → Option LuTarget
  | .connect => some (tgtClientNew s)
  | .addReply gen xid transno tag updateLrdFile nomem writeFails =>
    some (match s.exports gen with
      | none => s
      | some ted => tgtAddReplyData s gen ted xid transno tag updateLrdFile nomem writeFails)
  | .receivedXid gen rcvdXid => some (s.release gen (tgtHandleReceivedXid rcvdXid))
  | .handleTag gen tag => some (s.release gen (tgtHandleTag tag))
  | .clientUpdate gen => some (tgtClientDataUpdate s gen)
  | .disconnect gen => some (tgtClientDel s gen)
  | .commit => some { s with committed := s.disk }
  | .restart => tgtRestart s

/-- In `last_rcvd` a client has the greatest transaction number that it has in `reply_data`. -/
def LcdMatches (disk : TgtDisk) (lcd : LsdClientData) : Prop :=
  (∀ lrd ∈ disk.replyData, lrd.clientGen = lcd.generation → lrd.transno ≤ lcd.lastTransno) ∧
    (lcd.lastTransno = 0 ∨
      ∃ lrd ∈ disk.replyData, lrd.clientGen = lcd.generation ∧ lrd.transno = lcd.lastTransno)
  deriving Decidable

/-- A reply that cannot be added does not have a new transaction number, and at a restart the two
files match. -/
def ReplyDataOk : TgtOp → Prop
  | .addReply gen _ transno _ updateLrdFile nomem writeFails =>
    (updateLrdFile && writeFails) = true ∨ tgtFindFreeReplySlot s.replyBitmap nomem = none →
      ∀ ted ∈ s.exports gen, transno ≤ ted.lcd.lastTransno
  | .restart => ∀ lcd ∈ s.committed.lastRcvd, LcdMatches s.committed lcd
  | .connect | .receivedXid _ _ | .handleTag _ _ | .clientUpdate _ | .disconnect _ | .commit =>
    True

instance (op : TgtOp) : Decidable (ReplyDataOk s op) := by
  cases op <;> dsimp only [ReplyDataOk] <;> infer_instance

/-- No exports yet. -/
def LuTarget.New : Prop := ∀ gen, s.exports gen = none

/-! ## The greatest one is kept -/

/-- The field that decides is the greatest transaction number, and a reply has it. -/
structure TedReplies.Keeps : Prop where
  le : ∀ transno ∈ ted.added, transno ≤ ted.lcd.lastTransno
  attained : ted.lcd.lastTransno = 0 ∨ ted.lcd.lastTransno ∈ ted.added
  top : ted.added ≠ [] → ∃ trd ∈ ted.held, trd.reply.transno = ted.lcd.lastTransno

open TgReplyData

/-- The slots of all exports. -/
structure LuTarget.Slots : Prop where
  /-- the replies of an export have different slots -/
  nodup : ∀ {gen ted}, s.exports gen = some ted → (ted.held.map index).Nodup
  apart : ∀ {gen gen' ted ted'}, s.exports gen = some ted → s.exports gen' = some ted' →
    gen ≠ gen' → ∀ trd ∈ ted.held, ∀ trd' ∈ ted'.held, trd.index ≠ trd'.index
  used : ∀ {gen ted}, s.exports gen = some ted → ∀ trd ∈ ted.held, trd.index ∈ s.replyBitmap
  written : ∀ {gen ted}, s.exports gen = some ted → ∀ trd ∈ ted.held, trd.written = true →
    s.disk.replyData[trd.index]? = some trd.reply

/-- What holds in every state. -/
structure LuTarget.Inv : Prop where
  keeps : ∀ {gen ted}, s.exports gen = some ted → ted.Keeps
  slots : s.Slots

variable {s s' : LuTarget} {gen : ℕ} {ted ted' : TedReplies} {trd : TgReplyData}
  {bitmap bitmap' : Finset ℕ}

/-! ### Releasing -/

/-- What a release does to the slots: an export has fewer replies, and only their slots are
cleared. -/
structure Shrinks (st st' : Finset ℕ × TedReplies) : Prop where
  lcd : st'.2.lcd = st.2.lcd
  added : st'.2.added = st.2.added
  held : ∀ trd ∈ st'.2.held, trd ∈ st.2.held
  nodup : (st.2.held.map index).Nodup → (st'.2.held.map index).Nodup
  used : (st.2.held.map index).Nodup → (∀ trd ∈ st.2.held, trd.index ∈ st.1) →
    ∀ trd ∈ st'.2.held, trd.index ∈ st'.1
  others : ∀ i ∈ st.1, (∀ trd ∈ st.2.held, trd.index ≠ i) → i ∈ st'.1

theorem Shrinks.refl (st : Finset ℕ × TedReplies) : Shrinks st st :=
  ⟨rfl, rfl, fun _ h => h, fun h => h, fun _ h => h, fun _ h _ => h⟩

theorem Shrinks.trans {st st' st'' : Finset ℕ × TedReplies} (h : Shrinks st st')
    (h' : Shrinks st' st'') : Shrinks st st'' := by
  refine ⟨h'.lcd.trans h.lcd, h'.added.trans h.added, fun trd ht => h.held trd (h'.held trd ht),
    fun hn => h'.nodup (h.nodup hn), fun hn hu => h'.used (h.nodup hn) (h.used hn hu), ?_⟩
  intro i hi hne
  exact h'.others i (h.others i hi hne) fun trd ht => hne trd (h.held trd ht)

section

variable {st st' : Finset ℕ × TedReplies} (hlcd : st'.2.lcd = st.2.lcd)
  (hadded : st'.2.added = st.2.added)
include hlcd hadded

/-- One reply is gone, and its slot is cleared. -/
theorem Shrinks.of_perm_cons (hperm : st.2.held.Perm (trd :: st'.2.held))
    (hbitmap : st'.1 = st.1.erase trd.index) : Shrinks st st' := by
  have hheld : ∀ t ∈ st'.2.held, t ∈ st.2.held := fun t ht =>
    hperm.mem_iff.mpr (mem_cons_of_mem _ ht)
  have hnodup : (st.2.held.map index).Nodup →
      trd.index ∉ st'.2.held.map index ∧ (st'.2.held.map index).Nodup := by
    intro hn
    rw [(hperm.map index).nodup_iff] at hn
    exact nodup_cons.mp hn
  refine ⟨hlcd, hadded, hheld, fun hn => (hnodup hn).2, ?_, ?_⟩
  · intro hn hused t ht
    rw [hbitmap]
    refine Finset.mem_erase.mpr ⟨?_, hused t (hheld t ht)⟩
    intro heq
    exact (hnodup hn).1 (heq ▸ mem_map_of_mem ht)
  · intro i hi hne
    rw [hbitmap]
    exact Finset.mem_erase.mpr ⟨(hne trd (hperm.mem_iff.mpr mem_cons_self)).symm, hi⟩

theorem Shrinks.of_perm (hperm : st.2.held.Perm st'.2.held) (hbitmap : st'.1 = st.1) :
    Shrinks st st' := by
  refine ⟨hlcd, hadded, fun t ht => hperm.mem_iff.mpr ht,
    (hperm.map index).nodup_iff.mp, ?_, ?_⟩
  · intro _ hused t ht
    rw [hbitmap]
    exact hused t (hperm.mem_iff.mpr ht)
  · intro i hi _
    rw [hbitmap]
    exact hi

end

variable {st st' : Finset ℕ × TedReplies}

theorem held_perm_erase (h : trd ∈ st.2.replyList) :
    st.2.held.Perm (trd :: (tgtFreeReplyData st trd).2.held) :=
  ((perm_cons_erase h).append_left _).trans perm_middle

theorem Shrinks.free (h : trd ∈ st.2.replyList) : Shrinks st (tgtFreeReplyData st trd) :=
  .of_perm_cons rfl rfl (held_perm_erase h) rfl

theorem freeReplyLast_spec (st : Finset ℕ × TedReplies) : Shrinks st (freeReplyLast st) ∧
    (freeReplyLast st).2.replyLast = none ∧
      (freeReplyLast st).2.replyList = st.2.replyList := by
  rw [freeReplyLast]
  cases hlast : st.2.replyLast with
  | none => exact ⟨.refl st, hlast, rfl⟩
  | some last =>
    refine ⟨.of_perm_cons rfl rfl ?_ rfl, rfl, rfl⟩
    simp [TedReplies.held, hlast]

theorem Shrinks.retain (h : trd ∈ st.2.replyList) (hlast : st.2.replyLast = none) :
    Shrinks st (retainReply st trd) := by
  refine .of_perm rfl rfl ?_ rfl
  simpa [TedReplies.held, retainReply, hlast] using perm_cons_erase h

theorem Shrinks.release (h : trd ∈ st.2.replyList) : Shrinks st (tgtReleaseReplyData st trd) := by
  rw [tgtReleaseReplyData]
  split
  · obtain ⟨hfree, hlast, hlist⟩ := freeReplyLast_spec st
    exact hfree.trans (.retain (hlist ▸ h) hlast)
  · exact .free h

theorem tgtReleaseReplyData_replyList (st : Finset ℕ × TedReplies) (trd : TgReplyData) :
    (tgtReleaseReplyData st trd).2.replyList = st.2.replyList.erase trd := by
  rw [tgtReleaseReplyData]
  split
  · rw [retainReply, (freeReplyLast_spec st).2.2]
  · rfl

/-- A release retains a reply with the greatest transaction number. -/
theorem TedReplies.Keeps.release (h : st.2.Keeps) (hmem : trd ∈ st.2.replyList) :
    (tgtReleaseReplyData st trd).2.Keeps := by
  have hshrinks : Shrinks st (tgtReleaseReplyData st trd) := .release hmem
  constructor
  all_goals rw [hshrinks.lcd, hshrinks.added]
  · exact h.le
  · exact h.attained
  · intro hadded
    rw [tgtReleaseReplyData]
    split
    · next htop => exact ⟨trd, mem_cons_self, htop⟩
    · next htop =>
      obtain ⟨t, ht, htransno⟩ := h.top hadded
      rcases mem_cons.mp ((held_perm_erase hmem).mem_iff.mp ht) with rfl | ht
      · exact absurd htransno htop
      · exact ⟨t, ht, htransno⟩

/-- What a loop over the replies does, that releases some of them. -/
structure Releases (st st' : Finset ℕ × TedReplies) : Prop where
  shrinks : Shrinks st st'
  keeps : st.2.Keeps → st'.2.Keeps

theorem Releases.refl (st : Finset ℕ × TedReplies) : Releases st st := ⟨.refl st, fun h => h⟩

theorem Releases.foldl {f : Finset ℕ × TedReplies → TgReplyData → Finset ℕ × TedReplies}
    (hf : ∀ st trd, f st trd = st ∨ f st trd = tgtReleaseReplyData st trd)
    (l : List TgReplyData) (hnodup : l.Nodup) (hmem : ∀ trd ∈ l, trd ∈ st.2.replyList) :
    Releases st (l.foldl f st) := by
  induction l generalizing st with
  | nil => exact .refl st
  | cons trd l ih =>
    obtain ⟨hnot, hnodup⟩ := nodup_cons.mp hnodup
    have htrd := hmem trd mem_cons_self
    have hrest : ∀ t ∈ l, t ∈ st.2.replyList := (forall_mem_cons.mp hmem).2
    rw [foldl_cons]
    rcases hf st trd with heq | heq
    · rw [heq]
      exact ih hnodup hrest
    · rw [heq]
      have hleft : ∀ t ∈ l, t ∈ (tgtReleaseReplyData st trd).2.replyList := by
        intro t ht
        have hne : t ≠ trd := fun htrd => hnot (htrd ▸ ht)
        rw [tgtReleaseReplyData_replyList]
        exact (mem_erase_of_ne hne).mpr (hrest t ht)
      have hnext := ih hnodup hleft
      exact ⟨(Shrinks.release htrd).trans hnext.shrinks, fun h => hnext.keeps (h.release htrd)⟩

theorem replyList_nodup (h : (ted.held.map index).Nodup) : ted.replyList.Nodup :=
  (nodup_append.mp h.of_map).2.1

theorem Releases.receivedXid (rcvdXid : ℕ) (h : (st.2.held.map index).Nodup) :
    Releases st (tgtHandleReceivedXid rcvdXid st) := by
  refine .foldl ?_ _ (replyList_nodup h) fun _ ht => ht
  intro st trd
  by_cases hxid : rcvdXid < trd.reply.xid
  · exact .inl (if_pos hxid)
  · exact .inr (if_neg hxid)

theorem Releases.tag (tag : ℕ) : Releases st (tgtHandleTag tag st) := by
  rw [tgtHandleTag]
  split
  · exact .refl st
  · cases hfind : st.2.replyList.find? fun trd => decide (trd.tag = tag) with
    | none => exact .refl st
    | some trd =>
      have hmem := mem_of_find?_eq_some hfind
      exact ⟨.release hmem, fun h => h.release hmem⟩

theorem Shrinks.clientFree (h : (st.2.held.map index).Nodup) :
    Shrinks st (tgtClientFree st) :=
  (Releases.foldl (fun _ _ => .inr rfl) _ (replyList_nodup h) fun _ ht => ht).shrinks.trans
    (freeReplyLast_spec _).1

/-! ### One export changes -/

/-- After one export changed, an export is the new one or one of those before. -/
theorem export_update (hexports : s'.exports = update s.exports gen (some ted')) {g : ℕ}
    {e : TedReplies} (he : s'.exports g = some e) :
    (g = gen ∧ e = ted') ∨ (g ≠ gen ∧ s.exports g = some e) := by
  rw [hexports] at he
  by_cases hg : g = gen
  · subst hg
    rw [Function.update_self] at he
    exact .inl ⟨rfl, (Option.some.inj he).symm⟩
  · rw [update_of_ne hg] at he
    exact .inr ⟨hg, he⟩

/-- What holds of the new export and of the others. -/
theorem forall_export_update {P : ℕ → TedReplies → Prop}
    (hexports : s'.exports = update s.exports gen (some ted')) (hnew : P gen ted')
    (hold : ∀ {g e}, s.exports g = some e → g ≠ gen → P g e) {g : ℕ} {e : TedReplies}
    (he : s'.exports g = some e) : P g e := by
  rcases export_update hexports he with ⟨rfl, rfl⟩ | ⟨hg, he⟩
  · exact hnew
  · exact hold he hg

theorem LuTarget.Slots.update (h : s.Slots)
    (hexports : s'.exports = update s.exports gen (some ted'))
    (hnodup : (ted'.held.map index).Nodup)
    (hapart : ∀ {g ted}, s.exports g = some ted → g ≠ gen → ∀ t ∈ ted.held, ∀ trd ∈ ted'.held,
      t.index ≠ trd.index) (hused : ∀ trd ∈ ted'.held, trd.index ∈ s'.replyBitmap)
    (hused' : ∀ {g ted}, s.exports g = some ted → g ≠ gen → ∀ t ∈ ted.held,
      t.index ∈ s'.replyBitmap)
    (hwritten : ∀ trd ∈ ted'.held, trd.written = true →
      s'.disk.replyData[trd.index]? = some trd.reply)
    (hwritten' : ∀ {g ted}, s.exports g = some ted → g ≠ gen → ∀ t ∈ ted.held,
      t.written = true → s'.disk.replyData[t.index]? = some t.reply) : s'.Slots := by
  refine ⟨forall_export_update hexports hnodup fun he _ => h.nodup he, ?_,
    forall_export_update hexports hused hused', forall_export_update hexports hwritten hwritten'⟩
  intro g g' e e' he he' hne t ht t' ht'
  rcases export_update hexports he with ⟨rfl, rfl⟩ | ⟨hg, he⟩
  · rcases export_update hexports he' with ⟨rfl, rfl⟩ | ⟨hg', he'⟩
    · exact absurd rfl hne
    · exact (hapart he' hg' t' ht' t ht).symm
  · rcases export_update hexports he' with ⟨rfl, rfl⟩ | ⟨hg', he'⟩
    · exact hapart he hg t ht t' ht'
    · exact h.apart he he' hne t ht t' ht'

section

variable {f : Finset ℕ × TedReplies → Finset ℕ × TedReplies}

theorem LuTarget.Slots.release (h : s.Slots) (hted : s.exports gen = some ted)
    (hf : Shrinks (s.replyBitmap, ted) (f (s.replyBitmap, ted))) : (s.release gen f).Slots := by
  rw [LuTarget.release, hted]
  refine h.update rfl (hf.nodup (h.nodup hted)) ?_ (hf.used (h.nodup hted) (h.used hted)) ?_ ?_ ?_
  · intro g e he hg t ht trd htrd
    exact h.apart he hted hg t ht trd (hf.held trd htrd)
  · intro g e he hg t ht
    refine hf.others t.index (h.used he t ht) ?_
    intro trd htrd
    exact (h.apart he hted hg t ht trd htrd).symm
  · intro trd htrd
    exact h.written hted trd (hf.held trd htrd)
  · intro g e he _
    exact h.written he

theorem LuTarget.Inv.release (h : s.Inv)
    (hf : ∀ {ted}, s.exports gen = some ted → Releases (s.replyBitmap, ted) (f (s.replyBitmap, ted))) :
    (s.release gen f).Inv := by
  cases hted : s.exports gen with
  | none =>
    rw [LuTarget.release, hted]
    exact h
  | some ted =>
    refine ⟨?_, h.slots.release hted (hf hted).shrinks⟩
    intro g e he
    rw [LuTarget.release, hted] at he
    exact forall_export_update rfl ((hf hted).keeps (h.keeps hted)) (fun he _ => h.keeps he) he

end

/-! ### Adding -/

theorem findZeroBit_notMem {n i j : ℕ} (h : findZeroBit bitmap n i = some j) : j ∉ bitmap := by
  induction n generalizing i with
  | zero => cases h
  | succ n ih =>
    rw [findZeroBit] at h
    split at h
    · exact ih h
    · next hnot => exact Option.some.inj h ▸ hnot

theorem tgtReplyDataWrite_self (file : List LsdReplyData) (i : ℕ) (lrd : LsdReplyData) :
    (tgtReplyDataWrite file i lrd)[i]? = some lrd := by
  rw [tgtReplyDataWrite]
  split
  · next hlt => exact getElem?_set_self hlt
  · next hlt =>
    have hlen : (file ++ replicate (i - file.length) (⟨0, 0, 0⟩ : LsdReplyData)).length = i := by
      rw [length_append, length_replicate]
      omega
    exact (getElem?_append_right (Nat.le_of_eq hlen)).trans (by rw [hlen, Nat.sub_self]; rfl)

theorem TedReplies.advance_held (transno : ℕ) : (ted.advance transno).held = ted.held := by
  rw [advance]
  split <;> rfl

theorem TedReplies.advance_of_le {transno : ℕ} (h : transno ≤ ted.lcd.lastTransno) :
    ted.advance transno = ted := if_neg (not_lt.mpr h)

theorem TedReplies.push_held (ted : TedReplies) (trd : TgReplyData) :
    (ted.push trd).held.Perm (trd :: ted.held) := perm_middle

/-- An export with another reply, whose transaction number counts. -/
theorem TedReplies.Keeps.add (h : ted.Keeps) (trd : TgReplyData) :
    ((ted.advance trd.reply.transno).push trd).Keeps := by
  by_cases hlt : ted.lcd.lastTransno < trd.reply.transno
  · rw [advance, if_pos hlt]
    refine ⟨forall_mem_cons.mpr ⟨le_rfl, fun t ht => ?_⟩, .inr mem_cons_self, fun _ => ?_⟩
    · exact le_of_lt (lt_of_le_of_lt (h.le t ht) hlt)
    · exact ⟨trd, mem_append_right _ mem_cons_self, rfl⟩
  · have hle := not_lt.mp hlt
    rw [advance_of_le hle]
    refine ⟨forall_mem_cons.mpr ⟨hle, h.le⟩, ?_, ?_⟩
    · exact h.attained.imp_right (mem_cons_of_mem _)
    · intro _
      by_cases hadded : ted.added = []
      · -- the first reply: there is no greatest one yet
        have hzero : ted.lcd.lastTransno = 0 := by
          refine h.attained.resolve_right ?_
          rw [hadded]
          exact not_mem_nil
        rw [hzero] at hle
        exact ⟨trd, mem_append_right _ mem_cons_self,
          (Nat.le_zero.mp hle).trans hzero.symm⟩
      · obtain ⟨t, ht, htransno⟩ := h.top hadded
        refine ⟨t, ?_, htransno⟩
        exact ((List.Sublist.refl _).append (sublist_cons_self _ _)).subset ht

/-- An export gets a reply in a slot that nobody has. -/
theorem LuTarget.Slots.add (h : s.Slots) (hted : s.exports gen = some ted)
    (hexports : s'.exports = Function.update s.exports gen (some ted'))
    (hheld : ted'.held.Perm (trd :: ted.held))
    (hbitmap : s'.replyBitmap = insert trd.index s.replyBitmap)
    (hfree : ∀ {g e}, s.exports g = some e → ∀ t ∈ e.held, t.index ≠ trd.index)
    (htrd : trd.written = true → s'.disk.replyData[trd.index]? = some trd.reply)
    (hdisk : ∀ j lrd, j ≠ trd.index → s.disk.replyData[j]? = some lrd →
      s'.disk.replyData[j]? = some lrd) : s'.Slots := by
  have hcases : ∀ t ∈ ted'.held, t = trd ∨ t ∈ ted.held := fun t ht =>
    mem_cons.mp (hheld.mem_iff.mp ht)
  refine h.update hexports ?_ ?_ ?_ ?_ ?_ ?_
  · rw [(hheld.map index).nodup_iff, map_cons, nodup_cons]
    refine ⟨?_, h.nodup hted⟩
    intro hmem
    obtain ⟨t, ht, hindex⟩ := mem_map.mp hmem
    exact hfree hted t ht hindex
  · intro g e he hg t ht t' ht'
    rcases hcases t' ht' with rfl | ht'
    · exact hfree he t ht
    · exact h.apart he hted hg t ht t' ht'
  · intro t ht
    rw [hbitmap]
    rcases hcases t ht with rfl | ht
    · exact Finset.mem_insert_self _ _
    · exact Finset.mem_insert_of_mem (h.used hted t ht)
  · intro g e he _ t ht
    rw [hbitmap]
    exact Finset.mem_insert_of_mem (h.used he t ht)
  · intro t ht hw
    rcases hcases t ht with rfl | ht
    · exact htrd hw
    · exact hdisk _ _ (hfree hted t ht) (h.written hted t ht hw)
  · intro g e he _ t ht hw
    exact hdisk _ _ (hfree he t ht) (h.written he t ht hw)

/-- Fewer exports and more slots in use change nothing. -/
theorem LuTarget.Slots.mono (h : s.Slots)
    (hexports : ∀ {g e}, s'.exports g = some e → s.exports g = some e)
    (hbitmap : s.replyBitmap ⊆ s'.replyBitmap) (hdisk : s'.disk.replyData = s.disk.replyData) :
    s'.Slots := by
  refine ⟨fun he => h.nodup (hexports he), fun he he' => h.apart (hexports he) (hexports he'), ?_, ?_⟩
  · intro g e he t ht
    exact hbitmap (h.used (hexports he) t ht)
  · intro g e he
    rw [hdisk]
    exact h.written (hexports he)

theorem LuTarget.Inv.mono (h : s.Inv) (hexports : s'.exports = s.exports)
    (hbitmap : s.replyBitmap ⊆ s'.replyBitmap) (hdisk : s'.disk.replyData = s.disk.replyData) :
    s'.Inv := by
  have hof : ∀ {g e}, s'.exports g = some e → s.exports g = some e := by
    rw [hexports]
    exact fun he => he
  exact ⟨fun he => h.keeps (hof he), h.slots.mono hof hbitmap hdisk⟩

theorem setExport_self (hted : s.exports gen = some ted) :
    update s.exports gen (some ted) = s.exports := by
  rw [← hted, Function.update_eq_self]

open TedReplies

theorem LuTarget.Inv.addReply (h : s.Inv) (hted : s.exports gen = some ted)
    {xid transno tag : ℕ} {updateLrdFile nomem writeFails : Bool}
    (hok : ReplyDataOk s (.addReply gen xid transno tag updateLrdFile nomem writeFails)) :
    (tgtAddReplyData s gen ted xid transno tag updateLrdFile nomem writeFails).Inv := by
  rw [tgtAddReplyData]
  cases hslot : tgtFindFreeReplySlot s.replyBitmap nomem with
  | none =>
    rw [advance_of_le (hok (.inr hslot) ted hted)]
    exact h.mono (setExport_self hted) (Finset.Subset.refl _) rfl
  | some i =>
    have hnot : i ∉ s.replyBitmap := by
      rw [tgtFindFreeReplySlot] at hslot
      split at hslot
      · cases hslot
      · exact findZeroBit_notMem hslot
    have hfree : ∀ {g e}, s.exports g = some e → ∀ t ∈ e.held, t.index ≠ i := by
      intro g e he t ht heq
      exact hnot (heq ▸ h.slots.used he t ht)
    dsimp only
    split
    · next hfails =>
      rw [advance_of_le (hok (.inl hfails) ted hted)]
      exact h.mono (setExport_self hted) (Finset.subset_insert _ _) rfl
    · have hheld : ∀ trd : TgReplyData,
          ((ted.advance transno).push trd).held.Perm (trd :: ted.held) := by
        intro trd
        have hpush := (ted.advance transno).push_held trd
        rwa [advance_held] at hpush
      have hkeeps := (h.keeps hted).add ⟨⟨transno, xid, gen⟩, i, tag, updateLrdFile⟩
      cases updateLrdFile with
      | false =>
        refine ⟨forall_export_update rfl hkeeps fun he _ => h.keeps he,
          h.slots.add hted rfl (hheld _) rfl hfree (fun hw => absurd hw (by simp)) ?_⟩
        intro j lrd _ hj
        exact hj
      | true =>
        refine ⟨forall_export_update rfl hkeeps fun he _ => h.keeps he,
          h.slots.add hted rfl (hheld _) rfl hfree (fun _ => tgtReplyDataWrite_self _ _ _) ?_⟩
        intro j lrd hne hj
        change (tgtReplyDataWrite s.disk.replyData i _)[j]? = _
        rw [tgtReplyDataWrite]
        split
        · exact (getElem?_set_ne (Ne.symm hne)).trans hj
        · rw [append_assoc, getElem?_append_left (List.getElem?_eq_some_iff.mp hj).1]
          exact hj

/-! ### Clients -/

theorem LuTarget.Inv.connect (h : s.Inv) : (tgtClientNew s).Inv := by
  refine ⟨?_, ?_⟩
  · refine forall_export_update rfl ⟨?_, .inl rfl, fun hne => absurd rfl hne⟩ fun he _ => h.keeps he
    exact forall_mem_nil _
  · refine h.slots.update rfl nodup_nil ?_ (forall_mem_nil _) ?_ (forall_mem_nil _)
      ?_
    · intro g e _ _ t _
      exact forall_mem_nil _
    · intro g e he _
      exact h.slots.used he
    · intro g e he _
      exact h.slots.written he

theorem LuTarget.Inv.clientUpdate (h : s.Inv) : (tgtClientDataUpdate s gen).Inv := by
  rw [tgtClientDataUpdate]
  cases s.exports gen with
  | none => exact h
  | some ted => exact h.mono rfl (Finset.Subset.refl _) rfl

theorem LuTarget.Inv.disconnect (h : s.Inv) : (tgtClientDel s gen).Inv := by
  have hslots : (s.release gen tgtClientFree).Slots := by
    cases hted : s.exports gen with
    | none =>
      rw [LuTarget.release, hted]
      exact h.slots
    | some ted => exact h.slots.release hted (.clientFree (h.slots.nodup hted))
  have hdisk : (s.release gen tgtClientFree).disk = s.disk := by
    rw [LuTarget.release]
    cases s.exports gen <;> rfl
  -- the export goes away
  have hof : ∀ {g e}, (tgtClientDel s gen).exports g = some e →
      g ≠ gen ∧ (s.release gen tgtClientFree).exports g = some e := by
    intro g e he
    have hg : g ≠ gen := by
      rintro rfl
      simp [tgtClientDel, setExport] at he
    simp only [tgtClientDel, setExport, update_of_ne hg] at he
    exact ⟨hg, he⟩
  refine ⟨?_, hslots.mono (fun he => (hof he).2) (Finset.Subset.refl _) (by rw [hdisk]; rfl)⟩
  intro g e he
  obtain ⟨hg, he⟩ := hof he
  rw [LuTarget.release] at he
  cases hted : s.exports gen with
  | none =>
    rw [hted] at he
    exact h.keeps he
  | some ted =>
    rw [hted] at he
    exact h.keeps ((update_of_ne hg _ _).symm.trans he)

/-! ### Restart -/

/-- What holds while `reply_data` is read: `seen` are the records that have been read. -/
structure LuTarget.Loading (s : LuTarget) (disk : TgtDisk) (seen : List LsdReplyData) : Prop where
  files : s.disk = disk
  lcd : ∀ {gen ted}, s.exports gen = some ted →
    ted.lcd ∈ disk.lastRcvd ∧ ted.lcd.generation = gen
  /-- an export has the replies that have been read -/
  added : ∀ {gen ted}, s.exports gen = some ted → ∀ transno, transno ∈ ted.added ↔
    ∃ lrd ∈ seen, lrd.clientGen = gen ∧ lrd.transno = transno
  held : ∀ {gen ted}, s.exports gen = some ted → ∀ transno ∈ ted.added,
    ∃ trd ∈ ted.held, trd.reply.transno = transno
  slots : s.Slots
  below : ∀ {gen ted}, s.exports gen = some ted → ∀ trd ∈ ted.held, trd.index < seen.length

theorem LuTarget.Loading.start (disk : TgtDisk) : (tgtClientsDataInit disk).Loading disk [] := by
  -- an export that `tgt_clients_data_init` has made
  have hof : ∀ {gen ted}, exportOf disk.lastRcvd gen = some ted →
      ∃ lcd ∈ disk.lastRcvd, lcd.generation = gen ∧ ted = tgExportInit lcd := by
    intro gen ted hted
    rw [exportOf] at hted
    split at hted
    · cases hted
    · obtain ⟨lcd, hfind, rfl⟩ := Option.map_eq_some_iff.mp hted
      have hgen := find?_some hfind
      exact ⟨lcd, mem_of_find?_eq_some hfind, of_decide_eq_true hgen, rfl⟩
  have hnone : ∀ {gen ted} {P : TgReplyData → Prop}, exportOf disk.lastRcvd gen = some ted →
      ∀ trd ∈ ted.held, P trd := by
    intro gen ted P hted
    obtain ⟨lcd, -, -, rfl⟩ := hof hted
    exact forall_mem_nil _
  refine ⟨rfl, ?_, ?_, ?_, ⟨?_, fun hted _ _ => hnone hted, hnone, hnone⟩, hnone⟩
  · intro gen ted hted
    obtain ⟨lcd, hmem, hgen, rfl⟩ := hof hted
    exact ⟨hmem, hgen⟩
  · intro gen ted hted transno
    obtain ⟨lcd, -, -, rfl⟩ := hof hted
    simp [tgExportInit]
  · intro gen ted hted
    obtain ⟨lcd, -, -, rfl⟩ := hof hted
    exact forall_mem_nil _
  · intro gen ted hted
    obtain ⟨lcd, -, -, rfl⟩ := hof hted
    exact nodup_nil

section

variable {disk : TgtDisk} {seen rest : List LsdReplyData} (h : s.Loading disk seen)
include h

theorem LuTarget.Loading.restore {lrd : LsdReplyData}
    (hdisk : disk.replyData = seen ++ lrd :: rest)
    (hstep : tgtReplyRestore s seen.length lrd = some s') : s'.Loading disk (seen ++ [lrd]) := by
  have hlen : (seen ++ [lrd]).length = seen.length + 1 := by simp
  rw [tgtReplyRestore] at hstep
  cases hted : s.exports lrd.clientGen with
  | none =>
    rw [hted] at hstep
    cases hstep
    refine ⟨h.files, h.lcd, ?_, h.held, h.slots, ?_⟩
    · intro gen ted hted' transno
      rw [h.added hted']
      -- the record belongs to no export
      have hne : lrd.clientGen ≠ gen := by
        rintro rfl
        rw [hted] at hted'
        cases hted'
      simp [or_and_right, exists_or, hne]
    · intro gen ted hted' trd htrd
      rw [hlen]
      exact Nat.lt_succ_of_lt (h.below hted' trd htrd)
  | some ted =>
    rw [hted] at hstep
    dsimp only at hstep
    split at hstep
    · cases hstep
    · cases hstep
      have hheld : (ted.restore ⟨lrd, seen.length, 0, true⟩).held.Perm
          (⟨lrd, seen.length, 0, true⟩ :: ted.held) := perm_middle
      refine ⟨h.files, ?_, ?_, ?_, ?_, ?_⟩
      · exact forall_export_update rfl (h.lcd hted) fun he _ => h.lcd he
      · intro g e he transno
        rcases export_update rfl he with ⟨rfl, rfl⟩ | ⟨hg, he⟩
        · simp [restore, push, h.added hted, or_and_right, exists_or,
            or_comm, eq_comm]
        · have hne : lrd.clientGen ≠ g := hg.symm
          simp [h.added he, or_and_right, exists_or, hne]
      · intro g e he transno htransno
        rcases export_update rfl he with ⟨rfl, rfl⟩ | ⟨-, he⟩
        · rcases mem_cons.mp htransno with rfl | htransno
          · exact ⟨_, hheld.mem_iff.mpr mem_cons_self, rfl⟩
          · obtain ⟨trd, htrd, heq⟩ := h.held hted transno htransno
            exact ⟨trd, hheld.mem_iff.mpr (mem_cons_of_mem _ htrd), heq⟩
        · exact h.held he transno htransno
      · refine h.slots.add hted rfl hheld rfl ?_ ?_ ?_
        · intro g e he t ht
          exact Nat.ne_of_lt (h.below he t ht)
        · simp [setExport, h.files, hdisk]
        · intro j lrd' _ hj
          exact hj
      · intro g e he trd htrd
        rw [hlen]
        rcases export_update rfl he with ⟨rfl, rfl⟩ | ⟨-, he⟩
        · rcases mem_cons.mp (hheld.mem_iff.mp htrd) with rfl | htrd
          · exact Nat.lt_succ_self _
          · exact Nat.lt_succ_of_lt (h.below hted trd htrd)
        · exact Nat.lt_succ_of_lt (h.below he trd htrd)

theorem LuTarget.Loading.load (hdisk : disk.replyData = seen ++ rest)
    (hload : tgtReplyDataLoad s seen.length rest = some s') : s'.Loading disk disk.replyData := by
  induction rest generalizing s seen with
  | nil =>
    cases hload
    rw [hdisk, append_nil]
    exact h
  | cons lrd rest ih =>
    rw [tgtReplyDataLoad] at hload
    obtain ⟨t, hrestore, hload⟩ := Option.bind_eq_some_iff.mp hload
    refine ih (h.restore hdisk hrestore) (by rw [hdisk]; simp) ?_
    rw [length_append]
    exact hload

end

/-- Where the two files match, every export has its greatest reply after the restart. -/
theorem LuTarget.Inv.restart (hok : ReplyDataOk s .restart) (hstep : tgtRestart s = some s') :
    s'.Inv := by
  have hload : s'.Loading s.committed s.committed.replyData :=
    (Loading.start s.committed).load rfl hstep
  refine ⟨?_, hload.slots⟩
  intro gen ted hted
  obtain ⟨hlcd, hgen⟩ := hload.lcd hted
  obtain ⟨hle, hattained⟩ := hok ted.lcd hlcd
  rw [hgen] at hle hattained
  refine ⟨?_, ?_, ?_⟩
  · intro transno htransno
    obtain ⟨lrd, hlrd, hlrdgen, rfl⟩ := (hload.added hted transno).mp htransno
    exact hle lrd hlrd hlrdgen
  · exact hattained.imp_right (hload.added hted _).mpr
  · intro hadded
    refine hload.held hted _ ?_
    rcases hattained with hzero | hattained
    · -- all transaction numbers are zero
      obtain ⟨transno, htransno⟩ := exists_mem_of_ne_nil _ hadded
      obtain ⟨lrd, hlrd, hlrdgen, rfl⟩ := (hload.added hted transno).mp htransno
      have hle := hle lrd hlrd hlrdgen
      rw [hzero] at hle
      rw [hzero, ← Nat.le_zero.mp hle]
      exact htransno
    · exact (hload.added hted _).mpr hattained

/-! ### Every run -/

theorem LuTarget.Inv.step (h : s.Inv) {op : TgtOp} (hok : ReplyDataOk s op)
    (hstep : tgtStep s op = some s') : s'.Inv := by
  cases op with
  | connect =>
    cases hstep
    exact h.connect
  | addReply gen xid transno tag updateLrdFile nomem writeFails =>
    cases hstep
    cases hted : s.exports gen with
    | none => exact h
    | some ted => exact h.addReply hted hok
  | receivedXid gen rcvdXid =>
    cases hstep
    exact h.release fun hted => .receivedXid rcvdXid (h.slots.nodup hted)
  | handleTag gen tag =>
    cases hstep
    exact h.release fun _ => .tag tag
  | clientUpdate gen =>
    cases hstep
    exact h.clientUpdate
  | disconnect gen =>
    cases hstep
    exact h.disconnect
  | commit =>
    cases hstep
    exact h.mono rfl (Finset.Subset.refl _) rfl
  | restart => exact .restart hok hstep

theorem LuTarget.New.inv (h : s.New) : s.Inv := by
  have habsurd : ∀ {gen ted}, s.exports gen = some ted → False := by
    intro gen ted hted
    rw [h gen] at hted
    cases hted
  exact ⟨fun he => (habsurd he).elim, fun he => (habsurd he).elim, fun he => (habsurd he).elim,
    fun he => (habsurd he).elim, fun he => (habsurd he).elim⟩

/-- In every run that meets the condition, an export has a reply with the greatest transaction
number of all that were added to it; its slot is in use, and what was written there is there. -/
theorem reply_data_retained {s0 : LuTarget} (hnew : s0.New) (h : Reach tgtStep ReplyDataOk s0 s)
    (hted : s.exports gen = some ted) {transno : ℕ} (hadded : transno ∈ ted.added)
    (hmax : ∀ t ∈ ted.added, t ≤ transno) :
    ∃ trd ∈ ted.held, trd.reply.transno = transno ∧ trd.index ∈ s.replyBitmap ∧
      (trd.written = true → s.disk.replyData[trd.index]? = some trd.reply) := by
  have hinv : s.Inv :=
    h.invariant LuTarget.Inv hnew.inv (fun _ _ _ hs hok hstep => hs.step hok hstep)
  have hkeeps := hinv.keeps hted
  obtain ⟨trd, htrd, htop⟩ := hkeeps.top (ne_nil_of_mem hadded)
  refine ⟨trd, htrd, htop.trans ?_, hinv.slots.used hted trd htrd, hinv.slots.written hted trd htrd⟩
  refine le_antisymm ?_ (hkeeps.le transno hadded)
  rcases hkeeps.attained with hzero | hattained
  · rw [hzero]
    exact Nat.zero_le _
  · exact hmax _ hattained

/-- A new target with empty files. -/
def luTargetNew : LuTarget :=
  { exports := fun _ => none, replyBitmap := ∅, clientGeneration := 0, lastTransno := 0,
    disk := ⟨[], []⟩, committed := ⟨[], []⟩ }

/-- Two replies are added and the record of the client is written before the target restarts: when
the client has received both, the second one is retained. -/
theorem reply_data_retained_restart : ∃ s : LuTarget, ∃ ted : TedReplies,
    s.exports 1 = some ted ∧ ted.held = [⟨⟨6, 2, 1⟩, 1, 0, true⟩] ∧
      ∃ trd ∈ ted.held, trd.reply.transno = 6 ∧ trd.index ∈ s.replyBitmap ∧
        (trd.written = true → s.disk.replyData[trd.index]? = some trd.reply) := by
  obtain ⟨s, hreach, hs⟩ : ∃ s, Reach tgtStep ReplyDataOk luTargetNew s ∧ s.exports 1 = some
      { lcd := ⟨1, 6⟩, replyList := [], replyLast := some ⟨⟨6, 2, 1⟩, 1, 0, true⟩
        lastCommitted := 6, added := [6, 5] } := exists_reach
    [.connect, .addReply 1 1 5 1 true false false, .addReply 1 2 6 2 true false false,
      .handleTag 1 1, .clientUpdate 1, .commit, .restart, .receivedXid 1 2] (by decide +kernel)
  exact ⟨s, _, hs, rfl, reply_data_retained (fun _ => rfl) hreach hs (by decide) (by decide)⟩

/-- The record of the client was written when it connected. After the restart the transaction
number of its only reply is not the one in that record, and the reply is freed. -/
theorem reply_data_forgotten : ∃ s : LuTarget, Reach tgtStep (fun _ _ => True) luTargetNew s ∧
    ∃ ted, s.exports 1 = some ted ∧ ted.added = [5] ∧ ted.held = [] := by
  obtain ⟨s, hreach, hs⟩ : ∃ s, Reach tgtStep (fun _ _ => True) luTargetNew s ∧ s.exports 1 = some
      { lcd := ⟨1, 0⟩, replyList := [], replyLast := none, lastCommitted := 5, added := [5] } :=
    exists_reach [.connect, .addReply 1 1 5 1 true false false, .commit, .restart,
      .receivedXid 1 1] (by decide +kernel)
  exact ⟨s, hreach, _, hs, rfl, rfl⟩

end Lustre
