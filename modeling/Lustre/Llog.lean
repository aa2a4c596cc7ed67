import Lustre.Pages
import Lustre.Run

/-!
# Plain llogs with records of variable size (`llog_osd.c`, `llog.c`)

A plain log is a file of chunks: the header, and behind it the records, none of which
crosses the end of a chunk. Where a record does not fit, `llog_osd_write_rec` fills the
chunk with a padding record, which takes an index but no bit of the bitmap. A record is
cancelled by clearing its bit.

`llog_process` goes through the set bits and looks for the chunk of the next one: it guesses
an offset from the smallest record size in the header, and when it has gone too far it tries
again with the smallest size there is. Then it matches indices and bits inside the chunk.
`llog_reverse_process` does the same from the end.

The file behind the header is the list of its records; what a read at the start of a chunk
returns are the records that start in it (`Pages.pageAt`), since none crosses its end. The
header and the tail of a record agree, so a record has one index and one length. No
operation runs during another one, and there are no I/O errors. A failed `LASSERT` or an
`LBUG` is `none`.
-/

namespace Lustre

open Pages

/-! ## Logs -/

/-- What is fixed about a log. -/
structure LlogConf where
  /-- the chunk size, `lrh_len` of the header, is two to this power -/
  chunkBits : ℕ
  /-- `LLOG_MIN_CHUNK_SIZE` -/
  le_chunkBits : 13 ≤ chunkBits
  lghMaxSize : ℕ
  /-- `dt_object_remote` -/
  remote : Bool
  /-- `LLOG_F_ZAP_WHEN_EMPTY` -/
  zapWhenEmpty : Bool

/-- The chunk size. -/
def LlogConf.chunkSize (c : LlogConf) : ℕ := 2 ^ c.chunkBits

/-- `LLOG_HDR_BITMAP_SIZE` -/
def LlogConf.bitmapSize (c : LlogConf) : ℕ := (c.chunkSize - 96) * 8

/-- A record. -/
structure LlogRec (α : Type*) where
  /-- `lrh_index`, and `lrt_index` -/
  lrhIndex : ℕ
  /-- `lrh_len`, and `lrt_len` -/
  lrhLen : ℕ
  /-- the payload, `none` for `LLOG_PAD_MAGIC` -/
  data : Option α
  deriving DecidableEq

/-- The header of a log, `struct llog_log_hdr`. -/
structure LlogHdr where
  llhBitmap : ℕ → Bool
  llhCount : ℕ
  llhSize : ℕ
  /-- `lrt_index` of `llh_tail` -/
  lrtIndex : ℕ

/-- A log, and the handle it is open by. -/
structure Llog (α : Type*) where
  /-- the header on disk, `none` while the file is empty -/
  disk : Option LlogHdr
  /-- the records on disk, in their order -/
  recs : List (LlogRec α)
  /-- whether the file has been destroyed -/
  destroyed : Bool
  lghHdr : LlogHdr
  lghLastIdx : ℕ

/-- What an operation returns. -/
inductive LlogRc where
  | ok
  /-- the index of the record that was written -/
  | written (index : ℕ)
  /-- an error, or `LLOG_DEL_PLAIN` -/
  | other (rc : ℤ)
  deriving DecidableEq

section Log

variable {α : Type*} (c : LlogConf) (l : Llog α)

def Llog.laSize : ℕ :=
  match l.disk with
  | none => 0
  | some _ => c.chunkSize + total LlogRec.lrhLen l.recs

/-- The header that `llog_read_header` makes for an empty file. -/
def llogEmptyHdr : LlogHdr where
  llhBitmap := fun i => i = 0
  llhCount := 1
  llhSize := 0
  lrtIndex := 0

/-- A log that was just created. -/
def Llog.fresh : Llog α := ⟨none, [], false, llogEmptyHdr, 0⟩

/-- A new handle, with the header read by `llog_osd_read_header`. -/
def llogReopen : Llog α :=
  if l.destroyed then l
  else match l.disk with
    | none => { l with lghHdr := llogEmptyHdr, lghLastIdx := 0 }
    | some h =>
      if c.bitmapSize < h.lrtIndex then l else { l with lghHdr := h, lghLastIdx := h.lrtIndex }

/-- What a write of the header, of the bitmap word of `index` and of the tail leaves of the
header `old` on disk, when `hdr` is the one in memory. -/
def llogWriteHdr (old hdr : LlogHdr) (index : ℕ) : LlogHdr :=
  { hdr with llhBitmap := fun i =>
      if i / 32 = index / 32 then hdr.llhBitmap i else old.llhBitmap i }

/-- The space up to the end of the chunk. -/
def Llog.left : ℕ := c.chunkSize - l.laSize c % c.chunkSize

/-- Whether a record of length `reclen` needs padding before it. -/
def Llog.needsPad (reclen : ℕ) : Prop := l.left c ≠ reclen ∧ l.left c < reclen + 24
  deriving Decidable

/-- `llog_osd_pad`, where it is called; on an empty file the header is written over it. -/
def llogOsdPad (reclen : ℕ) : Option (Llog α) :=
  if l.needsPad c reclen then
    if 24 ≤ l.left c ∧ l.left c % 8 = 0 then
      some { l with
        recs := if l.disk.isNone then l.recs
          else l.recs ++ [⟨l.lghLastIdx + 1, l.left c, none⟩]
        lghLastIdx := l.lghLastIdx + 1 }
    else none
  else some l

/-- The end of the append of `llog_osd_write_rec`, which takes the next index. -/
def llogOsdPut (reclen : ℕ) (data : α) : Option (LlogRc × Llog α) :=
  let index := l.lghLastIdx + 1
  if c.bitmapSize ≤ index ∨ l.lghHdr.llhBitmap index = true then none
  else
    let hdr : LlogHdr := {
      llhBitmap := Function.update l.lghHdr.llhBitmap index true
      llhCount := l.lghHdr.llhCount + 1
      llhSize := if l.lghHdr.llhSize = 0 ∨ reclen < l.lghHdr.llhSize then reclen
        else l.lghHdr.llhSize
      lrtIndex := index }
    let disk := match l.disk with
      | none => hdr
      | some old => llogWriteHdr old hdr index
    some (.written index, { l with
      disk := some disk
      recs := l.recs ++ [⟨index, reclen, some data⟩]
      lghHdr := hdr
      lghLastIdx := index })

/-- `llog_osd_write_rec` at `LLOG_NEXT_IDX`, of a record of length `reclen` -/
def llogOsdWriteRec (reclen : ℕ) (data : α) : Option (LlogRc × Llog α) :=
  -- -ENOENT
  if l.destroyed then some (.other (-2), l)
  -- -E2BIG
  else if c.chunkSize < reclen then some (.other (-7), l)
  -- -ENOSPC, and the log is full from now on
  else if 0 < c.lghMaxSize ∧ c.lghMaxSize ≤ l.laSize c then
    some (.other (-28), { l with lghLastIdx := c.bitmapSize - 1 })
  else
    (llogOsdPad c l reclen).bind fun l =>
      -- llog_is_full
      if c.bitmapSize - 1 ≤ l.lghLastIdx then some (.other (-28), l)
      else llogOsdPut c l reclen data

/-- `llog_cancel_rec`, where `notCurrent` says that the log is not the current one of its
catalog -/
def Llog.llogCancelRec (index : ℕ) (notCurrent : Bool) : LlogRc × Llog α :=
  -- -EINVAL
  if index = 0 then (.other (-22), l)
  else if l.lghHdr.llhBitmap index then
    let hdr := { l.lghHdr with
      llhBitmap := Function.update l.lghHdr.llhBitmap index false
      llhCount := l.lghHdr.llhCount - 1 }
    let l' := { l with
      lghHdr := hdr
      -- the tail is not written
      disk := l.disk.map fun old =>
        { llogWriteHdr old hdr index with lrtIndex := old.lrtIndex } }
    if c.zapWhenEmpty ∧ hdr.llhCount = 1 ∧ (l.lghLastIdx = c.bitmapSize - 1 ∨ notCurrent) then
      -- LLOG_DEL_PLAIN
      (.other 3, { l' with destroyed := true })
    else (.ok, l')
  else (.ok, l)

/-! ## Reading a log -/

/-- What a read at the start of a chunk returns: an error, or the records of the chunk. -/
def llogRead (off : ℕ) : Except ℤ (List (LlogRec α)) :=
  -- -EBADR
  if l.laSize c < off then .error (-53)
  else if l.laSize c = off then .ok []
  else .ok (pageAt LlogRec.lrhLen c.chunkSize off c.chunkSize l.recs)

def llogSkipOver (off curr goal : ℕ) (forceMiniRec : Bool) : ℕ :=
  let goal := if l.lghLastIdx < goal then l.lghLastIdx else goal
  let minRecSize := if 0 < l.lghHdr.llhSize ∧ forceMiniRec = false then l.lghHdr.llhSize else 24
  let off := if curr < goal then off + (goal - curr - 1) * minRecSize else off
  off - off % c.chunkSize

/-- What `llog_osd_next_block` returns. -/
structure LlogBlock (α : Type*) where
  /-- the return code -/
  rc : ℤ
  /-- `*cur_idx` -/
  curIdx : ℕ
  /-- `*cur_offset` -/
  curOffset : ℕ
  /-- the records in the buffer -/
  buf : List (LlogRec α)

/-- The loop of `llog_osd_next_block`. At the start of a round `last_idx` and `last_offset`
are `curIdx` and `curOffset`, so that a retry is the same round with `force_mini_rec`. -/
def llogNextLoop (nextIdx : ℕ) : ℕ → ℕ → ℕ → Bool → LlogBlock α
  | 0, curIdx, curOffset, _ => ⟨-5, curIdx, curOffset, []⟩
  | fuel + 1, curIdx, curOffset, force =>
    if curOffset < l.laSize c then
      let off := llogSkipOver c l curOffset curIdx nextIdx force
      match llogRead c l off with
      | .error rc =>
        if force then ⟨rc, curIdx, off, []⟩ else llogNextLoop nextIdx fuel curIdx curOffset true
      | .ok [] =>
        if force then ⟨0, curIdx, off, []⟩ else llogNextLoop nextIdx fuel curIdx curOffset true
      | .ok (first :: rest) =>
        let last := (first :: rest).getLast (List.cons_ne_nil _ _)
        let next := min (off + c.chunkSize) (l.laSize c)
        if last.lrhIndex = 0 then ⟨-22, last.lrhIndex, next, first :: rest⟩
        else if last.lrhIndex < nextIdx then llogNextLoop nextIdx fuel last.lrhIndex next force
        else if nextIdx < first.lrhIndex then
          if force = false ∧ curIdx < nextIdx then llogNextLoop nextIdx fuel curIdx curOffset true
          else ⟨-2, last.lrhIndex, next, first :: rest⟩
        else ⟨0, last.lrhIndex, next, first :: rest⟩
    -- -EIO
    else ⟨-5, curIdx, curOffset, []⟩

def llogOsdNextBlock (curIdx nextIdx curOffset : ℕ) : LlogBlock α :=
  llogNextLoop c l nextIdx (2 * l.laSize c + 2) curIdx curOffset false

/-- The loop of `llog_osd_prev_block`. -/
def llogPrevLoop (prevIdx : ℕ) : ℕ → ℕ → ℤ × List (LlogRec α)
  | 0, _ => (-5, [])
  | fuel + 1, curOffset =>
    if curOffset < l.laSize c then
      match llogRead c l curOffset with
      | .error rc => (rc, [])
      | .ok [] => (0, [])
      | .ok (first :: rest) =>
        let last := (first :: rest).getLast (List.cons_ne_nil _ _)
        let next := min (curOffset + c.chunkSize) (l.laSize c)
        if last.lrhIndex = 0 then (-22, first :: rest)
        else if last.lrhIndex < prevIdx then llogPrevLoop prevIdx fuel next
        else if prevIdx < first.lrhIndex then (-2, first :: rest)
        else (0, first :: rest)
    else (-5, [])

def llogOsdPrevBlock (prevIdx : ℕ) : ℤ × List (LlogRec α) :=
  llogPrevLoop c l prevIdx (l.laSize c + 1) (llogSkipOver c l c.chunkSize 0 prevIdx true)

/-! ## Processing a log -/

/-- The index of the next set bit from `index` on, up to `last`. -/
def llogNextSet (last : ℕ) : ℕ → ℕ → ℕ
  | 0, index => index
  | fuel + 1, index =>
    if index ≤ last ∧ l.lghHdr.llhBitmap index = false then llogNextSet last fuel (index + 1)
    else index

/-- What a pass over records comes to. -/
structure LlogScan (α : Type*) where
  /-- the records that were passed to the callback, in that order -/
  visited : List (LlogRec α)
  index : ℕ
  /-- the return code where processing ends here -/
  stop : Option ℤ

/-- The loop of `llog_process_thread` over the records of a chunk, with a callback that
returns zero. -/
def llogScan (last : ℕ) : ℕ → List (LlogRec α) → LlogScan α
  | index, [] => ⟨[], index, none⟩
  | index, r :: rest =>
    -- -EINVAL
    if r.lrhLen = 0 ∨ c.chunkSize < r.lrhLen then ⟨[], index, some (-22)⟩
    else if r.lrhIndex < index then llogScan last index rest
    -- -ERANGE
    else if r.lrhIndex ≠ index then ⟨[], index, some (-34)⟩
    else
      let called := if l.lghHdr.llhBitmap index then [r] else []
      if l.lghHdr.llhBitmap index ∧ l.lghHdr.llhCount = 1 then ⟨called, index, some 0⟩
      else if last ≤ index then ⟨called, index, some 0⟩
      else
        let q := llogScan last (index + 1) rest
        { q with visited := called ++ q.visited }

/-- The records of a buffer from `bufOffset` on, the first of them at `pos`. -/
def llogFrom (bufOffset : ℕ) : ℕ → List (LlogRec α) → List (LlogRec α)
  | _, [] => []
  | pos, r :: rest =>
    if bufOffset ≤ pos then r :: rest else llogFrom bufOffset (pos + r.lrhLen) rest

/-- A chunk that is read again: its offset, and where in it the records end. -/
structure LlogRepeat where
  chunkOffset : ℕ
  bufOffset : ℕ

/-- The loop of `llog_process_thread`, and the label `repeat` where `again` is given. No
record is added while it runs, so that `lh_last_idx` stays `lgh_last_idx + 1`. -/
def llogProcessLoop (last : ℕ) : ℕ → ℕ → ℕ → ℕ → Option LlogRepeat → LlogScan α
  | 0, index, _, _, _ => ⟨[], index, some (-5)⟩
  | fuel + 1, index, savedIndex, curOffset, again =>
    let index := if again.isNone then llogNextSet l last (last + 1 - index) index else index
    if again.isNone ∧ last < index then ⟨[], index, some 0⟩
    else
      let b := llogOsdNextBlock c l savedIndex index curOffset
      if b.rc = -5 ∧ (∃ a ∈ again, a.chunkOffset + a.bufOffset = b.curOffset) then
        ⟨[], index, some 0⟩
      else if b.rc ≠ 0 then ⟨[], index, some b.rc⟩
      else
        let inChunk := b.curOffset % c.chunkSize
        let chunkOffset := if inChunk ≠ 0 then b.curOffset - inChunk else b.curOffset - c.chunkSize
        let recs := match again with
          | none => b.buf
          | some a => llogFrom a.bufOffset 0 b.buf
        let q := llogScan c l last index recs
        match q.stop with
        | some rc => ⟨q.visited, q.index, some rc⟩
        | none =>
          -- for partial chunk the end of it is zeroed
          if inChunk ≠ 0 then
            if l.lghLastIdx < q.index ∨ (again.isSome ∧ recs = []) ∨ c.remote ∨
                l.lghHdr.llhCount ≤ 1 then ⟨q.visited, q.index, some 0⟩
            else
              let p := llogProcessLoop last fuel q.index b.curIdx chunkOffset
                (some ⟨chunkOffset, inChunk⟩)
              { p with visited := q.visited ++ p.visited }
          else
            let p := llogProcessLoop last fuel q.index b.curIdx b.curOffset none
            { p with visited := q.visited ++ p.visited }

/-- The log after its bits from `index` on have been discarded as corrupted. -/
def llogDiscard : ℕ → ℕ → Llog α → Llog α
  | 0, _, l => l
  | fuel + 1, index, l =>
    llogDiscard fuel (index + 1)
      (if l.lghHdr.llhBitmap index then (l.llogCancelRec c index false).2 else l)

/-- `llog_process` without a range of indices: the return code, the records passed to the
callback, and the log behind it. -/
def llogProcess : ℤ × List (LlogRec α) × Llog α :=
  let last := c.bitmapSize - 1
  let q := llogProcessLoop c l last (2 * last + 2) 1 0 c.chunkSize none
  if q.stop = some (-5) then
    -- -EAGAIN for a remote object
    if c.remote then (-11, q.visited, l)
    else (0, q.visited, llogDiscard c (last + 1 - q.index) q.index l)
  else (q.stop.getD 0, q.visited, l)

/-- The index of the last set bit up to `index`, or zero. -/
def llogPrevSet : ℕ → ℕ
  | 0 => 0
  | index + 1 => if l.lghHdr.llhBitmap (index + 1) then index + 1 else llogPrevSet index

/-- The loop of `llog_reverse_process` over the records of a chunk, from the one with
`index` to the first. -/
def llogRevScan : ℕ → List (LlogRec α) → LlogScan α
  | index, [] => ⟨[], index, none⟩
  | index, r :: rest =>
    if r.lrhIndex = 0 then ⟨[], index, some 0⟩
    else
      let called := if l.lghHdr.llhBitmap index then [r] else []
      if index - 1 < 1 then ⟨called, index - 1, some 0⟩
      else
        let q := llogRevScan (index - 1) rest
        { q with visited := called ++ q.visited }

/-- The loop of `llog_reverse_process`. -/
def llogReverseLoop : ℕ → ℕ → Option (ℤ × List (LlogRec α))
  | 0, _ => none
  | fuel + 1, index =>
    let index := llogPrevSet l index
    if index = 0 then some (0, [])
    else
      let b := llogOsdPrevBlock c l index
      if b.1 ≠ 0 then some (b.1, [])
      else match b.2 with
        | [] => none
        | first :: rest =>
          -- the record with the index, which has to be in the buffer
          if first.lrhIndex ≤ index ∧ index - first.lrhIndex ≤ rest.length then
            let upTo := ((first :: rest).take (index - first.lrhIndex + 1)).reverse
            let q := llogRevScan l index upTo
            match q.stop with
            | some rc => some (rc, q.visited)
            | none => (llogReverseLoop fuel q.index).map fun p => (p.1, q.visited ++ p.2)
          else none

/-- `llog_reverse_process` without a range of indices: the return code, and the records
passed to the callback. -/
def llogReverseProcess : Option (ℤ × List (LlogRec α)) :=
  llogReverseLoop c l (c.bitmapSize + 1) (c.bitmapSize - 1)

end Log

end Lustre
