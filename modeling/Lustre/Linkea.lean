import Lustre.ByteReader
import Lustre.SeqClient
import Mathlib.Data.List.TakeWhile

/-!
# The link EA (`linkea.c`)

The names of a file are kept in one extended attribute: a header and a packed record for each
link, with its length and the FID of the parent most significant byte first. A record is added
behind the last one, found by a walk from record to record, and deleted by moving what is behind
it over it, at the place where the walk has left `ld_lee` and `ld_reclen`.

`LinkeaHolds` says that the buffer starts with the records of a list of links, one after the other.
Every call keeps it, with the list changed by that call (`linkea_links`).
-/

namespace Lustre

open List

/-! ## Records -/

/-- The low bytes of a number, most significant first. -/
def beBytes : ℕ → ℕ → List UInt8
  | 0, _ => []
  | n + 1, x => beBytes n (x / 256) ++ [UInt8.ofNat x]

/-- The number that the bytes stand for. -/
def ofBeBytes (l : List UInt8) : ℕ := l.foldl (fun x b => x * 256 + b.toNat) 0

@[simp] theorem length_beBytes (n x : ℕ) : (beBytes n x).length = n := by
  induction n generalizing x with
  | zero => rfl
  | succ n ih => simp [beBytes, ih]

theorem ofBeBytes_beBytes {n x : ℕ} (h : x < 256 ^ n) : ofBeBytes (beBytes n x) = x := by
  induction n generalizing x with
  | zero => exact (Nat.lt_one_iff.mp h).symm
  | succ n ih =>
    have hhigh : ofBeBytes (beBytes n (x / 256)) = x / 256 :=
      ih (Nat.div_lt_of_lt_mul (by rwa [← Nat.pow_succ']))
    rw [beBytes, ofBeBytes, foldl_append, ← ofBeBytes, hhigh]
    exact Nat.div_add_mod' x 256

/-- A link: the name, valid as an `lu_name`, and the FID of the parent. -/
structure Link where
  /-- `ln_name`, of `ln_namelen` bytes -/
  name : List UInt8
  /-- the FID of the parent -/
  pfid : LuFid
  /-- the length, up to `NAME_MAX` -/
  length : 1 ≤ name.length ∧ name.length ≤ 255
  /-- a name is a string -/
  string : 0 ∉ name
  /-- the fields of a FID have 64, 32 and 32 bits -/
  fid : pfid.fSeq < 256 ^ 8 ∧ pfid.fOid < 256 ^ 4 ∧ pfid.fVer < 256 ^ 4
  deriving DecidableEq

/-- `sizeof(struct link_ea_header)` -/
def linkEaHeaderSize : ℕ := 24

/-- `sizeof(struct link_ea_entry)` -/
def linkEaEntrySize : ℕ := 18

def maxLinkeaSize : ℕ := 4096

/-- `linkea_entry_pack`: the bytes that it writes, `lee_reclen`, `lee_parent_fid` and
`lee_name`. It returns their number. -/
def linkeaEntryPack (name : List UInt8) (pfid : LuFid) : List UInt8 :=
  beBytes 2 (linkEaEntrySize + name.length) ++ (beBytes 8 pfid.fSeq ++ (beBytes 4 pfid.fOid ++
    (beBytes 4 pfid.fVer ++ name)))

/-- `linkea_entry_unpack`: the length of the record, the name and the FID. -/
def linkeaEntryUnpack (lee : List UInt8) : ℕ × List UInt8 × LuFid :=
  let reclen := ofBeBytes (lee.take 2)
  (reclen, (lee.drop linkEaEntrySize).take (reclen - linkEaEntrySize),
    ⟨ofBeBytes ((lee.drop 2).take 8), ofBeBytes ((lee.drop 10).take 4),
      ofBeBytes ((lee.drop 14).take 4)⟩)

/-- The record of a link. -/
def Link.record (l : Link) : List UInt8 := linkeaEntryPack l.name l.pfid

open Link

theorem Link.length_record (l : Link) : l.record.length = linkEaEntrySize + l.name.length := by
  simp only [record, linkeaEntryPack, length_append, length_beBytes, linkEaEntrySize]
  omega

theorem linkeaEntryUnpack_record (l : Link) (rest : List UInt8) :
    linkeaEntryUnpack (l.record ++ rest) = (l.record.length, l.name, l.pfid) := by
  have hlen : ofBeBytes (beBytes 2 (18 + l.name.length)) = 18 + l.name.length :=
    ofBeBytes_beBytes (by have := l.length.2; omega)
  rw [l.length_record]
  simp [linkeaEntryUnpack, record, linkeaEntryPack, linkEaEntrySize, drop_append,
    drop_of_length_le, hlen, ofBeBytes_beBytes l.fid.1, ofBeBytes_beBytes l.fid.2.1,
    ofBeBytes_beBytes l.fid.2.2]

/-! ## The buffer -/

/-- `struct linkea_data`, with the header and the buffer. -/
structure LinkeaData where
  lehReccount : ℕ
  lehLen : ℕ
  lehOverflowTime : ℕ
  /-- the bytes of `ld_buf` behind the header; there are `lb_len` with the header -/
  body : List UInt8
  /-- `ld_lee`, counted from the end of the header -/
  ldLee : Option ℕ
  ldReclen : ℕ

variable (d : LinkeaData)

/-- `memcpy` into a buffer, and `memmove` in it. -/
def memcpy (buf : List UInt8) (off : ℕ) (bytes : List UInt8) : List UInt8 :=
  buf.take off ++ bytes ++ buf.drop (off + bytes.length)

/-- The test of `linkea_add_buf` for an EA that gets too large. -/
def LinkeaData.Overflows (name : List UInt8) : Prop :=
  maxLinkeaSize < d.lehLen + (name.length + linkEaEntrySize)
  deriving Decidable

/-- `linkea_add_buf` at the time `now`, where a larger buffer can be had or not. -/
def linkeaAddBuf (name : List UInt8) (pfid : LuFid) (now : ℕ) (grows : Bool) : ℤ × LinkeaData :=
  let reclen := name.length + linkEaEntrySize
  if d.Overflows name then
    let time := now % 2 ^ 32
    (0, { d with lehOverflowTime := if time = 0 then 1 else time })
  else
    let short := d.lehLen + reclen - (linkEaHeaderSize + d.body.length)
    if 0 < short ∧ grows = false then (-12, d)
    else
      -- `lu_buf_check_and_grow`
      let body := d.body ++ replicate short 0
      let lee := d.lehLen - linkEaHeaderSize
      let entry := linkeaEntryPack name pfid
      (0, { d with
        body := memcpy body lee entry
        ldLee := some lee
        ldReclen := entry.length
        lehLen := d.lehLen + entry.length
        lehReccount := d.lehReccount + 1 })

/-- `linkea_del_buf`, `none` is a failed `LASSERT`. -/
def linkeaDelBuf : Option LinkeaData :=
  d.ldLee.bind fun lee => lassert (0 < d.lehReccount) <|
    let lehLen := d.lehLen - d.ldReclen
    let rest := (d.body.drop (lee + d.ldReclen)).take (lehLen - (linkEaHeaderSize + lee))
    some { d with
      lehReccount := d.lehReccount - 1
      lehLen := lehLen
      body := memcpy d.body lee rest
      ldLee := if lehLen ≤ linkEaHeaderSize + lee then none else some lee }

/-- `strncmp(a, b, n) == 0`: the strings are equal up to a `NUL` or `n` bytes. -/
def strncmpEq (a b : List UInt8) (n : ℕ) : Bool :=
  (a.take n).takeWhile (· ≠ 0) = (b.take n).takeWhile (· ≠ 0)

/-- The loop of `linkea_links_find` with the records left to look at: the record and its
length. -/
def linkeaFindLoop (body name : List UInt8) (pfid : LuFid) : ℕ → ℕ → Option (ℕ × ℕ)
  | 0, _ => none
  | n + 1, lee =>
    let e := linkeaEntryUnpack (body.drop lee)
    if e.2.1.length = name.length ∧ e.2.2 = pfid ∧ strncmpEq e.2.1 name e.2.1.length then
      some (lee, e.1)
    else linkeaFindLoop body name pfid n (lee + e.1)

def linkeaLinksFind (name : List UInt8) (pfid : LuFid) : ℤ × LinkeaData :=
  match linkeaFindLoop d.body name pfid d.lehReccount 0 with
  | some (lee, reclen) => (0, { d with ldLee := some lee, ldReclen := reclen })
  | none => (-2, { d with ldLee := none, ldReclen := 0 })

/-! ## Runs -/

/-- A call. -/
inductive LinkeaOp where
  /-- `linkea_add_buf` -/
  | add (l : Link) (now : ℕ) (grows : Bool)
  /-- `linkea_links_find` -/
  | find (l : Link)
  /-- `linkea_del_buf` -/
  | del

/-- The EA, with what the callers know. -/
structure LinkeaRun where
  data : LinkeaData
  /-- the links that were added and not deleted -/
  links : List Link
  /-- the link that the last call has found -/
  found : Option Link

/-- One call. -/
def linkeaStep (s : LinkeaRun) : LinkeaOp → Option LinkeaRun
  | .add l now grows =>
    let r := linkeaAddBuf s.data l.name l.pfid now grows
    let added := r.1 = 0 ∧ ¬ s.data.Overflows l.name
    some ⟨r.2, if added then s.links ++ [l] else s.links, none⟩
  | .find l =>
    let r := linkeaLinksFind s.data l.name l.pfid
    some ⟨r.2, s.links, if r.1 = 0 then some l else none⟩
  | .del => (linkeaDelBuf s.data).map fun d => ⟨d, (s.found.map s.links.erase).getD s.links, none⟩

/-- A record is deleted right after it has been found. -/
def LinkeaUse (s : LinkeaRun) : LinkeaOp → Prop
  | .del => s.found ≠ none
  | _ => True

/-- The records of the EA, one after the other. -/
def linkeaDecode : ℕ → List UInt8 → List (List UInt8 × LuFid)
  | 0, _ => []
  | n + 1, body =>
    let e := linkeaEntryUnpack body
    e.2 :: linkeaDecode n (body.drop e.1)

/-- What the EA promises. -/
structure LinkeaGood (s : LinkeaRun) : Prop where
  /-- the EA decodes to the links -/
  decodes : linkeaDecode s.data.lehReccount s.data.body = s.links.map fun l => (l.name, l.pfid)
  /-- `leh_len` is the size of the header and of the records -/
  len : s.data.lehLen =
    linkEaHeaderSize + (s.links.map fun l => linkEaEntrySize + l.name.length).sum
  /-- the EA is not too large -/
  max : s.data.lehLen ≤ maxLinkeaSize
  /-- a link is found if it is there, and the cursor is then at its record -/
  find : ∀ l : Link, if l ∈ s.links then ∃ lee, linkeaLinksFind s.data l.name l.pfid =
      (0, { s.data with ldLee := some lee, ldReclen := l.record.length }) ∧
        linkeaEntryUnpack (s.data.body.drop lee) = (l.record.length, l.name, l.pfid)
    else (linkeaLinksFind s.data l.name l.pfid).1 = -2
  /-- an addition that would overflow changes the time of the overflow only -/
  overflow : ∀ (l : Link) now grows, s.data.Overflows l.name → ∃ time ≠ 0,
    linkeaAddBuf s.data l.name l.pfid now grows = (0, { s.data with lehOverflowTime := time })

/-! ## The records in the buffer -/

/-- The records of the links. -/
def packed (links : List Link) : List UInt8 := links.flatMap record

/-- The EA has these links. -/
structure LinkeaHolds (links : List Link) : Prop where
  body : ∃ rest, d.body = packed links ++ rest
  count : d.lehReccount = links.length
  len : d.lehLen = linkEaHeaderSize + (packed links).length
  max : d.lehLen ≤ maxLinkeaSize

@[simp] theorem packed_append (a b : List Link) : packed (a ++ b) = packed a ++ packed b :=
  flatMap_append

@[simp] theorem packed_cons (l : Link) (links : List Link) :
    packed (l :: links) = l.record ++ packed links := rfl

theorem memcpy_append (a b c : List UInt8) :
    memcpy (a ++ b) a.length c = a ++ c ++ b.drop c.length := by
  simp [memcpy, drop_append]

/-- The test of `linkea_links_find` for a record. -/
theorem Link.eq_iff {k l : Link} : (k.name.length = l.name.length ∧ k.pfid = l.pfid ∧
    strncmpEq k.name l.name k.name.length = true) ↔ k = l := by
  have hwhole : ∀ k : Link, k.name.takeWhile (· ≠ 0) = k.name := fun k =>
    takeWhile_eq_self_iff.mpr fun b hb => decide_eq_true fun h0 => k.string (h0 ▸ hb)
  constructor
  · rintro ⟨hlen, hfid, hcmp⟩
    have hname := of_decide_eq_true hcmp
    rw [take_length, hlen, take_length, hwhole, hwhole] at hname
    cases k
    cases l
    congr
  · rintro rfl
    exact ⟨rfl, rfl, decide_eq_true rfl⟩

/-- The walk from the record behind `before` on, to the first record of the link. -/
theorem linkeaFindLoop_spec {body rest : List UInt8} (l : Link) (before : List Link)
    {after : List Link} (hbody : body = packed (before ++ after) ++ rest) :
    (∃ skip tail, after = skip ++ l :: tail ∧ l ∉ skip ∧
      linkeaFindLoop body l.name l.pfid after.length (packed before).length =
        some ((packed (before ++ skip)).length, l.record.length)) ∨ l ∉ after ∧
      linkeaFindLoop body l.name l.pfid after.length (packed before).length = none := by
  induction after generalizing before with
  | nil => exact .inr ⟨not_mem_nil, rfl⟩
  | cons k after ih =>
    have hdrop : body.drop (packed before).length = k.record ++ (packed after ++ rest) := by
      simp [hbody]
    rw [length_cons, linkeaFindLoop, hdrop, linkeaEntryUnpack_record]
    simp only [eq_iff]
    by_cases heq : k = l
    · subst heq
      rw [if_pos rfl]
      exact .inl ⟨[], after, rfl, not_mem_nil, by rw [append_nil]⟩
    · have hnext : (packed before).length + k.record.length = (packed (before ++ [k])).length := by
        simp [packed]
      rw [if_neg heq, hnext]
      rcases ih (before ++ [k]) (by simp [hbody]) with
        ⟨skip, tail, rfl, hskip, hloop⟩ | ⟨hnot, hloop⟩
      · refine .inl ⟨k :: skip, tail, rfl, by simp [Ne.symm heq, hskip], ?_⟩
        rw [hloop, append_assoc]
        rfl
      · exact .inr ⟨by simp [Ne.symm heq, hnot], hloop⟩

/-! ## Every call -/

namespace LinkeaHolds

variable {d : LinkeaData} {links : List Link} (h : LinkeaHolds d links)
include h

theorem decodes : linkeaDecode d.lehReccount d.body = links.map fun l => (l.name, l.pfid) := by
  obtain ⟨rest, hbody⟩ := h.body
  rw [h.count, hbody]
  clear h hbody
  induction links with
  | nil => rfl
  | cons l links ih =>
    rw [packed_cons, append_assoc, length_cons, linkeaDecode, linkeaEntryUnpack_record]
    simp [ih]

/-- The first record of the link is found, if there is one. -/
theorem find (l : Link) :
    (∃ skip tail, links = skip ++ l :: tail ∧ l ∉ skip ∧ linkeaLinksFind d l.name l.pfid =
      (0, { d with ldLee := some (packed skip).length, ldReclen := l.record.length })) ∨ l ∉ links ∧
      linkeaLinksFind d l.name l.pfid = (-2, { d with ldLee := none, ldReclen := 0 }) := by
  obtain ⟨rest, hbody⟩ := h.body
  rw [linkeaLinksFind, h.count]
  rcases linkeaFindLoop_spec l [] hbody with
    ⟨skip, tail, heq, hskip, hloop⟩ | ⟨hnot, hloop⟩
  · refine .inl ⟨skip, tail, heq, hskip, ?_⟩
    rw [show linkeaFindLoop d.body l.name l.pfid links.length 0 = _ from hloop]
    rfl
  · refine .inr ⟨hnot, ?_⟩
    rw [show linkeaFindLoop d.body l.name l.pfid links.length 0 = _ from hloop]

theorem add {l : Link} {now : ℕ} {grows : Bool} :
    LinkeaHolds (linkeaAddBuf d l.name l.pfid now grows).2
      (if (linkeaAddBuf d l.name l.pfid now grows).1 = 0 ∧ ¬ d.Overflows l.name
        then links ++ [l] else links) := by
  obtain ⟨rest, hbody⟩ := h.body
  have hlee : d.lehLen - linkEaHeaderSize = (packed links).length := by
    rw [h.len, Nat.add_sub_cancel_left]
  rw [linkeaAddBuf]
  by_cases hover : d.Overflows l.name
  · rw [if_pos hover, if_neg fun hadd => hadd.2 hover]
    exact { h with }
  · rw [if_neg hover]
    dsimp only
    split
    · exact h
    · rw [if_pos ⟨rfl, hover⟩]
      have hle := Nat.le_of_not_lt hover
      refine ⟨?_, by simp [h.count], ?_, ?_⟩
      · have hlast : packed [l] = l.record := append_nil _
        rw [hlee, hbody, append_assoc, memcpy_append, ← record, packed_append, hlast]
        exact ⟨_, rfl⟩
      · simp [h.len, packed, record, add_assoc]
      · have hrec := l.length_record
        rw [record] at hrec
        dsimp only
        omega

/-- The records behind the one that is deleted move to its place. -/
theorem del {skip tail : List Link} {l : Link} (hlinks : links = skip ++ l :: tail)
    (hlee : d.ldLee = some (packed skip).length) (hreclen : d.ldReclen = l.record.length) :
    ∃ d', linkeaDelBuf d = some d' ∧ LinkeaHolds d' (skip ++ tail) := by
  obtain ⟨rest, hbody⟩ := h.body
  subst hlinks
  have hlen : d.lehLen - l.record.length = linkEaHeaderSize + (packed (skip ++ tail)).length := by
    rw [h.len]
    simp
    omega
  have hmove : (d.body.drop ((packed skip).length + l.record.length)).take
      (d.lehLen - l.record.length - (linkEaHeaderSize + (packed skip).length)) = packed tail := by
    rw [hlen, hbody, ← drop_drop]
    simp [Nat.add_sub_add_left]
  have hpos : 0 < d.lehReccount := h.count ▸ length_pos_of_mem mem_append_cons_self
  rw [linkeaDelBuf, hlee, Option.bind_some, lassert_pos hpos, hreclen]
  dsimp only
  rw [hmove]
  refine ⟨_, rfl, ?_, ?_, hlen, ?_⟩
  · rw [hbody, packed_append, append_assoc, memcpy_append, ← packed_append]
    exact ⟨_, rfl⟩
  · simp [h.count]
  · exact (Nat.sub_le _ _).trans h.max

end LinkeaHolds

/-- The EA has the links, and after a link has been found the cursor is at its first record. -/
structure LinkeaInv (s : LinkeaRun) : Prop where
  holds : LinkeaHolds s.data s.links
  cursor : ∀ l, s.found = some l → ∃ skip tail, s.links = skip ++ l :: tail ∧ l ∉ skip ∧
    s.data.ldLee = some (packed skip).length ∧ s.data.ldReclen = l.record.length

namespace LinkeaInv

variable {s : LinkeaRun} (h : LinkeaInv s)
include h

theorem step {s' : LinkeaRun} {op : LinkeaOp} (huse : LinkeaUse s op)
    (hs : linkeaStep s op = some s') : LinkeaInv s' := by
  cases op with
  | add l now grows =>
    cases hs
    exact ⟨h.holds.add, nofun⟩
  | find l =>
    cases hs
    rcases h.holds.find l with ⟨skip, tail, hlinks, hskip, hfind⟩ | ⟨-, hfind⟩
    · rw [hfind]
      refine ⟨{ h.holds with }, ?_⟩
      rintro l' ⟨⟩
      exact ⟨skip, tail, hlinks, hskip, rfl, rfl⟩
    · rw [hfind]
      exact ⟨{ h.holds with }, nofun⟩
  | del =>
    obtain ⟨l, hfound⟩ := Option.ne_none_iff_exists'.mp huse
    obtain ⟨skip, tail, hlinks, hskip, hlee, hreclen⟩ := h.cursor l hfound
    obtain ⟨d', hdel, hholds⟩ := h.holds.del hlinks hlee hreclen
    simp only [linkeaStep, hdel, hfound, Option.map_some, Option.getD_some] at hs
    cases hs
    refine ⟨?_, nofun⟩
    rwa [hlinks, erase_append_right _ hskip, erase_cons_head]

theorem good : LinkeaGood s where
  decodes := h.holds.decodes
  len := by
    rw [h.holds.len, packed, length_flatMap]
    simp only [length_record]
  max := h.holds.max
  find l := by
    rcases h.holds.find l with ⟨skip, tail, hlinks, hskip, hfind⟩ | ⟨hnot, hfind⟩
    · obtain ⟨rest, hbody⟩ := h.holds.body
      rw [if_pos (by simp [hlinks])]
      refine ⟨_, hfind, ?_⟩
      rw [hbody, hlinks, packed_append, append_assoc, drop_left, packed_cons,
        append_assoc, linkeaEntryUnpack_record]
    · rw [if_neg hnot, hfind]
  overflow l now grows hover := by
    rw [linkeaAddBuf, if_pos hover]
    refine ⟨_, ?_, rfl⟩
    split
    · exact Nat.one_ne_zero
    · assumption

end LinkeaInv

/-- A link to a file `ab` in the directory `[7:1:0]`, and one to `c` in the same directory. -/
def linkAb : Link := ⟨[97, 98], ⟨7, 1, 0⟩, by decide, by decide, by decide⟩

@[inherit_doc linkAb]
def linkC : Link := ⟨[99], ⟨7, 1, 0⟩, by decide, by decide, by decide⟩

open ByteReader

def linkEaMagic : ℕ := 0x11EAF1DF

/-- `linkea_init` on a little-endian host, with `leh_reccount`; a header in the other byte order is
swapped. -/
def linkeaInit (buf : List UInt8) : Except ℤ ℕ :=
  let field off := if ofBeBytes (buf.take 4) = linkEaMagic then ofBeBytes ((buf.drop off).take 4)
    else leAt buf off 4
  if field 0 ≠ linkEaMagic then .error (-22)
  else if field 4 = 0 ∧ field 16 = 0 then .error (-61)
  else .ok (field 4)

/-- `strncmp(lee_name, name, ln_namelen) == 0`, with the bytes from `lee_name` to the end of the
buffer. -/
def strncmpReads : List UInt8 → List UInt8 → Except (Fault Unit) Bool
  | _, [] => pure true
  | [], _ :: _ => .error .outOfBounds
  | a :: lee, b :: name =>
    if a ≠ b then pure false else if a = 0 then pure true else strncmpReads lee name

section

variable (body name : List UInt8) (pfid : LuFid)

/-- The record at `lee` has the length and the FID of the link. -/
def LinkeaAlike (lee : ℕ) : Prop :=
  let e := linkeaEntryUnpack (body.drop lee)
  e.1 = linkEaEntrySize + name.length ∧ e.2.2 = pfid
  deriving Decidable

/-- The loop of `linkea_links_find` with what it reads behind the header; a negative `ln_namelen` is
rejected. -/
def linkeaFindReads : ℕ → ℕ → Except (Fault Unit) (Option ℕ)
  | 0, _ => pure none
  | n + 1, lee => do
    touch _ body lee linkEaEntrySize
    if (linkeaEntryUnpack (body.drop lee)).1 < linkEaEntrySize then reject ()
    else do
      let same ← if LinkeaAlike body name pfid lee then
          strncmpReads (body.drop (lee + linkEaEntrySize)) name
        else pure false
      if same then pure (some lee)
      else linkeaFindReads n (lee + (linkeaEntryUnpack (body.drop lee)).1)

/-- From `lee` on, up to the record of the link, the fixed part of each record is in the buffer and
its length is not too small; and where a name is compared, the buffer does not end inside it. -/
def LinkeaRecordsFit : ℕ → ℕ → Prop
  | 0, _ => True
  | n + 1, lee =>
    let reclen := (linkeaEntryUnpack (body.drop lee)).1
    let rest := body.drop (lee + linkEaEntrySize)
    lee + linkEaEntrySize ≤ body.length ∧ linkEaEntrySize ≤ reclen ∧
      (LinkeaAlike body name pfid lee → rest <+: name → 0 ∉ rest → rest = name) ∧
      (¬ (LinkeaAlike body name pfid lee ∧ strncmpReads rest name = .ok true) →
        LinkeaRecordsFit n (lee + reclen))

variable {body name pfid}

theorem accepts_strncmpReads {lee : List UInt8} :
    Accepts (strncmpReads lee name) ↔ (lee <+: name → 0 ∉ lee → lee = name) := by
  induction name generalizing lee with
  | nil => exact iff_of_true ⟨true, by cases lee <;> rfl⟩ fun h _ => prefix_nil.mp h
  | cons b name ih =>
    cases lee with
    | nil => simp [strncmpReads, Accepts]
    | cons a lee =>
      rw [strncmpReads, cons_prefix_cons, mem_cons, not_or, cons.injEq]
      split
      · next hne => exact iff_of_true (accepts_pure _) fun h => absurd h.1 hne
      · next heq =>
        split
        · next h0 => exact iff_of_true (accepts_pure _) fun _ h => absurd h0.symm h.1
        · next h0 =>
          rw [ih]
          exact ⟨fun h hp hn => ⟨hp.1, h hp.2 hn.2⟩,
            fun h hp hn => (h ⟨not_not.mp heq, hp⟩ ⟨Ne.symm h0, hn⟩).2⟩

theorem accepts_linkeaFindReads (n : ℕ) : ∀ lee, Accepts (linkeaFindReads body name pfid n lee) ↔
    LinkeaRecordsFit body name pfid n lee := by
  induction n with
  | zero => exact fun _ => iff_of_true (accepts_pure _) trivial
  | succ n ih =>
    intro lee
    rw [linkeaFindReads, LinkeaRecordsFit, ← ih, ← accepts_strncmpReads]
    by_cases hhead : lee + linkEaEntrySize ≤ body.length
    · rw [touch_eq_ok hhead, ok_bind]
      split
      · next hlen => exact iff_of_false (not_accepts_reject _) fun h => by omega
      · next hlen =>
        simp only [hhead, not_lt.mp hlen, true_and]
        split
        · next halike =>
          cases strncmpReads (body.drop (lee + linkEaEntrySize)) name with
          | error e => simp [halike, Accepts, bind, Except.bind]
          | ok same => cases same <;> simp [halike, Accepts, pure, Except.pure, ok_bind]
        · next halike => simp [halike, Accepts]
    · rw [touch, if_neg hhead]
      exact iff_of_false (by simp [Accepts, bind, Except.bind]) fun h => hhead h.1

end

/-- With an EA that `linkea_init` accepts, `linkea_links_find` stays inside the buffer and forms no
negative length exactly if the records fit that it comes to. -/
theorem linkeaLinksFind_reads (buf name : List UInt8) (pfid : LuFid) (reccount : ℕ) :
    linkeaInit buf = .ok reccount →
      (Accepts (linkeaFindReads (buf.drop linkEaHeaderSize) name pfid reccount 0) ↔
        LinkeaRecordsFit (buf.drop linkEaHeaderSize) name pfid reccount 0) :=
  fun _ => accepts_linkeaFindReads reccount 0

/-- The header of an EA, in big-endian order. -/
def linkeaHeader (reccount : ℕ) : List UInt8 :=
  beBytes 8 (linkEaMagic * 2 ^ 32 + reccount) ++ beBytes 16 0

/-- The search for the second of two links passes the record of the first, and reads only what is
there. -/
theorem linkeaLinksFind_reads_second : Accepts (linkeaFindReads
    ((linkeaHeader 2 ++ linkAb.record ++ linkC.record).drop linkEaHeaderSize)
    linkC.name linkC.pfid 2 0) := by
  refine (linkeaLinksFind_reads (linkeaHeader 2 ++ linkAb.record ++ linkC.record) _ _ 2
    (by decide +kernel)).mpr ?_
  exact ⟨by decide, by decide, by decide, fun _ => ⟨by decide, by decide, by decide,
    fun h => absurd (by decide) h⟩⟩

/-- An EA is accepted when it ends behind the header. -/
theorem linkeaLinksFind_past : ¬ ∀ (buf name : List UInt8) (pfid : LuFid) (reccount : ℕ),
    linkEaHeaderSize ≤ buf.length → linkeaInit buf = .ok reccount →
      Accepts (linkeaFindReads (buf.drop linkEaHeaderSize) name pfid reccount 0) := by
  intro h
  obtain ⟨a, ha⟩ := h (linkeaHeader 1) linkC.name linkC.pfid 1 (by decide) (by decide +kernel)
  cases ha

end Lustre
