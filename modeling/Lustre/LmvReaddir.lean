import Mathlib.Data.List.Pairwise
import Mathlib.Data.List.TakeWhile
import Mathlib.Algebra.Group.Nat.Defs

/-!
# Listing a striped directory (`lmv_striped_read_page`)

The entries of a striped directory are spread over several MDTs by the hash of their
names. A client lists it page by page. For each page it opens a cursor on every stripe,
takes the entry with the smallest hash again and again, and forgets the cursors when the
page is full: the next call starts from nothing but the hash where the last one ended.

A cursor stands in a page of its stripe. What it still has to deliver, `Due`, is all
entries from a threshold on; `StripeOk` says how page and cursor represent them, and
`stripeDirentLoad_spec`, `lmvDirentNext_spec`, `fillPage_spec` carry it through the loading
of a page, the choice of the next entry and the filling of the output page.
-/

namespace Lustre

open List

/-! ## Entries and pages -/

/-- The parts of `struct lu_dirent` that belong to the entry itself. -/
structure DirEntry where
  ldeFid : ℕ
  ldeHash : ℕ
  /-- `lde_name`, of `lde_namelen` bytes -/
  ldeName : List UInt8
  ldeAttrs : ℕ
  deriving DecidableEq

/-- `struct lu_dirent`: an entry in a page. -/
structure LuDirent where
  ent : DirEntry
  /-- `lde_reclen`: where the next entry is, 0 in the last one -/
  ldeReclen : ℕ
  deriving DecidableEq

structure LuDirpage where
  ldpHashStart : ℕ
  ldpHashEnd : ℕ
  /-- `LDF_COLLIDE` of `ldp_flags` -/
  ldfCollide : Bool
  /-- the entries; none if `LDF_EMPTY` is set -/
  ldpEntries : List LuDirent
  deriving DecidableEq

def mdsDirEndOff : ℕ := 2 ^ 64 - 2

/-- `LU_PAGE_SIZE`: the size of the pages the servers send. -/
def luPageSize : ℕ := 4096

/-- `sizeof` of `struct lu_dirpage`. -/
def sizeofDirpage : ℕ := 24

/-- `.` as a name. -/
def nameDot : List UInt8 := [0x2e]

/-- `..` as a name. -/
def nameDotDot : List UInt8 := [0x2e, 0x2e]

def luDirentCalcSize (namelen attrs : ℕ) : ℕ :=
  let size := if attrs &&& 2 ≠ 0 then (32 + namelen + 1) / 2 * 2 + 2 else 32 + namelen
  (size + 7) / 8 * 8

/-- The size of an entry that is copied. The last entry of a page has no record length. -/
def entSize (x : LuDirent) : ℕ :=
  if x.ldeReclen = 0 then luDirentCalcSize x.ent.ldeName.length x.ent.ldeAttrs else x.ldeReclen

/-- A dummy entry has no name. -/
def LuDirent.Named (x : LuDirent) : Prop := x.ent.ldeName ≠ []

/-- The entry is to be listed for stripe `i`: `.` and `..` only of the first stripe. -/
def DirEntry.Listed (e : DirEntry) (i : ℕ) : Prop :=
  e.ldeName ≠ [] ∧ (i ≠ 0 → e.ldeName ≠ nameDot ∧ e.ldeName ≠ nameDotDot)
  deriving Decidable

/-! ## What the servers answer -/

/-- The page that `md_read_page` answers for hash `h` of a stripe with the given entries. -/
structure PageFor (entries : List DirEntry) (h : ℕ) (page : LuDirpage) : Prop where
  /-- it holds entries of the stripe, dummies aside -/
  mem : ∀ x ∈ page.ldpEntries, x.Named → x.ent ∈ entries
  /-- in the order of their hashes -/
  sorted : page.ldpEntries.Pairwise fun x y => x.Named → y.Named → x.ent.ldeHash < y.ent.ldeHash
  /-- all of them from `h` up to its end -/
  all : ∀ e ∈ entries, h ≤ e.ldeHash → e.ldeHash < page.ldpHashEnd →
    ∃ x ∈ page.ldpEntries, x.ent = e
  /-- its end is above its last entry -/
  below : ∀ x ∈ page.ldpEntries, x.Named → x.ent.ldeHash < page.ldpHashEnd
  /-- the first entry from `h` on is before its end -/
  first : ∀ e ∈ entries, h ≤ e.ldeHash → ∃ e' ∈ entries, h ≤ e'.ldeHash ∧
    e'.ldeHash < page.ldpHashEnd
  /-- it is the end of the directory if there is none -/
  eof : (∀ e ∈ entries, e.ldeHash < h) → page.ldpHashEnd = mdsDirEndOff
  /-- the end of the directory is the last end there is -/
  end_le : page.ldpHashEnd ≤ mdsDirEndOff
  /-- an entry fits in a page behind its header -/
  fits : ∀ x ∈ page.ldpEntries, entSize x ≤ luPageSize - sizeofDirpage

/-- A stripe of a directory, as its server shows it. -/
structure DirStripe where
  entries : List DirEntry
  mdReadPage : ℕ → LuDirpage
  distinct : entries.Pairwise fun e e' => e.ldeHash ≠ e'.ldeHash
  /-- hashes are below the end of the directory -/
  hash_lt : ∀ e ∈ entries, e.ldeHash < mdsDirEndOff
  /-- each page is as asked for -/
  page : ∀ h ≤ mdsDirEndOff, PageFor entries h (mdReadPage h)
  /-- a page read from where another ends has no earlier entry -/
  next : ∀ h h', h' = (mdReadPage h).ldpHashEnd → ∀ x ∈ (mdReadPage h').ldpEntries,
    x.Named → h' ≤ x.ent.ldeHash

/-! ## The model -/

/-- `struct stripe_dirent`: the page that is loaded and the rest of it from the current
entry on. -/
structure StripeDirent where
  /-- `sd_page`, `sd_dp` -/
  sdPage : Option LuDirpage
  /-- `sd_ent` and what follows it in the page; empty for `NULL` -/
  sdEnt : List LuDirent
  sdEof : Bool
  deriving DecidableEq

/-- A stripe that has not been read yet. -/
def stripeDirentInit : StripeDirent := ⟨none, [], false⟩

/-- The entries that `stripe_dirent_get` passes over. -/
def skipped (hash i : ℕ) (x : LuDirent) : Bool :=
  x.ent.ldeName.isEmpty || (i != 0 && (x.ent.ldeName == nameDot || x.ent.ldeName == nameDotDot)) ||
    decide (x.ent.ldeHash < hash)

def stripeDirentGet (hash i : ℕ) (ents : List LuDirent) : List LuDirent :=
  ents.dropWhile (skipped hash i)

open Function (update update_self update_of_ne)

section
variable (dir : ℕ → DirStripe)

/-- `stripe_dirent_load`: `none` where an assertion fails, or the fuel runs out. `ldcHash` is
the hash of the context, `hash` the local variable. -/
def stripeDirentLoad (ldcHash i : ℕ) : ℕ → ℕ → StripeDirent → Option StripeDirent
  | 0, _, _ => none
  | fuel + 1, hash, stripe =>
    match stripe.sdPage with
    | some page =>
      if hash ≤ page.ldpHashEnd then
        if page.ldpHashEnd = mdsDirEndOff then some ⟨none, [], true⟩
        else
          let next := (dir i).mdReadPage page.ldpHashEnd
          let ent := stripeDirentGet ldcHash i next.ldpEntries
          if ent = [] then
            stripeDirentLoad ldcHash i fuel page.ldpHashEnd ⟨some next, [], false⟩
          else some ⟨some next, ent, false⟩
      else none
    | none =>
      let next := (dir i).mdReadPage hash
      let ent := stripeDirentGet ldcHash i next.ldpEntries
      if ent = [] then stripeDirentLoad ldcHash i fuel hash ⟨some next, [], false⟩
      else some ⟨some next, ent, false⟩

/-- A cursor without an entry is loaded. -/
def loaded (ldcHash fuel i : ℕ) (stripe : StripeDirent) : Option StripeDirent :=
  if stripe.sdEnt = [] then stripeDirentLoad dir ldcHash i fuel ldcHash stripe else some stripe

/-- The hash of the current entry of a stripe. -/
def entHash (stripe : StripeDirent) : ℕ := (stripe.sdEnt.head?.map fun x => x.ent.ldeHash).getD 0

/-- The loop of `lmv_dirent_next` over the last `n` stripes, from stripe `i` on. -/
def lmvDirentScan (ldcHash fuel : ℕ) :
    (n i : ℕ) → Option ℕ → (ℕ → StripeDirent) → Option (Option ℕ × (ℕ → StripeDirent))
  | 0, _, min, stripes => some (min, stripes)
  | n + 1, i, min, stripes =>
    if (stripes i).sdEof then lmvDirentScan ldcHash fuel n (i + 1) min stripes
    else
      (loaded dir ldcHash fuel i (stripes i)).bind fun stripe =>
        let stripes := update stripes i stripe
        match stripe.sdEnt with
        | [] =>
          if stripe.sdEof then lmvDirentScan ldcHash fuel n (i + 1) min stripes else none
        | x :: _ =>
          if ∀ m ∈ min, entHash (stripes m) > x.ent.ldeHash then
            if x.ent.ldeHash = ldcHash then some (some i, stripes)
            else lmvDirentScan ldcHash fuel n (i + 1) (some i) stripes
          else lmvDirentScan ldcHash fuel n (i + 1) min stripes

/-- `lmv_dirent_next`: the entry it takes, if there is one. -/
def lmvDirentNext (count ldcHash fuel : ℕ) (stripes : ℕ → StripeDirent) :
    Option (Option LuDirent × (ℕ → StripeDirent)) :=
  (lmvDirentScan dir ldcHash fuel count 0 none stripes).bind fun r =>
    match r.1 with
    | none => some (none, r.2)
    | some min =>
      match (r.2 min).sdEnt with
      | [] => none
      | x :: rest =>
        some (some x, update r.2 min { r.2 min with sdEnt := stripeDirentGet ldcHash min rest })

/-- The copy of an entry in the output page: `.` and `..` get the identifiers of the
directory and of its parent. -/
def copyEntry (fid1 fid3 : ℕ) (x : LuDirent) : LuDirent where
  ent := { x.ent with
    ldeFid := if x.ent.ldeName = nameDot then fid1
      else if x.ent.ldeName = nameDotDot then fid3 else x.ent.ldeFid }
  ldeReclen := entSize x

/-- The loop of `lmv_striped_read_page`: the entries copied and the hash at the end. -/
def fillPage (fid1 fid3 count loadFuel : ℕ) :
    (fuel ldcHash leftBytes : ℕ) → (ℕ → StripeDirent) → Option (List LuDirent × ℕ)
  | 0, _, _, _ => none
  | fuel + 1, ldcHash, leftBytes, stripes =>
    (lmvDirentNext dir count ldcHash loadFuel stripes).bind fun r =>
      match r.1 with
      | none => some ([], mdsDirEndOff)
      | some x =>
        if entSize x > leftBytes then some ([], x.ent.ldeHash)
        else
          (fillPage fid1 fid3 count loadFuel fuel x.ent.ldeHash (leftBytes - entSize x) r.2).map
            fun rest => (copyEntry fid1 fid3 x :: rest.1, rest.2)

/-- The last entry of the page gets record length 0. -/
def endEntries : List LuDirent → List LuDirent
  | [] => []
  | [x] => [{ x with ldeReclen := 0 }]
  | x :: rest => x :: endEntries rest

def lmvStripedReadPage (fid1 fid3 count pageSize fuel offset : ℕ) : Option LuDirpage :=
  (fillPage dir fid1 fid3 count fuel fuel offset (pageSize - sizeofDirpage)
    fun _ => stripeDirentInit).map fun r =>
      ⟨offset, r.2, decide (∃ x ∈ r.1.getLast?, x.ent.ldeHash = r.2), endEntries r.1⟩

/-- A listing: pages are read, each from where the last one ended, up to the end of the
directory. -/
def readDir (fid1 fid3 count pageSize loadFuel : ℕ) : (fuel offset : ℕ) → Option (List LuDirent)
  | 0, _ => none
  | fuel + 1, offset =>
    (lmvStripedReadPage dir fid1 fid3 count pageSize loadFuel offset).bind fun page =>
      if page.ldpHashEnd = mdsDirEndOff then some page.ldpEntries
      else (readDir fid1 fid3 count pageSize loadFuel fuel page.ldpHashEnd).map
        (page.ldpEntries ++ ·)

end

/-! ## What a cursor still has to deliver -/

variable {dir : ℕ → DirStripe} {i c t : ℕ}

/-- Entry `e` of stripe `i` is to be listed and its hash is `t` or more. -/
structure Due (dir : ℕ → DirStripe) (i t : ℕ) (e : DirEntry) : Prop where
  mem : e ∈ (dir i).entries
  listed : e.Listed i
  le_hash : t ≤ e.ldeHash

theorem Due.mono {e : DirEntry} {t' : ℕ} (h : Due dir i t' e) (hle : t ≤ t') : Due dir i t e :=
  ⟨h.mem, h.listed, hle.trans h.le_hash⟩

/-- The cursor `l` in a page holds what is due before the end of the page. -/
structure CursorOk (dir : ℕ → DirStripe) (i t : ℕ) (page : LuDirpage) (l : List LuDirent) :
    Prop where
  isPage : ∃ h, page = (dir i).mdReadPage h
  le_end : t ≤ page.ldpHashEnd
  /-- nor is the page past the end of the directory -/
  end_le : page.ldpHashEnd ≤ mdsDirEndOff
  due_iff : ∀ e, (∃ x ∈ l, x.ent = e ∧ e.Listed i) ↔ Due dir i t e ∧ e.ldeHash < page.ldpHashEnd
  sorted : l.Pairwise fun x y => x.Named → y.Named → x.ent.ldeHash < y.ent.ldeHash
  head : ∀ x ∈ l.head?, x.ent.Listed i
  fits : ∀ x ∈ l, entSize x ≤ luPageSize - sizeofDirpage

/-- How a stripe represents what is due from `t` on, `c` being the hash of the context. -/
inductive StripeOk (dir : ℕ → DirStripe) (i c t : ℕ) : StripeDirent → Prop where
  /-- at its end nothing is due -/
  | eof (none_due : ∀ e, ¬ Due dir i t e) : StripeOk dir i c t ⟨none, [], true⟩
  /-- a stripe not read yet will be read from `c` on -/
  | fresh (due : ∀ e, Due dir i c e → t ≤ e.ldeHash) : StripeOk dir i c t ⟨none, [], false⟩
  /-- a page is loaded; it is read to its end only when its last entry has been taken -/
  | loaded {page : LuDirpage} {l : List LuDirent} (cursor : CursorOk dir i t page l)
      (taken : l = [] → c < t) : StripeOk dir i c t ⟨some page, l, false⟩

/-- The stripe has a current entry or is at its end. -/
def StripeDirent.Settled (stripe : StripeDirent) : Prop :=
  stripe.sdEnt ≠ [] ∨ stripe.sdEof = true

variable {x : LuDirent}

theorem skipped_eq_false : skipped c i x = false ↔ x.ent.Listed i ∧ c ≤ x.ent.ldeHash := by
  simp only [skipped, DirEntry.Listed, Bool.or_eq_false_iff, Bool.and_eq_false_iff,
    isEmpty_eq_false_iff, bne_eq_false_iff_eq, beq_eq_false_iff_ne, decide_eq_false_iff_not,
    not_lt, and_congr_left_iff, and_congr_right_iff]
  intro _ _
  constructor
  · rintro (h0 | h) hne
    · exact absurd h0 hne
    · exact h
  · intro h
    rcases Nat.eq_zero_or_pos i with h0 | hpos
    · exact Or.inl h0
    · exact Or.inr (h (Nat.pos_iff_ne_zero.mp hpos))

theorem mem_dropWhile_of_false {α : Type} {p : α → Bool} {l : List α} {x : α} (h : x ∈ l)
    (hx : p x = false) : x ∈ l.dropWhile p := by
  rw [← takeWhile_append_dropWhile (p := p) (l := l), mem_append] at h
  rcases h with h | h
  · rw [mem_takeWhile_imp h] at hx
    cases hx
  · exact h

/-- The current entry that `stripe_dirent_get` leaves is to be listed, from `c` on. -/
theorem head_stripeDirentGet (l : List LuDirent) :
    ∀ x ∈ (stripeDirentGet c i l).head?, x.ent.Listed i ∧ c ≤ x.ent.ldeHash := by
  intro x hx
  rw [stripeDirentGet] at hx
  have hnot := head?_dropWhile_not (skipped c i) l
  rw [Option.mem_def.mp hx] at hnot
  exact skipped_eq_false.mp (by simpa using hnot)

theorem mem_of_mem_stripeDirentGet {l : List LuDirent} (h : x ∈ stripeDirentGet c i l) : x ∈ l :=
  (dropWhile_sublist _).subset h

/-- All named entries that `stripe_dirent_get` leaves of a page are from `c` on. -/
theorem le_hash_of_mem_get {l : List LuDirent}
    (hsorted : l.Pairwise fun x y => x.Named → y.Named → x.ent.ldeHash < y.ent.ldeHash)
    (hx : x ∈ stripeDirentGet c i l) (hnamed : x.Named) : c ≤ x.ent.ldeHash := by
  have hhead := head_stripeDirentGet (c := c) (i := i) l
  have hrest := hsorted.sublist (dropWhile_sublist (skipped c i))
  change (stripeDirentGet c i l).Pairwise _ at hrest
  generalize stripeDirentGet c i l = m at hx hhead hrest
  cases m with
  | nil => cases hx
  | cons y rest =>
    obtain ⟨hlisted, hle⟩ := hhead y rfl
    rcases mem_cons.mp hx with rfl | hx
    · exact hle
    · have hlt := (pairwise_cons.mp hrest).1 x hx hlisted.1 hnamed
      omega

/-- The cursor in a page that has just been read. -/
theorem CursorOk.of_page {h : ℕ} (hh : h ≤ mdsDirEndOff) (hct : c ≤ t)
    (hend : t ≤ ((dir i).mdReadPage h).ldpHashEnd) (hup : ∀ e, Due dir i t e → h ≤ e.ldeHash)
    (hdown : ∀ x ∈ ((dir i).mdReadPage h).ldpEntries, x.ent.Listed i → c ≤ x.ent.ldeHash →
      t ≤ x.ent.ldeHash) : CursorOk dir i t ((dir i).mdReadPage h)
      (stripeDirentGet c i ((dir i).mdReadPage h).ldpEntries) := by
  have hpage := (dir i).page h hh
  constructor
  case isPage => exact ⟨h, rfl⟩
  case le_end => exact hend
  case end_le => exact hpage.end_le
  case due_iff =>
    intro e
    constructor
    · rintro ⟨x, hx, rfl, hlisted⟩
      have hmem := mem_of_mem_stripeDirentGet hx
      have hle := le_hash_of_mem_get hpage.sorted hx hlisted.1
      exact ⟨⟨hpage.mem x hmem hlisted.1, hlisted, hdown x hmem hlisted hle⟩,
        hpage.below x hmem hlisted.1⟩
    · rintro ⟨hdue, hlt⟩
      obtain ⟨x, hx, rfl⟩ := hpage.all e hdue.mem (hup e hdue) hlt
      refine ⟨x, mem_dropWhile_of_false hx ?_, rfl, hdue.listed⟩
      exact skipped_eq_false.mpr ⟨hdue.listed, hct.trans hdue.le_hash⟩
  case sorted => exact hpage.sorted.sublist (dropWhile_sublist _)
  case head => exact fun x hx => (head_stripeDirentGet _ x hx).1
  case fits => exact fun x hx => hpage.fits x (mem_of_mem_stripeDirentGet hx)

/-- The end of a page that is read from `h` on is past `h`, unless it is the end of the
directory. -/
theorem lt_hashEnd (dir : ℕ → DirStripe) (i : ℕ) {h : ℕ} (hh : h ≤ mdsDirEndOff) :
    h < ((dir i).mdReadPage h).ldpHashEnd ∨ ((dir i).mdReadPage h).ldpHashEnd = mdsDirEndOff := by
  have hpage := (dir i).page h hh
  by_cases hex : ∃ e ∈ (dir i).entries, h ≤ e.ldeHash
  · obtain ⟨e, he, hle⟩ := hex
    obtain ⟨e', -, hle', hlt⟩ := hpage.first e he hle
    left
    omega
  · right
    refine hpage.eof fun e he => ?_
    by_contra hnot
    exact hex ⟨e, he, not_lt.mp hnot⟩

/-! ## Loading a page -/

/-- **Loading from a page that has been read to its end** gives a current entry or the end of
the stripe, and no assertion fails. -/
theorem stripeDirentLoad_next (hct : c ≤ t) :
    ∀ fuel hash page, hash ≤ page.ldpHashEnd → CursorOk dir i t page [] →
      mdsDirEndOff - page.ldpHashEnd < fuel →
      ∃ stripe, stripeDirentLoad dir c i fuel hash ⟨some page, [], false⟩ = some stripe ∧
        StripeOk dir i c t stripe ∧ stripe.Settled := by
  intro fuel
  induction fuel with
  | zero =>
    omega
  | succ fuel ih =>
    intro hash page hhash hcur hfuel
    have hle := hcur.end_le
    rw [stripeDirentLoad]
    simp only [if_pos hhash]
    -- nothing due is left in the page
    have hpast : ∀ e, Due dir i t e → page.ldpHashEnd ≤ e.ldeHash := by
      intro e hdue
      by_contra hnot
      obtain ⟨x, hx, -⟩ := (hcur.due_iff e).mpr ⟨hdue, not_le.mp hnot⟩
      cases hx
    by_cases heof : page.ldpHashEnd = mdsDirEndOff
    · rw [if_pos heof]
      refine ⟨_, rfl, StripeOk.eof fun e hdue => ?_, Or.inr rfl⟩
      have hlt := (dir i).hash_lt e hdue.mem
      have hge := hpast e hdue
      omega
    · rw [if_neg heof]
      obtain ⟨h, rfl⟩ := hcur.isPage
      have hprog := lt_hashEnd dir i hle
      have hnext : CursorOk dir i t _ (stripeDirentGet c i _) :=
        CursorOk.of_page hle hct (by have := hcur.le_end; omega) hpast (fun x hx hlisted _ =>
            hcur.le_end.trans ((dir i).next h _ rfl x hx hlisted.1))
      split
      · rename_i hnil
        rw [hnil] at hnext
        exact ih _ _ (by omega) hnext (by omega)
      · rename_i hne
        exact ⟨_, rfl, StripeOk.loaded hnext fun h => absurd h hne, Or.inl hne⟩

/-- **Loading for the first time.** -/
theorem stripeDirentLoad_fresh (hct : c ≤ t) (htc : t ≤ c + 1) (ht : t ≤ mdsDirEndOff)
    (hdue : ∀ e, Due dir i c e → t ≤ e.ldeHash) {fuel : ℕ} (hfuel : mdsDirEndOff + 1 < fuel) :
    ∃ stripe, stripeDirentLoad dir c i fuel c ⟨none, [], false⟩ = some stripe ∧
      StripeOk dir i c t stripe ∧ stripe.Settled := by
  obtain ⟨fuel, rfl⟩ : ∃ n, fuel = n + 1 := ⟨fuel - 1, by omega⟩
  have hc : c ≤ mdsDirEndOff := by omega
  have hpage := (dir i).page c hc
  have hprog := lt_hashEnd dir i hc
  have hnext : CursorOk dir i t _ (stripeDirentGet c i _) :=
    CursorOk.of_page hc hct (by omega) (fun e he => hct.trans he.le_hash)
      (fun x hx hlisted hle => hdue _ ⟨hpage.mem x hx hlisted.1, hlisted, hle⟩)
  rw [stripeDirentLoad]
  dsimp only
  split
  · rename_i hnil
    rw [hnil] at hnext
    exact stripeDirentLoad_next hct _ _ _ (by omega) hnext (by omega)
  · rename_i hne
    exact ⟨_, rfl, StripeOk.loaded hnext fun h => absurd h hne, Or.inl hne⟩

variable {stripe : StripeDirent}

/-- A stripe that is not at its end is settled after `lmv_dirent_next` has looked at it. -/
theorem loaded_spec (hct : c ≤ t) (htc : t ≤ c + 1) (ht : t ≤ mdsDirEndOff)
    (hok : StripeOk dir i c t stripe) (heof : stripe.sdEof = false)
    {fuel : ℕ} (hfuel : mdsDirEndOff + 1 < fuel) :
    ∃ stripe', loaded dir c fuel i stripe = some stripe' ∧
      StripeOk dir i c t stripe' ∧ stripe'.Settled := by
  rw [loaded]
  cases hok with
  | eof none_due => cases heof
  | fresh due =>
    exact stripeDirentLoad_fresh hct htc ht due hfuel
  | @loaded page l cursor taken =>
    by_cases hl : l = []
    · subst hl
      have hle := cursor.le_end
      exact stripeDirentLoad_next hct _ _ _ (by omega) cursor (by omega)
    · rw [if_neg hl]
      exact ⟨_, rfl, StripeOk.loaded cursor taken, Or.inl hl⟩

/-! ## Choosing the next entry -/

/-- The current entry of a stripe is due and comes first of what is due there. -/
theorem StripeOk.head_due (hok : StripeOk dir i c t stripe) (hne : stripe.sdEnt ≠ []) :
    ∃ x rest page, stripe = ⟨some page, x :: rest, false⟩ ∧ CursorOk dir i t page (x :: rest) ∧
      Due dir i t x.ent ∧ x.ent.ldeHash < page.ldpHashEnd ∧
      ∀ e, Due dir i t e → x.ent.ldeHash ≤ e.ldeHash := by
  cases hok with
  | eof none_due | fresh due => exact absurd rfl hne
  | @loaded page l cursor taken =>
    obtain ⟨x, rest, rfl⟩ := exists_cons_of_ne_nil hne
    have hlisted := cursor.head x rfl
    obtain ⟨hdue, hlt⟩ := (cursor.due_iff x.ent).mp ⟨x, mem_cons_self, rfl, hlisted⟩
    refine ⟨x, rest, page, rfl, cursor, hdue, hlt, fun e he => ?_⟩
    by_cases hpast : page.ldpHashEnd ≤ e.ldeHash
    · omega
    · obtain ⟨y, hy, rfl, hy'⟩ := (cursor.due_iff e).mpr ⟨he, not_le.mp hpast⟩
      rcases mem_cons.mp hy with rfl | hy
      · exact le_rfl
      · exact ((pairwise_cons.mp cursor.sorted).1 y hy hlisted.1 hy'.1).le

theorem StripeOk.none_due_of_eof (hok : StripeOk dir i c t stripe)
    (heof : stripe.sdEof = true) : ∀ e, ¬ Due dir i t e := by
  cases hok with
  | eof none_due => exact none_due
  | fresh due | loaded cursor taken => cases heof

/-- What the scan knows after it has looked at the stripes below `k`: they are settled, and
`min` is the stripe whose entry comes first of what they have due, if they have any. -/
structure StripesScanned (dir : ℕ → DirStripe) (t k : ℕ) (min : Option ℕ)
    (stripes : ℕ → StripeDirent) : Prop where
  settled : ∀ j < k, (stripes j).Settled
  none_due : min = none → ∀ j < k, ∀ e, ¬ Due dir j t e
  min_lt : ∀ m ∈ min, m < k ∧ (stripes m).sdEnt ≠ []
  min_le : ∀ m ∈ min, ∀ j < k, ∀ e, Due dir j t e → entHash (stripes m) ≤ e.ldeHash

section
variable {k : ℕ} {min : Option ℕ} {stripes stripes' : ℕ → StripeDirent}

section

variable (hsc : StripesScanned dir t k min stripes) (heq : ∀ j < k, stripes' j = stripes j)
include hsc heq

/-- One more stripe has been looked at, and the minimum stays. -/
theorem StripesScanned.keep (hset : (stripes' k).Settled)
    (hmin : ∀ e, Due dir k t e → ∃ m ∈ min, entHash (stripes m) ≤ e.ldeHash) :
    StripesScanned dir t (k + 1) min stripes' := by
  constructor
  case settled =>
    exact Nat.forall_lt_succ_right.mpr ⟨fun j hj => heq j hj ▸ hsc.settled j hj, hset⟩
  case none_due =>
    refine fun hnone => Nat.forall_lt_succ_right.mpr ⟨hsc.none_due hnone, fun e hdue => ?_⟩
    obtain ⟨m, hm, -⟩ := hmin e hdue
    rw [hnone] at hm
    cases hm
  case min_lt =>
    intro m hm
    obtain ⟨hlt, hne⟩ := hsc.min_lt m hm
    rw [heq m hlt]
    exact ⟨by omega, hne⟩
  case min_le =>
    intro m hm
    rw [heq m (hsc.min_lt m hm).1]
    refine Nat.forall_lt_succ_right.mpr ⟨hsc.min_le m hm, fun e hdue => ?_⟩
    obtain ⟨m', hm', hle⟩ := hmin e hdue
    obtain rfl := Option.mem_unique hm hm'
    exact hle

/-- One more stripe has been looked at, and it is the new minimum. -/
theorem StripesScanned.take (hne : (stripes' k).sdEnt ≠ [])
    (hfirst : ∀ e, Due dir k t e → entHash (stripes' k) ≤ e.ldeHash)
    (hbetter : ∀ m ∈ min, entHash (stripes' k) ≤ entHash (stripes m)) :
    StripesScanned dir t (k + 1) (some k) stripes' := by
  constructor
  case settled =>
    exact Nat.forall_lt_succ_right.mpr ⟨fun j hj => heq j hj ▸ hsc.settled j hj, Or.inl hne⟩
  case none_due =>
    intro hnone
    cases hnone
  case min_lt =>
    intro m hm
    cases hm
    exact ⟨Nat.lt_succ_self k, hne⟩
  case min_le =>
    intro m hm
    cases hm
    refine Nat.forall_lt_succ_right.mpr ⟨fun j hj e hdue => ?_, hfirst⟩
    cases hmin : min with
    | none => exact absurd hdue (hsc.none_due hmin j hj e)
    | some m => exact le_trans (hbetter m hmin) (hsc.min_le m hmin j hj e hdue)

end

end

/-- The stripe that `lmv_dirent_next` takes an entry from: its entry comes first of all that
is due, and either all stripes have been looked at or the entry is at the hash of the context. -/
structure Chosen (dir : ℕ → DirStripe) (count c t m : ℕ) (stripes : ℕ → StripeDirent) : Prop where
  lt : m < count
  ne_nil : (stripes m).sdEnt ≠ []
  le : ∀ j < count, ∀ e, Due dir j t e → entHash (stripes m) ≤ e.ldeHash
  /-- and nothing was skipped, unless it need not be looked at -/
  settled : (∀ j < count, (stripes j).Settled) ∨ entHash (stripes m) = c

section
variable {count fuel : ℕ} (hct : c ≤ t) (htc : t ≤ c + 1) (ht : t ≤ mdsDirEndOff)
  (hfuel : mdsDirEndOff + 1 < fuel)
include hct htc ht hfuel

/-- **The scan over the stripes** finds the stripe whose entry comes first. -/
theorem lmvDirentScan_spec :
    ∀ n k min stripes, k + n = count → (∀ j < count, StripeOk dir j c t (stripes j)) →
      StripesScanned dir t k min stripes →
      ∃ min' stripes', lmvDirentScan dir c fuel n k min stripes = some (min', stripes') ∧
        (∀ j < count, StripeOk dir j c t (stripes' j)) ∧
        (min' = none → ∀ j < count, ∀ e, ¬ Due dir j t e) ∧
        ∀ m ∈ min', Chosen dir count c t m stripes' := by
  intro n
  induction n with
  | zero =>
    intro k min stripes hk hok hsc
    obtain rfl : k = count := by omega
    refine ⟨min, stripes, rfl, hok, hsc.none_due, fun m hm => ?_⟩
    obtain ⟨hlt, hne⟩ := hsc.min_lt m hm
    exact ⟨hlt, hne, hsc.min_le m hm, Or.inl hsc.settled⟩
  | succ n ih =>
    intro k min stripes hk hok hsc
    have hkc : k < count := by omega
    rw [lmvDirentScan]
    by_cases heof : (stripes k).sdEof = true
    · -- a stripe at its end is passed over
      rw [if_pos heof]
      have hnone := (hok k hkc).none_due_of_eof heof
      exact ih (k + 1) min stripes (by omega) hok
        (hsc.keep (fun _ _ => rfl) (Or.inr heof) fun e hdue => absurd hdue (hnone e))
    · rw [if_neg heof]
      obtain ⟨stripe, hload, hok', hset⟩ :=
        loaded_spec hct htc ht (hok k hkc) (by simpa using heof) hfuel
      rw [hload, Option.bind_some]
      have hsame : update stripes k stripe k = stripe := update_self k stripe stripes
      have heq : ∀ j < k, update stripes k stripe j = stripes j := fun j hj =>
        update_of_ne hj.ne stripe stripes
      have hoks : ∀ j < count, StripeOk dir j c t (update stripes k stripe j) := by
        intro j hj
        by_cases hjk : j = k
        · subst hjk
          rw [hsame]
          exact hok'
        · rw [update_of_ne hjk]
          exact hok j hj
      generalize update stripes k stripe = stripes' at *
      cases hent : stripe.sdEnt with
      | nil =>
        -- loading found the end of the stripe
        have hend : stripe.sdEof = true := by
          rcases hset with hne | hend
          · exact absurd hent hne
          · exact hend
        have hnone := hok'.none_due_of_eof hend
        dsimp only
        rw [if_pos hend]
        refine ih (k + 1) min stripes' (by omega) hoks (hsc.keep heq ?_ fun e hdue => ?_)
        · rw [hsame]
          exact Or.inr hend
        · exact absurd hdue (hnone e)
      | cons x rest =>
        have hne : stripe.sdEnt ≠ [] := by simp [hent]
        obtain ⟨y, rest', page, hstripe, -, hdue, -, hfirst⟩ := hok'.head_due hne
        obtain ⟨rfl, rfl⟩ : x = y ∧ rest = rest' := by
          rw [hstripe] at hent
          simpa [eq_comm] using hent
        have hhash : entHash (stripes' k) = x.ent.ldeHash := by
          rw [hsame, entHash, hent]
          rfl
        have hne' : (stripes' k).sdEnt ≠ [] := by
          rw [hsame]
          exact hne
        dsimp only
        by_cases hbetter : ∀ m ∈ min, entHash (stripes' m) > x.ent.ldeHash
        · rw [if_pos hbetter]
          by_cases hhere : x.ent.ldeHash = c
          · -- nothing that is due comes before the hash of the context
            rw [if_pos hhere]
            refine ⟨some k, stripes', rfl, hoks, fun h => (by cases h), fun m hm => ?_⟩
            cases hm
            refine ⟨hkc, hne', fun j _ e he => ?_, Or.inr (hhash.trans hhere)⟩
            rw [hhash, hhere]
            exact hct.trans he.le_hash
          · rw [if_neg hhere]
            refine ih (k + 1) (some k) stripes' (by omega) hoks
              (hsc.take heq hne' (fun e he => ?_) fun m hm => ?_)
            · rw [hhash]
              exact hfirst e he
            · rw [hhash, ← heq m (hsc.min_lt m hm).1]
              exact (hbetter m hm).le
        · rw [if_neg hbetter]
          obtain ⟨m, hm, hle⟩ : ∃ m ∈ min, entHash (stripes' m) ≤ x.ent.ldeHash := by
            by_contra hno
            exact hbetter fun m hm => Nat.lt_of_not_le fun hle => hno ⟨m, hm, hle⟩
          refine ih (k + 1) min stripes' (by omega) hoks (hsc.keep heq (Or.inl hne') fun e he => ?_)
          rw [heq m (hsc.min_lt m hm).1] at hle
          exact ⟨m, hm, hle.trans (hfirst e he)⟩

omit hct htc ht hfuel in
/-- Taking the current entry of a stripe leaves what is due behind it. -/
theorem CursorOk.pop {page : LuDirpage} {rest : List LuDirent}
    (hcur : CursorOk dir i t page (x :: rest)) (hct : c ≤ t) (hdue : Due dir i t x.ent)
    (hlt : x.ent.ldeHash < page.ldpHashEnd) :
    CursorOk dir i (x.ent.ldeHash + 1) page (stripeDirentGet c i rest) := by
  have hle := hdue.le_hash
  obtain ⟨hafter, hsorted⟩ := pairwise_cons.mp hcur.sorted
  constructor
  case isPage => exact hcur.isPage
  case le_end => exact hlt
  case end_le => exact hcur.end_le
  case due_iff =>
    intro e
    constructor
    · rintro ⟨y, hy, rfl, hlisted⟩
      have hmem := mem_of_mem_stripeDirentGet hy
      obtain ⟨hd, hend⟩ :=
        (hcur.due_iff y.ent).mp ⟨y, mem_cons_of_mem x hmem, rfl, hlisted⟩
      exact ⟨⟨hd.mem, hlisted, hafter y hmem hdue.listed.1 hlisted.1⟩, hend⟩
    · rintro ⟨hd, hend⟩
      have hgt := hd.le_hash
      obtain ⟨y, hy, rfl, hlisted⟩ :=
        (hcur.due_iff e).mpr ⟨hd.mono (Nat.le_succ_of_le hle), hend⟩
      rcases mem_cons.mp hy with rfl | hy
      · omega
      · refine ⟨y, mem_dropWhile_of_false hy ?_, rfl, hlisted⟩
        exact skipped_eq_false.mpr ⟨hlisted, by omega⟩
  case sorted => exact hsorted.sublist (dropWhile_sublist _)
  case head => exact fun y hy => (head_stripeDirentGet _ y hy).1
  case fits =>
    exact fun y hy => hcur.fits y (mem_cons_of_mem x (mem_of_mem_stripeDirentGet hy))

omit hct htc ht hfuel in
/-- A stripe from which nothing is taken still has due what it had: its entries come after
the entry `x` that was taken elsewhere. -/
theorem StripeOk.raise {x : DirEntry} (hok : StripeOk dir i c t stripe)
    (htx : t ≤ x.ldeHash) (hfirst : ∀ e, Due dir i t e → x.ldeHash ≤ e.ldeHash)
    (hne : ∀ e, Due dir i 0 e → e.ldeHash ≠ x.ldeHash) (hset : stripe.Settled ∨ x.ldeHash = c) :
    StripeOk dir i x.ldeHash (x.ldeHash + 1) stripe := by
  have hafter : ∀ e, Due dir i t e → x.ldeHash + 1 ≤ e.ldeHash := by
    intro e he
    have h1 := hfirst e he
    have h2 := hne e (he.mono (Nat.zero_le t))
    omega
  cases hok with
  | eof none_due => exact .eof fun e he => none_due e (he.mono (Nat.le_succ_of_le htx))
  | fresh due =>
    refine .fresh fun e he => ?_
    have h1 := he.le_hash
    have h2 := hne e (he.mono (Nat.zero_le _))
    omega
  | @loaded page l cursor taken =>
    refine .loaded { cursor with le_end := ?_, due_iff := fun e => ?_ } fun _ => Nat.lt_succ_self _
    · -- a stripe read to the end of its page has been left behind by the hash of the context
      have hl : l ≠ [] := by
        rcases hset with (hl | h) | heq
        · exact hl
        · cases h
        · intro hl
          have := taken hl
          omega
      obtain ⟨y, rest, rfl⟩ := exists_cons_of_ne_nil hl
      obtain ⟨hdue, hlt⟩ :=
        (cursor.due_iff y.ent).mp ⟨y, mem_cons_self, rfl, cursor.head y rfl⟩
      have hy := hafter y.ent hdue
      omega
    · rw [cursor.due_iff]
      refine and_congr_left fun _ => ⟨fun he => ⟨he.mem, he.listed, hafter e he⟩, fun he => ?_⟩
      exact he.mono (Nat.le_succ_of_le htx)

/-- **`lmv_dirent_next`** takes the entry that comes first of all that is due; afterwards the
entries behind it are due. Without one, nothing is due. -/
theorem lmvDirentNext_spec (stripes : ℕ → StripeDirent)
    (hdistinct : ∀ j < count, ∀ k < count, ∀ e e', Due dir j 0 e → Due dir k 0 e' →
      e.ldeHash = e'.ldeHash → j = k) (hok : ∀ j < count, StripeOk dir j c t (stripes j)) :
    ∃ r stripes', lmvDirentNext dir count c fuel stripes = some (r, stripes') ∧
      (r = none → ∀ j < count, ∀ e, ¬ Due dir j t e) ∧ ∀ x ∈ r, (∃ m < count, Due dir m t x.ent) ∧
        (∀ j < count, ∀ e, Due dir j t e → x.ent.ldeHash ≤ e.ldeHash) ∧
        entSize x ≤ luPageSize - sizeofDirpage ∧
        ∀ j < count, StripeOk dir j x.ent.ldeHash (x.ent.ldeHash + 1) (stripes' j) := by
  have hstart : StripesScanned dir t 0 none stripes := ⟨nofun, fun _ => nofun, nofun, nofun⟩
  obtain ⟨min, stripes', hscan, hok', hnone, hmin⟩ :=
    lmvDirentScan_spec hct htc ht hfuel count 0 none stripes (zero_add count) hok hstart
  rw [lmvDirentNext, hscan, Option.bind_some]
  cases min with
  | none => exact ⟨none, stripes', rfl, fun _ => hnone rfl, fun x hx => by cases hx⟩
  | some m =>
    have hch := hmin m rfl
    obtain ⟨x, rest, page, hstripe, hcur, hdue, hlt, -⟩ := (hok' m hch.lt).head_due hch.ne_nil
    have hhash : entHash (stripes' m) = x.ent.ldeHash := by
      rw [entHash, hstripe]
      rfl
    have hfirst : ∀ j < count, ∀ e, Due dir j t e → x.ent.ldeHash ≤ e.ldeHash := by
      intro j hj e he
      rw [← hhash]
      exact hch.le j hj e he
    have htx := hdue.le_hash
    refine ⟨some x, update stripes' m
      { stripes' m with sdEnt := stripeDirentGet c m rest }, ?_, fun h => (by cases h), ?_⟩
    · simp only [hstripe]
    · intro y hy
      cases hy
      refine ⟨⟨m, hch.lt, hdue⟩, hfirst, hcur.fits x mem_cons_self, fun j hj => ?_⟩
      by_cases hjm : j = m
      · subst hjm
        rw [update_self, hstripe]
        exact .loaded (hcur.pop hct hdue hlt) fun _ => Nat.lt_succ_self _
      · rw [update_of_ne hjm]
        refine (hok' j hj).raise htx (hfirst j hj) (fun e he heq => ?_) ?_
        · exact hjm (hdistinct j hj m hch.lt e x.ent he (hdue.mono (Nat.zero_le t)) heq)
        · rcases hch.settled with hset | hc
          · exact Or.inl (hset j hj)
          · exact Or.inr (hhash.symm.trans hc)

end

/-! ## Filling a page -/

/-- What a listing shows of an entry: its hash and its name. -/
def DirEntry.key (e : DirEntry) : ℕ × List UInt8 := (e.ldeHash, e.ldeName)

/-- The keys of the entries of a page. -/
def keys (ents : List LuDirent) : List (ℕ × List UInt8) := ents.map fun x => x.ent.key

@[simp] theorem keys_cons (x : LuDirent) (rest : List LuDirent) :
    keys (x :: rest) = x.ent.key :: keys rest := rfl

@[simp] theorem keys_append (l l' : List LuDirent) : keys (l ++ l') = keys l ++ keys l' :=
  map_append

@[simp] theorem keys_endEntries (l : List LuDirent) : keys (endEntries l) = keys l := by
  fun_induction endEntries l with
  | case1 | case2 x => rfl
  | case3 x rest hne ih => rw [keys_cons, keys_cons, ih]

/-- The keys list, in the order of the hashes and once each, what is due from `t` up to `h`. -/
structure Lists (dir : ℕ → DirStripe) (count t h : ℕ) (ks : List (ℕ × List UInt8)) : Prop where
  sorted : ks.Pairwise fun k k' => k.1 < k'.1
  mem_iff : ∀ k, k ∈ ks ↔ ∃ j < count, ∃ e, Due dir j t e ∧ e.ldeHash < h ∧ e.key = k

section
variable {count : ℕ}

theorem Lists.bounds {t h : ℕ} {ks : List (ℕ × List UInt8)} (hl : Lists dir count t h ks) :
    ∀ k ∈ ks, t ≤ k.1 ∧ k.1 < h := by
  intro k hk
  obtain ⟨j, -, e, hdue, hlt, rfl⟩ := (hl.mem_iff k).mp hk
  exact ⟨hdue.le_hash, hlt⟩

theorem Lists.nil {t h : ℕ} (hnone : ∀ j < count, ∀ e, Due dir j t e → h ≤ e.ldeHash) :
    Lists dir count t h [] := by
  refine ⟨List.Pairwise.nil, fun k => ⟨fun hk => (by cases hk), ?_⟩⟩
  rintro ⟨j, hj, e, hdue, hlt, -⟩
  have := hnone j hj e hdue
  omega

theorem Lists.append {t h h' : ℕ} {ks ks' : List (ℕ × List UInt8)} (hl : Lists dir count t h ks)
    (hl' : Lists dir count h h' ks') (hth : t ≤ h) (hhh : h ≤ h') :
    Lists dir count t h' (ks ++ ks') := by
  constructor
  · refine pairwise_append.mpr ⟨hl.sorted, hl'.sorted, fun k hk k' hk' => ?_⟩
    have h1 := (hl.bounds k hk).2
    have h2 := (hl'.bounds k' hk').1
    omega
  · intro k
    rw [mem_append, hl.mem_iff, hl'.mem_iff]
    constructor
    · rintro (⟨j, hj, e, hdue, hlt, rfl⟩ | ⟨j, hj, e, hdue, hlt, rfl⟩)
      · exact ⟨j, hj, e, hdue, by omega, rfl⟩
      · exact ⟨j, hj, e, hdue.mono hth, hlt, rfl⟩
    · rintro ⟨j, hj, e, hdue, hlt, rfl⟩
      by_cases hbefore : e.ldeHash < h
      · exact Or.inl ⟨j, hj, e, hdue, hbefore, rfl⟩
      · exact Or.inr ⟨j, hj, e, ⟨hdue.mem, hdue.listed, not_lt.mp hbefore⟩, hlt, rfl⟩

end

/-- The listed entries of different stripes have different hashes. -/
def DistinctHashes (dir : ℕ → DirStripe) (count : ℕ) : Prop :=
  ∀ j < count, ∀ k < count, ∀ e ∈ (dir j).entries, ∀ e' ∈ (dir k).entries,
    e.Listed j → e'.Listed k → e.ldeHash = e'.ldeHash → j = k

section
variable {count loadFuel : ℕ} (hdistinct : DistinctHashes dir count)
include hdistinct

/-- The entry that `lmv_dirent_next` takes is the only one up to its hash. -/
theorem Lists.single {x : DirEntry} {m : ℕ} (hm : m < count) (hdue : Due dir m t x)
    (hfirst : ∀ j < count, ∀ e, Due dir j t e → x.ldeHash ≤ e.ldeHash) :
    Lists dir count t (x.ldeHash + 1) [x.key] := by
  refine ⟨pairwise_singleton _ _, fun k => ?_⟩
  rw [mem_singleton]
  constructor
  · rintro rfl
    exact ⟨m, hm, x, hdue, Nat.lt_succ_self _, rfl⟩
  · rintro ⟨j, hj, e, he, hlt, rfl⟩
    have hge := hfirst j hj e he
    have heq : e.ldeHash = x.ldeHash := by omega
    obtain rfl := hdistinct j hj m hm e he.mem x hdue.mem he.listed hdue.listed heq
    have hsymm : Std.Symm fun e e' : DirEntry => e.ldeHash ≠ e'.ldeHash := ⟨fun _ _ h => h.symm⟩
    by_contra hne
    exact (dir j).distinct.forall he.mem hdue.mem (fun h => hne (h ▸ rfl)) heq

section

variable (hload : mdsDirEndOff + 1 < loadFuel)
include hload

/-- **The loop of `lmv_striped_read_page`** lists what is due up to the hash it ends with, and
in an empty page it gets past the threshold. -/
theorem fillPage_spec (fid1 fid3 : ℕ) :
    ∀ fuel c t left stripes, c ≤ t → t ≤ c + 1 → t ≤ mdsDirEndOff →
      (∀ j < count, StripeOk dir j c t (stripes j)) → mdsDirEndOff - t < fuel →
      ∃ out h, fillPage dir fid1 fid3 count loadFuel fuel c left stripes = some (out, h) ∧
        t ≤ h ∧ h ≤ mdsDirEndOff ∧ Lists dir count t h (keys out) ∧
        (luPageSize - sizeofDirpage ≤ left → t < h ∨ h = mdsDirEndOff) := by
  intro fuel
  induction fuel with
  | zero =>
    omega
  | succ fuel ih =>
    intro c t left stripes hct htc ht hok hfuel
    obtain ⟨r, stripes', hnext, hnone, hsome⟩ := lmvDirentNext_spec hct htc ht hload stripes
      (fun j hj k hk e e' he he' => hdistinct j hj k hk e he.mem e' he'.mem he.listed he'.listed) hok
    rw [fillPage, hnext, Option.bind_some]
    cases r with
    | none =>
      refine ⟨[], mdsDirEndOff, rfl, ht, le_rfl, ?_, fun _ => Or.inr rfl⟩
      exact Lists.nil fun j hj e hdue => absurd hdue (hnone rfl j hj e)
    | some x =>
      obtain ⟨⟨m, hm, hdue⟩, hfirst, hfits, hok'⟩ := hsome x rfl
      have htx := hdue.le_hash
      have hend := (dir m).hash_lt x.ent hdue.mem
      dsimp only
      by_cases hfull : entSize x > left
      · -- the page is full; the entry will be the first of the next page
        rw [if_pos hfull]
        refine ⟨[], x.ent.ldeHash, rfl, htx, hend.le, Lists.nil hfirst, fun hleft => ?_⟩
        omega
      · rw [if_neg hfull]
        obtain ⟨out, h, hrest, hle, hh, hlists, -⟩ := ih x.ent.ldeHash (x.ent.ldeHash + 1)
          (left - entSize x) stripes' (Nat.le_succ _) le_rfl hend hok' (by omega)
        rw [hrest]
        refine ⟨copyEntry fid1 fid3 x :: out, h, rfl, by omega, hh, ?_, fun _ => Or.inl (by omega)⟩
        exact (Lists.single hdistinct hm hdue hfirst).append hlists (by omega) hle

/-- **A page of a striped directory** lists what is due up to its end, and its end is past its
start unless it is the end of the directory. -/
theorem lmvStripedReadPage_spec (fid1 fid3 : ℕ)
    {pageSize offset : ℕ} (hpage : luPageSize ≤ pageSize) (hoffset : offset ≤ mdsDirEndOff) :
    ∃ page, lmvStripedReadPage dir fid1 fid3 count pageSize loadFuel offset = some page ∧
      Lists dir count offset page.ldpHashEnd (keys page.ldpEntries) ∧
      page.ldpHashEnd ≤ mdsDirEndOff ∧
      (offset < page.ldpHashEnd ∨ page.ldpHashEnd = mdsDirEndOff) := by
  obtain ⟨out, h, hfill, hle, hh, hlists, hprog⟩ := fillPage_spec hdistinct hload fid1 fid3 loadFuel
    offset offset (pageSize - sizeofDirpage) (fun _ => stripeDirentInit) le_rfl (Nat.le_succ _)
    hoffset (fun j _ => .fresh fun e he => he.le_hash) (by omega)
  rw [lmvStripedReadPage, hfill]
  refine ⟨_, rfl, ?_, hh, hprog (by omega)⟩
  rw [keys_endEntries]
  exact hlists

theorem readDir_spec (fid1 fid3 : ℕ) {pageSize : ℕ} (hpage : luPageSize ≤ pageSize) :
    ∀ fuel offset, offset ≤ mdsDirEndOff → mdsDirEndOff - offset < fuel →
      ∃ out, readDir dir fid1 fid3 count pageSize loadFuel fuel offset = some out ∧
        Lists dir count offset mdsDirEndOff (keys out) := by
  intro fuel
  induction fuel with
  | zero =>
    omega
  | succ fuel ih =>
    intro offset hoffset hfuel
    obtain ⟨page, hread, hlists, hle, hprog⟩ :=
      lmvStripedReadPage_spec hdistinct hload fid1 fid3 hpage hoffset
    rw [readDir, hread, Option.bind_some]
    by_cases hend : page.ldpHashEnd = mdsDirEndOff
    · rw [if_pos hend]
      rw [hend] at hlists
      exact ⟨_, rfl, hlists⟩
    · rw [if_neg hend]
      obtain ⟨out, hrest, hlists'⟩ := ih page.ldpHashEnd hle (by omega)
      rw [hrest]
      refine ⟨page.ldpEntries ++ out, rfl, ?_⟩
      rw [keys_append]
      exact hlists.append hlists' (by omega) hle

end

end

/-- **Listing a striped directory.** Reading page after page from offset 0 on comes to an end,
no assertion fails on the way, and the pages together hold every entry of every stripe, except
`.` and `..` of the stripes other than the first, exactly once and in the order of the hashes. -/
theorem readDir_lists (dir : ℕ → DirStripe) (count pageSize fid1 fid3 loadFuel fuel : ℕ)
    (hdistinct : DistinctHashes dir count) (hpage : luPageSize ≤ pageSize)
    (hload : mdsDirEndOff + 1 < loadFuel) (hfuel : mdsDirEndOff < fuel) :
    ∃ out, readDir dir fid1 fid3 count pageSize loadFuel fuel 0 = some out ∧
      (keys out).Pairwise (fun k k' => k.1 < k'.1) ∧
      ∀ k, k ∈ keys out ↔ ∃ j < count, ∃ e ∈ (dir j).entries, e.Listed j ∧ e.key = k := by
  obtain ⟨out, hread, hlists⟩ := readDir_spec hdistinct hload fid1 fid3 hpage fuel 0
    (Nat.zero_le _) (by omega)
  refine ⟨out, hread, hlists.sorted, fun k => ?_⟩
  rw [hlists.mem_iff]
  constructor
  · rintro ⟨j, hj, e, hdue, -, rfl⟩
    exact ⟨j, hj, e, hdue.mem, hdue.listed, rfl⟩
  · rintro ⟨j, hj, e, he, hlisted, rfl⟩
    exact ⟨j, hj, e, ⟨he, hlisted, Nat.zero_le _⟩, (dir j).hash_lt e he, rfl⟩

/-- A page with the first of the entries that are left. -/
def firstPage (h : ℕ) : List DirEntry → LuDirpage
  | [] => ⟨h, mdsDirEndOff, false, []⟩
  | e :: rest => ⟨h, (rest.head?.map DirEntry.ldeHash).getD mdsDirEndOff, false, [⟨e, 0⟩]⟩

/-- A stripe whose server sends a page for every entry. -/
def onePerPage (entries : List DirEntry)
    (hsorted : entries.Pairwise fun e e' => e.ldeHash < e'.ldeHash)
    (hlt : ∀ e ∈ entries, e.ldeHash < mdsDirEndOff)
    (hsize : ∀ e ∈ entries, entSize ⟨e, 0⟩ ≤ luPageSize - sizeofDirpage) : DirStripe where
  entries := entries
  mdReadPage h := firstPage h (entries.filter fun e => h ≤ e.ldeHash)
  distinct := hsorted.imp Nat.ne_of_lt
  hash_lt := hlt
  page := by
    intro h _
    have hmem : ∀ e, e ∈ entries.filter (fun e => h ≤ e.ldeHash) ↔ e ∈ entries ∧ h ≤ e.ldeHash := by
      simp
    have hleft := hsorted.filter fun e => h ≤ e.ldeHash
    revert hmem hleft
    generalize entries.filter (fun e => h ≤ e.ldeHash) = left
    intro hmem hleft
    cases left with
    | nil =>
      have hnone : ∀ e ∈ entries, ¬ h ≤ e.ldeHash := fun e he hle =>
        not_mem_nil ((hmem e).mpr ⟨he, hle⟩)
      exact ⟨nofun, .nil, fun e he hle => absurd hle (hnone e he), nofun,
        fun e he hle => absurd hle (hnone e he), fun _ => rfl, le_rfl, nofun⟩
    | cons e rest =>
      obtain ⟨he, hle⟩ := (hmem e).mp mem_cons_self
      obtain ⟨hhead, htail⟩ := pairwise_cons.mp hleft
      -- the page ends at the next entry
      have hend : (∀ x ∈ rest, (firstPage h (e :: rest)).ldpHashEnd ≤ x.ldeHash) ∧
          e.ldeHash < (firstPage h (e :: rest)).ldpHashEnd ∧
          (firstPage h (e :: rest)).ldpHashEnd ≤ mdsDirEndOff := by
        cases rest with
        | nil => exact ⟨nofun, hlt e he, le_rfl⟩
        | cons r rest =>
          have hr := ((hmem r).mp (mem_cons_of_mem _ mem_cons_self)).1
          refine ⟨forall_mem_cons.mpr ⟨le_rfl, fun x hx => ?_⟩, hhead r mem_cons_self, (hlt r hr).le⟩
          exact ((pairwise_cons.mp htail).1 x hx).le
      refine ⟨forall_mem_singleton.mpr fun _ => he, pairwise_singleton _ _, fun x hx hlex hlast => ?_,
        forall_mem_singleton.mpr fun _ => hend.2.1, fun _ _ _ => ⟨e, he, hle, hend.2.1⟩,
        fun hall => absurd hle (not_le.mpr (hall e he)), hend.2.2,
        forall_mem_singleton.mpr (hsize e he)⟩
      rcases mem_cons.mp ((hmem x).mpr ⟨hx, hlex⟩) with rfl | hx
      · exact ⟨_, mem_singleton_self _, rfl⟩
      · exact absurd hlast (not_lt.mpr (hend.1 x hx))
  next := by
    intro h h' _ x hx _
    have hle : ∀ e ∈ entries.filter (fun e => h' ≤ e.ldeHash), h' ≤ e.ldeHash := by simp
    revert hle hx
    generalize entries.filter (fun e => h' ≤ e.ldeHash) = left
    intro hx hle
    cases left with
    | nil => cases hx
    | cons e rest =>
      rw [mem_singleton.mp hx]
      exact hle e mem_cons_self

/-- Two stripes, one with `b` and `c` (hashes 7 and 9) on two pages and one with `a` (hash 3): all
three are listed. -/
theorem readDir_lists_three : ∃ dir : ℕ → DirStripe, ∃ out,
    readDir dir 0 0 2 luPageSize (2 ^ 64) (2 ^ 64) 0 = some out ∧
      (3, [0x61]) ∈ keys out ∧ (7, [0x62]) ∈ keys out ∧ (9, [0x63]) ∈ keys out := by
  let dir : ℕ → DirStripe := fun i =>
    if i = 0 then onePerPage [⟨1, 7, [0x62], 0⟩, ⟨3, 9, [0x63], 0⟩] (by decide) (by decide) (by decide)
    else onePerPage [⟨2, 3, [0x61], 0⟩] (by decide) (by decide) (by decide)
  have hdistinct : DistinctHashes dir 2 := by
    have hstripe : ∀ n < 2, ∀ x ∈ (dir n).entries, x.ldeHash = 3 ↔ n = 1 := by decide
    intro j hj k hk e he e' he' _ _ heq
    have hj' := hstripe j hj e he
    rw [heq, hstripe k hk e' he'] at hj'
    omega
  obtain ⟨out, hread, -, hmem⟩ := readDir_lists dir 2 luPageSize 0 0 (2 ^ 64) (2 ^ 64) hdistinct
    le_rfl (by decide) (by decide)
  have hlisted : ∀ j < 2, ∀ e ∈ (dir j).entries, e.Listed j → e.key ∈ keys out :=
    fun j hj e he hl => (hmem _).mpr ⟨j, hj, e, he, hl, rfl⟩
  exact ⟨dir, out, hread, hlisted 1 (by decide) ⟨2, 3, [0x61], 0⟩ mem_cons_self (by decide),
    hlisted 0 (by decide) ⟨1, 7, [0x62], 0⟩ mem_cons_self (by decide),
    hlisted 0 (by decide) ⟨3, 9, [0x63], 0⟩ (mem_cons_of_mem _ mem_cons_self) (by decide)⟩

end Lustre
