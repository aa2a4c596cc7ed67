import Lustre.OscExtent
import Mathlib.Algebra.BigOperators.Group.List.Basic
import Mathlib.Data.List.TakeWhile

/-!
# The extent tree of an object

`osc_extent_find`, `osc_extent_expand` and `osc_extent_release` on the tree of one object. Between
them they keep `OscObject.Right`: the extents lie in order on different chunks, each well formed.
This file has the functions and the rules for changing an extent, removing it and merging it with a
neighbour. What an operation leaves alone is `OscObject.Frame`.
-/

namespace Lustre

open List

/-- The part of `struct osc_object` that holds the extents. -/
structure OscObject where
  ext : ℕ → OscExtent
  /-- `oo_root`, in order -/
  ooRoot : List ℕ
  /-- extents from here on are not yet allocated -/
  fresh : ℕ

variable (P : OscConf) (o : OscObject)

namespace OscObject

/-- Change an extent. -/
def set (e : ℕ) (x : OscExtent) : OscObject :=
  { o with ext := Function.update o.ext e x }

/-- `__osc_extent_remove` -/
def remove (e : ℕ) : OscObject :=
  { o.set e { o.ext e with oeState := .inv, oePages := [] } with ooRoot := o.ooRoot.erase e }

/-- The grant of all extents. -/
def dirty : ℕ := (o.ooRoot.map fun a => (o.ext a).oeGrants).sum

end OscObject

/-! ## The functions -/

def nextExtent (root : List ℕ) (e : ℕ) : Option ℕ := (root.dropWhile (· ≠ e)).tail.head?

def prevExtent (root : List ℕ) (e : ℕ) : Option ℕ := (root.takeWhile (· ≠ e)).getLast?

/-- `osc_extent_search`: the extent with the page, or the last one before it. -/
def oscExtentSearch (ext : ℕ → OscExtent) (index : ℕ) : List ℕ → Option ℕ
  | [] => none
  | a :: l =>
    if index < (ext a).oeStart then none
    else if (ext a).oeEnd < index then (oscExtentSearch ext index l).or (some a)
    else some a

/-- The extents that a walk with `next_extent` visits, from the one that was found, or the first. -/
def scanFrom (ext : ℕ → OscExtent) (index : ℕ) (root : List ℕ) : List ℕ :=
  match oscExtentSearch ext index root with
  | none => root
  | some e => root.dropWhile (· ≠ e)

/-- `osc_extent_insert`; an extent that overlaps another one is an assertion that fails. -/
def oscExtentInsert (ext : ℕ → OscExtent) (e : ℕ) : List ℕ → Option (List ℕ)
  | [] => some [e]
  | a :: l =>
    if (ext e).oeEnd < (ext a).oeStart then some (e :: a :: l)
    else if (ext a).oeEnd < (ext e).oeStart then (oscExtentInsert ext e l).map (a :: ·)
    else none

def oscExtentIsOverlapped (e : ℕ) (x : OscExtent) : Bool :=
  o.ooRoot.any fun a => a != e && decide (x.oeStart ≤ (o.ext a).oeEnd) &&
    decide ((o.ext a).oeStart ≤ x.oeEnd)

/-- `osc_extent_merge`: the object, and whether they were merged. -/
def oscExtentMerge (maxExtentPages : ℕ) (o : OscObject) (cur : ℕ) (victim : Option ℕ) :
    Option (OscObject × Bool) :=
  lassert ((o.ext cur).oeState = .cache) <|
    match victim with
    | none => some (o, false)
    | some v =>
      if CanMerge P maxExtentPages (o.ext cur) (o.ext v) then
        some ((o.remove v).set cur ((o.ext cur).absorb P (o.ext v)), true)
      else some (o, false)

/-- How the walk of `osc_extent_find` ends. -/
inductive FindResult where
  /-- at an extent with the page that is being written -/
  | conflict (e : ℕ)
  /-- at an extent with the page -/
  | hold (e : ℕ)
  /-- at an extent that can grow by the chunk before it -/
  | front (e : ℕ)
  /-- at an extent that can grow by the chunk after it -/
  | rear (e : ℕ)
  /-- without an extent -/
  | create
  deriving DecidableEq

/-- The walk of `osc_extent_find` over the extents. -/
def findLoop (P : OscConf) (ext : ℕ → OscExtent) (cur : OscExtent) (chunk maxExtentPages : ℕ) :
    List ℕ → Option FindResult
  | [] => some .create
  | e :: l =>
    if (ext e).hi P + 1 < chunk then some .create
    else if chunk + 1 < (ext e).lo P then findLoop P ext cur chunk maxExtentPages l
    else if (ext e).overlapped cur then
      lassert ((ext e).oeStart ≤ cur.oeStart ∧ cur.oeEnd ≤ (ext e).oeEnd) <|
        if (ext e).oeState.busy || (ext e).oeFsyncWait then some (.conflict e) else some (.hold e)
    else if (ext e).oeState ≠ .cache || (ext e).oeFsyncWait then
      findLoop P ext cur chunk maxExtentPages l
    else if (ext e).oeMaxEnd ≠ cur.oeMaxEnd then findLoop P ext cur chunk maxExtentPages l
    else if maxExtentPages < ((ext e).hi P - (ext e).lo P + 1 + 1) <<< P.ppcBits then
      findLoop P ext cur chunk maxExtentPages l
    else if chunk + 1 = (ext e).lo P then some (.front e)
    else if chunk = (ext e).hi P + 1 then some (.rear e)
    else findLoop P ext cur chunk maxExtentPages l

/-- The extent that was found, with one user more. -/
def holdFound (e grants : ℕ) : Option (OscObject × ℕ × Option ℕ) :=
  (oscExtentHold (o.ext e)).map fun x => (o.set e x, grants, some e)

/-- A new extent is put into the tree. -/
def createExtent (cur : OscExtent) (grants : ℕ) : Option (OscObject × ℕ × Option ℕ) :=
  lassert (oscExtentIsOverlapped o o.fresh cur = false) <| lassert (P.need ≤ grants) <|
    (oscExtentHold { cur with oeGrants := P.need, oeState := .cache }).bind fun x =>
      (oscExtentInsert (Function.update o.ext o.fresh x) o.fresh o.ooRoot).map fun root =>
        ({ ext := Function.update o.ext o.fresh x, ooRoot := root, fresh := o.fresh + 1 },
          grants - P.need, some o.fresh)

/-- What `osc_extent_find` does at the end of its walk. -/
def findFinish (cur : OscExtent) (maxExtentPages grants : ℕ) :
    FindResult → Option (OscObject × ℕ × Option ℕ)
  | .conflict _ => some (o, grants, none)
  | .hold e => holdFound o e grants
  | .front e =>
    lassert ((o.ext e).oeStart = P.chunkMask (o.ext e).oeStart) <| lassert (P.chunksize ≤ grants) <|
      holdFound (o.set e { o.ext e with
          oeStart := cur.oeStart, oeGrants := (o.ext e).oeGrants + P.chunksize })
        e (grants - P.chunksize)
  | .rear e =>
    lassert (P.chunksize ≤ grants) <|
      (oscExtentMerge P maxExtentPages (o.set e { o.ext e with
          oeEnd := cur.oeEnd, oeGrants := (o.ext e).oeGrants + P.chunksize })
        e (nextExtent o.ooRoot e)).bind fun r =>
        holdFound r.1 e (grants - P.chunksize + if r.2 then P.clGrantExtentTax else 0)
  | .create => createExtent P o cur grants

/-- What `osc_extent_find` is called with: a page under the lock. It returns early when
`cl_max_pages_per_rpc` is not a number of whole chunks. -/
structure FindArgs (index maxPages : ℕ) : Prop where
  /-- an RPC has pages -/
  pos : 0 < maxPages
  /-- and whole chunks -/
  mul : maxPages % P.ppc = 0
  /-- not too many -/
  brw : maxPages ≤ P.maxBrwPages
  /-- the lock covers the page -/
  start : P.cldStart ≤ index
  /-- the lock covers the page -/
  stop : index ≤ P.cldEnd

instance {P : OscConf} {index maxPages : ℕ} : Decidable (FindArgs P index maxPages) :=
  decidable_of_iff (0 < maxPages ∧ maxPages % P.ppc = 0 ∧ maxPages ≤ P.maxBrwPages ∧
      P.cldStart ≤ index ∧ index ≤ P.cldEnd)
    ⟨fun h => ⟨h.1, h.2.1, h.2.2.1, h.2.2.2.1, h.2.2.2.2⟩,
      fun h => ⟨h.pos, h.mul, h.brw, h.start, h.stop⟩⟩

/-- `osc_extent_find`, once: the object, the grant that is left to the caller, and the extent; none
when the caller has to wait for one that is being written. -/
def oscExtentFind (index maxPages maxExtentPages grants : ℕ) : Option (OscObject × ℕ × Option ℕ) :=
  let cur := oscExtentInit P index maxPages
  lassert (P.need ≤ grants) <| lassert (cur.oeMaxEnd - cur.oeStart < maxPages) <|
    (findLoop P o.ext cur (P.chunkOf index) maxExtentPages (scanFrom o.ext cur.oeStart o.ooRoot)).bind
      (findFinish P o cur maxExtentPages grants)

/-- `osc_extent_expand`: the object, the grant that is left, and whether the page is covered. -/
def oscExtentExpand (e index maxExtentPages grants : ℕ) : Option (OscObject × ℕ × Bool) :=
  let x := o.ext e
  let chunk := P.chunkOf index
  let endIndex := min x.oeMaxEnd ((chunk + 1) <<< P.ppcBits - 1)
  lassert (index ≤ x.oeMaxEnd ∧ x.oeStart ≤ index) <|
    if x.hi P + 1 < chunk then some (o, grants, false)
    else if chunk ≤ x.hi P then some (o, grants, true)
    else if maxExtentPages < endIndex - x.oeStart + 1 then some (o, grants, false)
    else if ∃ n ∈ nextExtent o.ooRoot e, (o.ext n).oeStart ≤ endIndex then some (o, grants, false)
    else
      lassert (P.chunksize ≤ grants) <|
      lassert (oscExtentIsOverlapped o e { x with oeEnd := endIndex } = false) <|
        some (o.set e { x with oeEnd := endIndex, oeGrants := x.oeGrants + P.chunksize },
          grants - P.chunksize, true)

/-- The last user has left, and the extent is cached: it is merged with its neighbours. The result
is the object and the grant that is saved. -/
def mergeNeighbours (maxExtentPages : ℕ) (o : OscObject) (e : ℕ) : Option (OscObject × ℕ) :=
  (oscExtentMerge P maxExtentPages o e (prevExtent o.ooRoot e)).bind fun r1 =>
    (oscExtentMerge P maxExtentPages r1.1 e (nextExtent r1.1.ooRoot e)).map fun r2 =>
      (r2.1, (if r1.2 then P.clGrantExtentTax else 0) + if r2.2 then P.clGrantExtentTax else 0)

def oscExtentRelease (maxExtentPages : ℕ) (o : OscObject) (e : ℕ) : Option (OscObject × ℕ) :=
  let x := o.ext e
  lassert (0 < x.oeUsers) <| lassert (0 < x.oeGrants) <|
    if x.oeUsers - 1 ≠ 0 then some (o.set e { x with oeUsers := x.oeUsers - 1 }, 0)
    else
      lassert (x.oeState = .active) <|
        if x.oeTruncPending then
          some (o.set e { x with oeUsers := 0, oeState := .trunc, oeTruncPending := false }, 0)
        else mergeNeighbours P maxExtentPages (o.set e { x with oeUsers := 0, oeState := .cache }) e

/-! ## The tree is right -/

open OscExtent (lo hi oeGrants)

namespace OscObject

variable {P : OscConf} {o o' o1 : OscObject} {e a b v : ℕ} {x : OscExtent} {pre post : List ℕ}

@[simp] theorem ext_set_self : (o.set e x).ext e = x := Function.update_self ..

theorem ext_set_of_ne (h : a ≠ e) : (o.set e x).ext a = o.ext a := Function.update_of_ne h ..

@[simp] theorem ooRoot_set : (o.set e x).ooRoot = o.ooRoot := rfl

theorem ext_remove_of_ne (h : a ≠ v) : (o.remove v).ext a = o.ext a := Function.update_of_ne h ..

/-- The extents lie in order on different chunks. -/
structure Right (P : OscConf) (o : OscObject) : Prop where
  row : SpanRow (fun a => (o.ext a).lo P) (fun a => (o.ext a).hi P) o.ooRoot
  wf : ∀ a ∈ o.ooRoot, (o.ext a).Wf P
  fresh : ∀ a ∈ o.ooRoot, a < o.fresh

/-- What an operation on the extent `e` leaves alone. -/
structure Frame (o o' : OscObject) (e : ℕ) : Prop where
  /-- extents that are not just cached stay in the tree, in order -/
  keep : ∀ l : List ℕ, l.Sublist o.ooRoot → (∀ a ∈ l, a ≠ e → (o.ext a).oeState ≠ .cache) →
    l.Sublist o'.ooRoot
  /-- all but `e` were there before, and are the same -/
  same : ∀ a ∈ o'.ooRoot, a ≠ e → a ∈ o.ooRoot ∧ o'.ext a = o.ext a

theorem Frame.mem (h : Frame o o' e) (ha : a ∈ o.ooRoot)
    (hstate : a ≠ e → (o.ext a).oeState ≠ .cache) : a ∈ o'.ooRoot := by
  refine singleton_sublist.mp (h.keep [a] (singleton_sublist.mpr ha) ?_)
  intro b hb
  obtain rfl := mem_singleton.mp hb
  exact hstate

theorem Frame.trans (h1 : Frame o o1 e) (h2 : Frame o1 o' e) : Frame o o' e := by
  refine ⟨?_, ?_⟩
  · intro l hl hstate
    have hl1 := h1.keep l hl hstate
    refine h2.keep l hl1 fun a ha hne => ?_
    rw [(h1.same a (hl1.subset ha) hne).2]
    exact hstate a ha hne
  · intro a ha hne
    obtain ⟨ha1, heq1⟩ := h2.same a ha hne
    obtain ⟨ha0, heq0⟩ := h1.same a ha1 hne
    exact ⟨ha0, heq1.trans heq0⟩

theorem Frame.set : Frame o (o.set e x) e :=
  ⟨fun _ hl _ => hl, fun _ ha hne => ⟨ha, ext_set_of_ne hne⟩⟩

theorem Right.notMem (h : Right P o) : o.fresh ∉ o.ooRoot := fun hmem =>
  absurd (h.fresh _ hmem) (lt_irrefl _)

/-- An extent is changed, and what lies left and right of it still does. -/
theorem Right.set (h : Right P o) (he : e ∈ o.ooRoot) (hx : x.Wf P)
    (hside : ∀ a ∈ o.ooRoot, ((o.ext a).hi P < (o.ext e).lo P → (o.ext a).hi P < x.lo P) ∧
      ((o.ext e).hi P < (o.ext a).lo P → x.hi P < (o.ext a).lo P)) :
    Right P (o.set e x) ∧ (o.set e x).dirty + (o.ext e).oeGrants = o.dirty + x.oeGrants := by
  refine ⟨⟨h.row.change (e := e) ?_ (fun a _ hae => ?_) fun a ha => ?_, fun a ha => ?_, h.fresh⟩, ?_⟩
  · simpa using hx.lo_le_hi
  · simp [ext_set_of_ne hae]
  · simpa using hside a ha
  · by_cases hae : a = e
    · subst hae
      rw [ext_set_self]
      exact hx
    · rw [ext_set_of_ne hae]
      exact h.wf a ha
  · have hrest : ((o.ooRoot.erase e).map fun a => ((o.set e x).ext a).oeGrants).sum =
        ((o.ooRoot.erase e).map fun a => (o.ext a).oeGrants).sum := sum_congr_mem fun a ha =>
      congrArg oeGrants (ext_set_of_ne (h.row.nodup.mem_erase_iff.mp ha).1)
    simp only [dirty, ooRoot_set]
    rw [← sum_map_erase _ he, ← sum_map_erase (fun a => (o.ext a).oeGrants) he, hrest, ext_set_self]
    omega

/-- An extent keeps its chunks, or loses some at its end. -/
theorem Right.shrink (h : Right P o) (he : e ∈ o.ooRoot) (hx : x.Wf P)
    (hlo : x.lo P = (o.ext e).lo P) (hhi : x.hi P ≤ (o.ext e).hi P) :
    Right P (o.set e x) ∧ (o.set e x).dirty + (o.ext e).oeGrants = o.dirty + x.oeGrants :=
  h.set he hx fun _ _ => ⟨hlo.ge.trans_lt', hhi.trans_lt⟩

theorem Right.remove (h : Right P o) (hv : v ∈ o.ooRoot) :
    Right P (o.remove v) ∧ (o.remove v).dirty + (o.ext v).oeGrants = o.dirty := by
  have hnodup := h.row.nodup
  have hmem : ∀ a ∈ o.ooRoot.erase v, a ∈ o.ooRoot ∧ (o.remove v).ext a = o.ext a := by
    intro a ha
    obtain ⟨hne, hmem⟩ := (hnodup.mem_erase_iff).mp ha
    exact ⟨hmem, ext_remove_of_ne hne⟩
  refine ⟨⟨?_, ?_, ?_⟩, ?_⟩
  · exact (h.row.sublist (erase_sublist ..)).congr (fun a ha => congrArg (lo P) (hmem a ha).2)
      (fun a ha => congrArg (hi P) (hmem a ha).2)
  · intro a ha
    rw [(hmem a ha).2]
    exact h.wf a (hmem a ha).1
  · intro a ha
    exact h.fresh a (hmem a ha).1
  · have hsum := sum_map_erase (fun a => (o.ext a).oeGrants) hv
    have hsame : (o.remove v).dirty = ((o.ooRoot.erase v).map fun a => (o.ext a).oeGrants).sum :=
      sum_congr_mem fun a ha => congrArg oeGrants (hmem a ha).2
    rw [hsame, dirty, ← hsum, add_comm]

end OscObject

/-! ## Merging -/

section

open OscObject

variable {P : OscConf} {o : OscObject} {cur e maxExtentPages index grants : ℕ}

/-- What an operation that is for an extent leaves of it, and of the others. -/
structure ExtentKept (P : OscConf) (o o' : OscObject) (e : ℕ) : Prop where
  right : Right P o'
  frame : Frame o o' e
  mem : e ∈ o'.ooRoot
  state : (o'.ext e).oeState = (o.ext e).oeState
  users : (o'.ext e).oeUsers = (o.ext e).oeUsers
  pending : (o'.ext e).oeTruncPending = (o.ext e).oeTruncPending
  covers : (o'.ext e).oeStart ≤ (o.ext e).oeStart ∧ (o.ext e).oeEnd ≤ (o'.ext e).oeEnd

theorem ExtentKept.refl (h : Right P o) (he : e ∈ o.ooRoot) : ExtentKept P o o e :=
  ⟨h, ⟨fun _ hl _ => hl, fun _ ha _ => ⟨ha, rfl⟩⟩, he, rfl, rfl, rfl, le_rfl, le_rfl⟩

theorem ExtentKept.trans {o1 o2 : OscObject} (h1 : ExtentKept P o o1 e)
    (h2 : ExtentKept P o1 o2 e) : ExtentKept P o o2 e :=
  ⟨h2.right, h1.frame.trans h2.frame, h2.mem, h2.state.trans h1.state, h2.users.trans h1.users,
    h2.pending.trans h1.pending, h2.covers.1.trans h1.covers.1, h1.covers.2.trans h2.covers.2⟩

/-- A merge saves `saved`, a tax for each extent that is gone. -/
structure ExtentMerged (P : OscConf) (o o' : OscObject) (cur saved : ℕ) : Prop
    extends ExtentKept P o o' cur where
  dirty : o'.dirty + saved = o.dirty

theorem ExtentMerged.refl (h : Right P o) (hcur : cur ∈ o.ooRoot) : ExtentMerged P o o cur 0 :=
  ⟨.refl h hcur, rfl⟩

theorem ExtentMerged.trans {o1 o2 : OscObject} {n1 n2 : ℕ} (h1 : ExtentMerged P o o1 cur n1)
    (h2 : ExtentMerged P o1 o2 cur n2) : ExtentMerged P o o2 cur (n1 + n2) := by
  refine ⟨h1.toExtentKept.trans h2.toExtentKept, ?_⟩
  have hd1 := h1.dirty
  have hd2 := h2.dirty
  omega

theorem merged_absorb {v : ℕ} (h : Right P o) (hcur : cur ∈ o.ooRoot) (hv : v ∈ o.ooRoot)
    (hne : v ≠ cur) (hstate : (o.ext cur).oeState = .cache)
    (hcan : CanMerge P maxExtentPages (o.ext cur) (o.ext v)) :
    ExtentMerged P o ((o.remove v).set cur ((o.ext cur).absorb P (o.ext v))) cur P.clGrantExtentTax := by
  obtain ⟨hvs, -, hmax, hadj, -⟩ := hcan
  have hcurs : (o.ext cur).oeState ≠ .trunc := by simp [hstate]
  have hvs' : (o.ext v).oeState ≠ .trunc := by simp [hvs]
  obtain ⟨hwf, hgrants⟩ := (h.wf cur hcur).absorb (h.wf v hv) hcurs hvs' hmax hadj
  obtain ⟨hremoved, hdirty⟩ := h.remove hv
  have hext : (o.remove v).ext cur = o.ext cur := ext_remove_of_ne hne.symm
  have hmem : cur ∈ (o.remove v).ooRoot := (h.row.nodup.mem_erase_iff).mpr ⟨hne.symm, hcur⟩
  have hcurle := (h.wf cur hcur).lo_le_hi
  -- an extent left of `cur` is left of `v` too: there is no chunk between the two
  have hside : ∀ a ∈ (o.remove v).ooRoot, (((o.remove v).ext a).hi P < ((o.remove v).ext cur).lo P →
      ((o.remove v).ext a).hi P < ((o.ext cur).absorb P (o.ext v)).lo P) ∧
      (((o.remove v).ext cur).hi P < ((o.remove v).ext a).lo P →
        ((o.ext cur).absorb P (o.ext v)).hi P < ((o.remove v).ext a).lo P) := by
    intro a ha
    obtain ⟨hav, hao⟩ := (h.row.nodup.mem_erase_iff).mp ha
    have hale := (h.wf a hao).lo_le_hi
    have hapart : (o.ext a).hi P < (o.ext v).lo P ∨ (o.ext v).hi P < (o.ext a).lo P :=
      h.row.apart hao hv hav
    rw [hext, ext_remove_of_ne hav, OscExtent.lo_absorb, OscExtent.hi_absorb]
    simp only [lo, hi] at *
    omega
  obtain ⟨hset, hsetdirty⟩ := hremoved.set hmem hwf hside
  refine ⟨⟨hset, ⟨?_, ?_⟩, hmem, ?_, ?_, ?_, ?_, ?_⟩, ?_⟩
  · intro l hl hcache
    have hvl : v ∉ l := fun hmem => hcache v hmem hne hvs
    have herase := hl.erase v
    rwa [erase_of_not_mem hvl] at herase
  · intro a ha hac
    obtain ⟨hav, hao⟩ := (h.row.nodup.mem_erase_iff).mp ha
    exact ⟨hao, (ext_set_of_ne hac).trans (ext_remove_of_ne hav)⟩
  · rw [ext_set_self]
    rfl
  · rw [ext_set_self]
    rfl
  · rw [ext_set_self]
    rfl
  · rw [ext_set_self]
    exact min_le_left _ _
  · rw [ext_set_self]
    exact le_max_left _ _
  · rw [hext] at hsetdirty
    omega

/-- `osc_extent_merge` with another extent of the tree, or none. -/
theorem oscExtentMerge_spec (maxExtentPages : ℕ) {victim : Option ℕ} (h : Right P o)
    (hcur : cur ∈ o.ooRoot) (hstate : (o.ext cur).oeState = .cache)
    (hvictim : ∀ v ∈ victim, v ∈ o.ooRoot ∧ v ≠ cur) :
    ∃ r, oscExtentMerge P maxExtentPages o cur victim = some r ∧
      ExtentMerged P o r.1 cur (if r.2 then P.clGrantExtentTax else 0) := by
  cases victim with
  | none => exact ⟨(o, false), lassert_pos hstate, .refl h hcur⟩
  | some v =>
    simp only [oscExtentMerge]
    rw [lassert_pos hstate]
    obtain ⟨hv, hne⟩ := hvictim v rfl
    by_cases hcan : CanMerge P maxExtentPages (o.ext cur) (o.ext v)
    · refine ⟨_, if_pos hcan, ?_⟩
      exact merged_absorb h hcur hv hne hstate hcan
    · exact ⟨_, if_neg hcan, .refl h hcur⟩

/-! ## Neighbours -/

theorem dropWhile_split {pre post : List ℕ} (h : e ∉ pre) :
    (pre ++ e :: post).dropWhile (· ≠ e) = e :: post := by
  rw [dropWhile_append_of_pos]
  · simp
  · intro a ha
    have hne : a ≠ e := fun heq => h (heq ▸ ha)
    simpa using hne

/-- The next extent is another one of the tree. -/
theorem nextExtent_mem (h : Right P o) (he : e ∈ o.ooRoot) :
    ∀ v ∈ nextExtent o.ooRoot e, v ∈ o.ooRoot ∧ v ≠ e := by
  obtain ⟨pre, post, hroot⟩ := append_of_mem he
  have hrow := h.row
  rw [hroot] at hrow
  intro v hv
  rw [nextExtent, hroot, dropWhile_split hrow.notMem_left, tail_cons] at hv
  have hpost := mem_of_head? hv
  refine ⟨?_, ?_⟩
  · rw [hroot]
    exact mem_append_right _ (mem_cons_of_mem _ hpost)
  · rintro rfl
    exact hrow.notMem_right hpost

/-- The extent before is another one of the tree. -/
theorem prevExtent_mem : ∀ v ∈ prevExtent o.ooRoot e, v ∈ o.ooRoot ∧ v ≠ e := by
  intro v hv
  have hbefore := mem_of_getLast? hv
  refine ⟨(takeWhile_sublist _).subset hbefore, ?_⟩
  simpa using mem_takeWhile_imp hbefore

/-- After the last user has left: merging both ways. -/
theorem mergeNeighbours_spec (maxExtentPages : ℕ) (h : Right P o) (he : e ∈ o.ooRoot)
    (hstate : (o.ext e).oeState = .cache) :
    ∃ r, mergeNeighbours P maxExtentPages o e = some r ∧ ExtentMerged P o r.1 e r.2 := by
  obtain ⟨r1, heq1, hm1⟩ := oscExtentMerge_spec maxExtentPages h he hstate prevExtent_mem
  obtain ⟨r2, heq2, hm2⟩ := oscExtentMerge_spec maxExtentPages hm1.right hm1.mem
    (hm1.state.trans hstate) (nextExtent_mem hm1.right hm1.mem)
  refine ⟨(r2.1, _), ?_, hm1.trans hm2⟩
  rw [mergeNeighbours, heq1, Option.bind_some, heq2, Option.map_some]

end

end Lustre
