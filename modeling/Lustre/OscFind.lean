import Lustre.OscObject

/-!
# Finding, expanding and releasing an extent

`osc_extent_find` walks the extents from the one that a search finds. The walk ends at an extent
with the page, at one that can grow by the chunk of the page, or without one, and then no extent has
that chunk (`findLoop_free`): the three ways to go on keep the tree right. `osc_extent_expand` and
`osc_extent_release` follow.
-/

namespace Lustre

open FindResult (noConfusion)

open OscConf

variable {x : OscExtent} {maxPages : ℕ}

open OscExtentState (busy noConfusion)

open Function (update)

open List

section

open OscObject

variable {P : OscConf} {o : OscObject} {e maxExtentPages index grants : ℕ}

/-! ## Searching -/

/-- The extents lie in order on different pages. -/
theorem OscObject.Right.pages (h : Right P o) :
    o.ooRoot.Pairwise fun a b => (o.ext a).oeEnd < (o.ext b).oeStart :=
  List.Pairwise.imp_of_mem (fun ha hb hab => (h.wf _ ha).end_lt_start (h.wf _ hb) hab) h.row.order

/-- The search on a list of extents in order. -/
theorem oscExtentSearch_spec (index : ℕ) {ext : ℕ → OscExtent} (l : List ℕ)
    (horder : l.Pairwise fun a b => (ext a).oeEnd < (ext b).oeStart)
    (hle : ∀ a ∈ l, (ext a).oeStart ≤ (ext a).oeEnd) :
    (oscExtentSearch ext index l = none ∧ ∀ a ∈ l, index < (ext a).oeStart) ∨
      ∃ pre e post, l = pre ++ e :: post ∧ oscExtentSearch ext index l = some e ∧
        (ext e).oeStart ≤ index ∧ ∀ b ∈ post, index < (ext b).oeStart := by
  induction l with
  | nil => exact .inl ⟨rfl, forall_mem_nil _⟩
  | cons a l ih =>
    have hfirst := (pairwise_cons.mp horder).1
    have ha := hle a mem_cons_self
    rw [oscExtentSearch]
    by_cases hbefore : index < (ext a).oeStart
    · refine .inl ⟨if_pos hbefore, forall_mem_cons.mpr ⟨hbefore, fun b hb => ?_⟩⟩
      exact hbefore.trans_le (ha.trans (hfirst b hb).le)
    · rw [if_neg hbefore]
      by_cases hafter : (ext a).oeEnd < index
      · rw [if_pos hafter]
        rcases ih (List.Pairwise.of_cons horder) (forall_mem_cons.mp hle).2 with
          ⟨hnone, hall⟩ | ⟨pre, e, post, rfl, hsome, he, hpost⟩
        · refine .inr ⟨[], a, l, rfl, ?_, not_lt.mp hbefore, hall⟩
          rw [hnone]
          rfl
        · refine .inr ⟨a :: pre, e, post, rfl, ?_, he, hpost⟩
          rw [hsome]
          rfl
      · rw [if_neg hafter]
        exact .inr ⟨[], a, l, rfl, rfl, not_lt.mp hbefore,
          fun b hb => (not_lt.mp hafter).trans_lt (hfirst b hb)⟩

/-- A walk from the extent that a search finds: what is before ends before the page, and only the
first of the walk can begin before it. -/
theorem scanFrom_spec (index : ℕ) (h : Right P o) :
    ∃ pre l, o.ooRoot = pre ++ l ∧ scanFrom o.ext index o.ooRoot = l ∧
      (∀ a ∈ pre, (o.ext a).oeEnd < index) ∧ ∀ b ∈ l.tail, index < (o.ext b).oeStart := by
  rw [scanFrom]
  rcases oscExtentSearch_spec index o.ooRoot h.pages fun a ha => (h.wf a ha).start_le_end
    with ⟨hnone, hall⟩ | ⟨pre, e, post, hroot, hsome, he, hpost⟩
  · rw [hnone]
    exact ⟨[], o.ooRoot, rfl, rfl, forall_mem_nil _, fun b hb => hall b (mem_of_mem_tail hb)⟩
  · have hrow := h.row
    have hpages := h.pages
    rw [hroot] at hrow hpages
    rw [hsome]
    refine ⟨pre, e :: post, hroot, ?_, ?_, hpost⟩
    · show o.ooRoot.dropWhile (· ≠ e) = e :: post
      rw [hroot]
      exact dropWhile_split hrow.notMem_left
    · intro a ha
      exact ((pairwise_append.mp hpages).2.2 a ha e mem_cons_self).trans_le he

/-! ## The extent that a search starts with -/

section

variable {maxPages : ℕ} (hargs : FindArgs P index maxPages)

include hargs

omit hargs in
/-- The extent that covers the chunk of the page. -/
abbrev FindArgs.init (_ : FindArgs P index maxPages) : OscExtent := oscExtentInit P index maxPages

theorem FindArgs.start_eq : hargs.init.oeStart = P.chunkFirst (P.chunkOf index) := by
  simp only [oscExtentInit, chunkFirst, chunkMask_eq]

/-- The slot of an RPC is made of whole chunks. -/
theorem FindArgs.chunks :
    ∃ m, index - index % maxPages + maxPages = (m + 1) * P.ppc ∧ P.chunkOf index ≤ m ∧
      index - index % maxPages ≤ P.chunkOf index * P.ppc := by
  obtain ⟨c, hc⟩ := Nat.dvd_of_mod_eq_zero hargs.mul
  have hbase : index - index % maxPages = index / maxPages * c * P.ppc := by
    have hdiv := Nat.div_add_mod index maxPages
    have hcomm : maxPages * (index / maxPages) = index / maxPages * c * P.ppc := by
      rw [hc, mul_comm, mul_comm P.ppc c, mul_assoc]
    omega
  have hnext : index - index % maxPages + maxPages = (index / maxPages + 1) * c * P.ppc := by
    rw [hbase, add_mul, add_mul, one_mul]
    rw [hc, mul_comm P.ppc c]
  have hlt : index < (index / maxPages + 1) * c * P.ppc := by
    have := Nat.mod_lt index hargs.pos
    omega
  have hchunk : P.chunkOf index < (index / maxPages + 1) * c := by
    rw [chunkOf_eq]
    exact (Nat.div_lt_iff_lt_mul ppc_pos).mpr hlt
  refine ⟨(index / maxPages + 1) * c - 1, ?_, by omega, ?_⟩
  · rw [hnext, Nat.sub_add_cancel (by omega)]
  · rw [hbase]
    refine Nat.mul_le_mul_right _ ?_
    rw [chunkOf_eq]
    refine (Nat.le_div_iff_mul_le ppc_pos).mpr ?_
    omega

theorem FindArgs.slot : hargs.init.oeMaxEnd < P.chunkOf index * P.ppc + maxPages := by
  obtain ⟨m, -, -, hbase⟩ := hargs.chunks
  have hpos := hargs.pos
  have hle : hargs.init.oeMaxEnd ≤ index - index % maxPages + maxPages - 1 := min_le_left _ _
  omega

/-- Where it may grow to is the end of a chunk, or of the lock. -/
theorem FindArgs.max_eq : hargs.init.oeMaxEnd = P.chunkLast (P.chunkOf hargs.init.oeMaxEnd) ∧
      P.chunkOf index ≤ P.chunkOf hargs.init.oeMaxEnd := by
  obtain ⟨m, hslot, hm, -⟩ := hargs.chunks
  have hmax : hargs.init.oeMaxEnd = P.chunkLast m := by
    simp only [oscExtentInit, chunkLast]
    rw [hslot]
  have hindex : index ≤ P.chunkLast m := by
    have hi := chunkOf_eq_iff.mp (rfl : P.chunkOf index = P.chunkOf index)
    have hle' : (P.chunkOf index + 1) * P.ppc ≤ (m + 1) * P.ppc :=
      Nat.mul_le_mul_right _ (Nat.succ_le_succ hm)
    exact le_min (by omega) hargs.stop
  rw [hmax]
  refine ⟨?_, chunkOf_mono hindex⟩
  rcases le_total ((m + 1) * P.ppc - 1) P.cldEnd with hcld | hcld
  · have heq : P.chunkLast m = (m + 1) * P.ppc - 1 := min_eq_left hcld
    have hpos' : 0 < (m + 1) * P.ppc := Nat.mul_pos (Nat.succ_pos m) ppc_pos
    have hchunk : P.chunkOf (P.chunkLast m) = m := by
      rw [heq]
      refine chunkOf_eq_iff.mpr ⟨?_, by omega⟩
      have := ppc_pos (P := P)
      rw [add_mul, one_mul]
      omega
    rw [hchunk]
  · have heq : P.chunkLast m = P.cldEnd := min_eq_right hcld
    rw [heq]
    have hi := chunkOf_eq_iff.mp (rfl : P.chunkOf P.cldEnd = P.chunkOf P.cldEnd)
    exact (min_eq_right (by omega)).symm

theorem FindArgs.end_eq : hargs.init.oeEnd = P.chunkLast (P.chunkOf index) := by
  obtain ⟨m, hslot, hm, -⟩ := hargs.chunks
  have hnext : P.chunkMask (index + P.ppc) = (P.chunkOf index + 1) * P.ppc := by
    rw [chunkMask_eq, chunkOf_eq, chunkOf_eq,
      Nat.add_div_right _ ppc_pos]
  have hle : (P.chunkOf index + 1) * P.ppc ≤ (m + 1) * P.ppc :=
    Nat.mul_le_mul_right _ (Nat.succ_le_succ hm)
  simp only [oscExtentInit, chunkLast]
  rw [hnext, hslot, ← min_assoc, min_eq_left (Nat.sub_le_sub_right hle 1)]

theorem FindArgs.init_wf : hargs.init.lo P = P.chunkOf index ∧ hargs.init.hi P = P.chunkOf index ∧
      OscExtent.Wf P { hargs.init with
        oeGrants := P.need, oeState := .active, oeUsers := 1 } := by
  have hlo : hargs.init.lo P = P.chunkOf index := by
    rw [OscExtent.lo, hargs.start_eq, chunkOf_chunkFirst hargs.start]
  have hhi : hargs.init.hi P = P.chunkOf index := by
    rw [OscExtent.hi, hargs.end_eq, chunkOf_chunkLast hargs.stop]
  have hmax := hargs.max_eq
  refine ⟨hlo, hhi, ?_, ?_, hmax.1, ?_, ?_, ?_, List.forall_mem_nil _, List.forall_mem_nil _,
    OscExtentState.noConfusion, OscExtentState.noConfusion, .inl ?_⟩
  · show hargs.init.oeStart = _
    rw [hargs.start_eq]
    exact congrArg P.chunkFirst hlo.symm
  · show hargs.init.oeEnd = _
    rw [hargs.end_eq]
    exact congrArg P.chunkLast hhi.symm
  · show hargs.init.oeStart ≤ hargs.init.oeEnd
    rw [hargs.start_eq, hargs.end_eq]
    exact (chunkFirst_le hargs.start).trans (le_chunkLast hargs.stop)
  · exact hhi.le.trans hmax.2
  · show hargs.init.oeMaxEnd < hargs.init.lo P * P.ppc + P.maxBrwPages
    rw [hlo]
    exact hargs.slot.trans_le (Nat.add_le_add_left hargs.brw _)
  · show P.need = P.fullGrant (hargs.init.lo P) (hargs.init.hi P)
    rw [hlo, hhi, fullGrant, need, Nat.sub_self, Nat.zero_add, Nat.mul_one,
      add_comm]

theorem FindArgs.short : hargs.init.oeMaxEnd - hargs.init.oeStart < maxPages := by
  have hslot := hargs.slot
  have hpos := hargs.pos
  have hstart : P.chunkOf index * P.ppc ≤ hargs.init.oeStart := by
    rw [hargs.start_eq]
    exact le_max_left _ _
  omega

/-! ## Finding an extent -/

/-- An extent overlaps the chunk of a page when it covers the chunk. -/
theorem overlapped_init_iff (hx : x.Wf P) : x.overlapped hargs.init = true ↔
      x.lo P ≤ P.chunkOf index ∧ P.chunkOf index ≤ x.hi P := by
  obtain ⟨hlo, hhi, -⟩ := hargs.init_wf
  have hiff : x.overlapped hargs.init = true ↔ x.oeStart ≤ hargs.init.oeEnd ∧
        hargs.init.oeStart ≤ x.oeEnd := by
    simp [OscExtent.overlapped, and_comm]
  rw [hiff]
  constructor
  · rintro ⟨hstart, hend⟩
    refine ⟨?_, ?_⟩
    · exact (chunkOf_mono hstart).trans hhi.le
    · exact hlo.ge.trans (chunkOf_mono hend)
  · rintro ⟨hstart, hend⟩
    rw [hargs.start_eq, hargs.end_eq, hx.start_eq, hx.end_eq]
    have hin : P.chunkFirst (P.chunkOf index) ≤ P.chunkLast (P.chunkOf index) :=
      (chunkFirst_le hargs.start).trans (le_chunkLast hargs.stop)
    exact ⟨(chunkFirst_mono hstart).trans hin, hin.trans (chunkLast_mono hend)⟩

section

variable (hx : x.Wf P) (hlo : x.lo P ≤ P.chunkOf index) (hhi : P.chunkOf index ≤ x.hi P)
include hx hlo hhi

/-- An extent that covers the chunk of a page has all pages of it that the lock has. -/
theorem init_inside : x.oeStart ≤ hargs.init.oeStart ∧
      hargs.init.oeEnd ≤ x.oeEnd := by
  rw [hargs.start_eq, hargs.end_eq, hx.start_eq, hx.end_eq]
  exact ⟨chunkFirst_mono hlo, chunkLast_mono hhi⟩

theorem page_inside : x.oeStart ≤ index ∧ index ≤ x.oeEnd := by
  rw [hx.start_eq, hx.end_eq]
  exact ⟨(chunkFirst_mono hlo).trans (chunkFirst_le hargs.start),
    (le_chunkLast hargs.stop).trans (chunkLast_mono hhi)⟩

end

end

/-- No extent has the chunk. -/
def FreeChunk (P : OscConf) (o : OscObject) (chunk : ℕ) : Prop :=
  ∀ a ∈ o.ooRoot, (o.ext a).hi P < chunk ∨ chunk < (o.ext a).lo P

/-- An extent grows by a chunk that no other has, at its start or at its end. -/
theorem OscObject.Right.grow {chunk : ℕ} (h : Right P o) (he : e ∈ o.ooRoot) (hx : x.Wf P)
    (hfree : FreeChunk P o chunk)
    (hgrow : x.lo P = chunk ∧ chunk + 1 = (o.ext e).lo P ∧ x.hi P = (o.ext e).hi P ∨
      x.lo P = (o.ext e).lo P ∧ x.hi P = chunk ∧ chunk = (o.ext e).hi P + 1) :
    Right P (o.set e x) ∧ (o.set e x).dirty + (o.ext e).oeGrants = o.dirty + x.oeGrants := by
  refine h.set he hx fun a ha => ?_
  have hle := (h.wf a ha).lo_le_hi
  have := hfree a ha
  omega

/-- What the walk has made sure of. -/
def FindResult.Fits (P : OscConf) (o : OscObject) (cur : OscExtent) (chunk : ℕ) : FindResult → Prop
  | .conflict _ => True
  | .hold e => e ∈ o.ooRoot ∧ (o.ext e).lo P ≤ chunk ∧ chunk ≤ (o.ext e).hi P ∧
      (o.ext e).oeState.busy = false
  | .front e => e ∈ o.ooRoot ∧ (o.ext e).oeState = .cache ∧ (o.ext e).oeMaxEnd = cur.oeMaxEnd ∧
      chunk + 1 = (o.ext e).lo P
  | .rear e => e ∈ o.ooRoot ∧ (o.ext e).oeState = .cache ∧ (o.ext e).oeMaxEnd = cur.oeMaxEnd ∧
      chunk = (o.ext e).hi P + 1
  | .create => True

section

variable (h : Right P o) (hargs : FindArgs P index maxPages)
include h hargs

/-- The walk ends, and no assertion fails. -/
theorem findLoop_spec (maxExtentPages : ℕ) (l : List ℕ) (hl : ∀ a ∈ l, a ∈ o.ooRoot) :
    ∃ r, findLoop P o.ext hargs.init (P.chunkOf index) maxExtentPages l =
        some r ∧ r.Fits P o hargs.init (P.chunkOf index) := by
  induction l with
  | nil => exact ⟨.create, rfl, trivial⟩
  | cons e l ih =>
    have hnext := ih (forall_mem_cons.mp hl).2
    have he := hl e mem_cons_self
    have hwf := h.wf e he
    rw [findLoop]
    by_cases hfar : (o.ext e).hi P + 1 < P.chunkOf index
    · exact ⟨.create, if_pos hfar, trivial⟩
    rw [if_neg hfar]
    by_cases hbehind : P.chunkOf index + 1 < (o.ext e).lo P
    · rw [if_pos hbehind]
      exact hnext
    rw [if_neg hbehind]
    by_cases hover : (o.ext e).overlapped hargs.init = true
    · obtain ⟨hlo, hhi⟩ := (overlapped_init_iff hargs hwf).mp hover
      rw [if_pos hover, lassert_pos (init_inside hargs hwf hlo hhi)]
      by_cases hbusy : ((o.ext e).oeState.busy || (o.ext e).oeFsyncWait) = true
      · exact ⟨.conflict e, if_pos hbusy, trivial⟩
      · refine ⟨.hold e, if_neg hbusy, he, hlo, hhi, ?_⟩
        simp only [Bool.or_eq_true, not_or, Bool.not_eq_true] at hbusy
        exact hbusy.1
    rw [if_neg hover]
    by_cases hcache : ((o.ext e).oeState ≠ .cache || (o.ext e).oeFsyncWait) = true
    · rw [if_pos hcache]
      exact hnext
    rw [if_neg hcache]
    by_cases hmax : (o.ext e).oeMaxEnd ≠ hargs.init.oeMaxEnd
    · rw [if_pos hmax]
      exact hnext
    rw [if_neg hmax]
    by_cases hlong : maxExtentPages < ((o.ext e).hi P - (o.ext e).lo P + 1 + 1) <<< P.ppcBits
    · rw [if_pos hlong]
      exact hnext
    rw [if_neg hlong]
    have hstate : (o.ext e).oeState = .cache := by
      simp only [Bool.or_eq_true, decide_eq_true_eq, not_or, ne_eq, not_not] at hcache
      exact hcache.1
    by_cases hfront : P.chunkOf index + 1 = (o.ext e).lo P
    · exact ⟨.front e, if_pos hfront, he, hstate, not_not.mp hmax, hfront⟩
    rw [if_neg hfront]
    by_cases hrear : P.chunkOf index = (o.ext e).hi P + 1
    · exact ⟨.rear e, if_pos hrear, he, hstate, not_not.mp hmax, hrear⟩
    rw [if_neg hrear]
    exact hnext

/-- When the walk does not end at an extent with the chunk there is none. -/
theorem findLoop_free {r : FindResult}
    (heq : findLoop P o.ext hargs.init (P.chunkOf index) maxExtentPages
      (scanFrom o.ext hargs.init.oeStart o.ooRoot) = some r)
    (hconflict : ∀ e, r ≠ .conflict e) (hhold : ∀ e, r ≠ .hold e) :
    FreeChunk P o (P.chunkOf index) := by
  intro a ha
  by_contra hcover
  obtain ⟨hhi, hlo⟩ := not_or.mp hcover
  have hlo := not_lt.mp hlo
  have hhi := not_lt.mp hhi
  have hwf := h.wf a ha
  have hinside := init_inside hargs hwf hlo hhi
  have hshort : hargs.init.oeStart ≤ (o.ext a).oeEnd := by
    obtain ⟨-, -, hinit⟩ := hargs.init_wf
    exact hinit.start_le_end.trans hinside.2
  obtain ⟨pre, l, hroot, hscan, hpre, htail⟩ :=
    scanFrom_spec hargs.init.oeStart h
  rw [hscan] at heq
  rcases mem_append.mp (hroot ▸ ha) with hmem | hmem
  · exact absurd (hpre a hmem) (not_lt.mpr hshort)
  · cases l with
    | nil => exact absurd hmem not_mem_nil
    | cons b l =>
      rcases mem_cons.mp hmem with rfl | hmem
      · rw [findLoop, if_neg (by omega), if_neg (by omega),
          if_pos ((overlapped_init_iff hargs hwf).mpr ⟨hlo, hhi⟩), lassert_pos hinside] at heq
        split at heq
        · exact hconflict a (Option.some.inj heq.symm)
        · exact hhold a (Option.some.inj heq.symm)
      · exact absurd (htail a hmem) (not_lt.mpr hinside.1)

end

/-- An extent whose chunks no other has overlaps none. -/
theorem oscExtentIsOverlapped_eq_false {y : OscExtent} (h : Right P o) (hx : x.Wf P)
    (hstart : y.oeStart = x.oeStart) (hend : y.oeEnd = x.oeEnd)
    (hapart : ∀ a ∈ o.ooRoot, a ≠ e → (o.ext a).hi P < x.lo P ∨ x.hi P < (o.ext a).lo P) :
    oscExtentIsOverlapped o e y = false := by
  rw [oscExtentIsOverlapped, any_eq_false]
  intro a ha hover
  simp only [Bool.and_eq_true, bne_iff_ne, ne_eq, decide_eq_true_eq] at hover
  rcases hapart a ha hover.1.1 with hlt | hlt
  · have := (h.wf a ha).end_lt_start hx hlt
    omega
  · have := hx.end_lt_start (h.wf a ha) hlt
    omega

/-- An extent on chunks that no other has is put between those left and those right of it. -/
theorem oscExtentInsert_spec {ext : ℕ → OscExtent} (hx : (ext e).Wf P) (l : List ℕ)
    (hwf : ∀ a ∈ l, (ext a).Wf P) (hrow : SpanRow (fun a => (ext a).lo P) (fun a => (ext a).hi P) l)
    (hfree : ∀ a ∈ l, (ext a).hi P < (ext e).lo P ∨ (ext e).hi P < (ext a).lo P) :
    ∃ pre post, l = pre ++ post ∧ oscExtentInsert ext e l = some (pre ++ e :: post) ∧
      (∀ a ∈ pre, (ext a).hi P < (ext e).lo P) ∧ ∀ b ∈ post, (ext e).hi P < (ext b).lo P := by
  induction l with
  | nil => exact ⟨[], [], rfl, rfl, forall_mem_nil _, forall_mem_nil _⟩
  | cons a l ih =>
    have ha := hwf a mem_cons_self
    have hsub : l.Sublist (a :: l) := sublist_cons_self a l
    rw [oscExtentInsert]
    rcases hfree a mem_cons_self with hleft | hright
    · -- the new extent lies further right
      have hend := ha.end_lt_start hx hleft
      have hnot : ¬ (ext e).oeEnd < (ext a).oeStart := by
        have := ha.start_le_end
        have := hx.start_le_end
        omega
      obtain ⟨pre, post, rfl, heq, hpre, hpost⟩ := ih (fun b hb => hwf b (hsub.subset hb))
        (hrow.sublist hsub) fun b hb => hfree b (hsub.subset hb)
      refine ⟨a :: pre, post, rfl, ?_, forall_mem_cons.mpr ⟨hleft, hpre⟩, hpost⟩
      rw [if_neg hnot, if_pos hend, heq]
      rfl
    · refine ⟨[], a :: l, rfl, if_pos (hx.end_lt_start ha hright), forall_mem_nil _, ?_⟩
      refine forall_mem_cons.mpr ⟨hright, fun b hb => ?_⟩
      have horder : (ext a).hi P < (ext b).lo P := rel_of_pairwise_cons hrow.order hb
      exact (hright.trans_le ha.lo_le_hi).trans horder

/-- What `osc_extent_find` gives its caller: an active extent with one user more. -/
structure ExtentHeld (P : OscConf) (o o' : OscObject) (e : ℕ) : Prop where
  right : Right P o'
  frame : Frame o o' e
  mem : e ∈ o'.ooRoot
  state : (o'.ext e).oeState = .active
  users : (o'.ext e).oeUsers = (if e ∈ o.ooRoot then (o.ext e).oeUsers else 0) + 1
  /-- if it is not new it was active or cached, and has not shrunk -/
  old : e ∈ o.ooRoot → (o.ext e).oeState.busy = false ∧ (o.ext e).oeEnd ≤ (o'.ext e).oeEnd ∧
    (o'.ext e).oeTruncPending = (o.ext e).oeTruncPending

theorem oscExtentHold_eq (hx : x.Wf P) (h : x.oeState.busy = false) :
    oscExtentHold x = some { x with oeState := .active, oeUsers := x.oeUsers + 1 } := by
  rw [oscExtentHold, lassert_pos]
  have halive := hx.alive
  cases hstate : x.oeState with
  | inv => exact absurd hstate halive
  | active => exact .inl rfl
  | cache => exact .inr rfl
  | locking | lockDone | rpc | trunc => simp [hstate, busy] at h

/-- A state in which an extent carries its whole grant. -/
theorem OscExtent.Wf.restate (h : x.Wf P) (hx : x.oeState ≠ .trunc) {state : OscExtentState}
    {users : ℕ} {urgent fsyncWait truncPending : Bool} (halive : state ≠ .inv)
    (hsent : state = .rpc → x.oePages ≠ []) : Wf P { x with
      oeState := state, oeUsers := users, oeUrgent := urgent, oeFsyncWait := fsyncWait
      oeTruncPending := truncPending } :=
  { h with alive := halive, sent := hsent, grants := .inl (h.grants_eq hx) }

/-- The extent that the walk has found, perhaps changed since, is held. -/
theorem holdFound_spec (grants : ℕ) {o1 : OscObject} (h : Right P o1) (hframe : Frame o o1 e)
    (he : e ∈ o.ooRoot) (he1 : e ∈ o1.ooRoot) (hbusy : (o.ext e).oeState.busy = false)
    (hbusy1 : (o1.ext e).oeState.busy = false)
    (husers : (o1.ext e).oeUsers = (o.ext e).oeUsers) (hend : (o.ext e).oeEnd ≤ (o1.ext e).oeEnd)
    (hpending : (o1.ext e).oeTruncPending = (o.ext e).oeTruncPending) :
    ∃ o', holdFound o1 e grants = some (o', grants, some e) ∧ ExtentHeld P o o' e ∧
      o'.dirty = o1.dirty ∧ (o'.ext e).oeStart = (o1.ext e).oeStart ∧
      (o'.ext e).oeEnd = (o1.ext e).oeEnd := by
  have hwf := h.wf e he1
  have htrunc : (o1.ext e).oeState ≠ .trunc := by
    intro htr
    rw [htr] at hbusy1
    cases hbusy1
  have hx : OscExtent.Wf P { o1.ext e with
      oeState := .active, oeUsers := (o1.ext e).oeUsers + 1 } :=
    hwf.restate htrunc noConfusion noConfusion
  obtain ⟨hset, hdirty⟩ := h.shrink he1 hx rfl le_rfl
  refine ⟨_, ?_, ⟨hset, hframe.trans .set, he1, ?_, ?_, ?_⟩, ?_, ?_, ?_⟩
  · rw [holdFound, oscExtentHold_eq hwf hbusy1]
    rfl
  · rw [ext_set_self]
  · rw [ext_set_self, if_pos he, ← husers]
  · intro _
    rw [ext_set_self]
    exact ⟨hbusy, hend, hpending⟩
  · exact Nat.add_right_cancel hdirty
  · rw [ext_set_self]
  · rw [ext_set_self]

/-- The result of `osc_extent_find`: grant has moved between the caller and the extents, and the
caller has an extent with the page, unless it has to wait. -/
structure Found (P : OscConf) (o : OscObject) (index grants : ℕ) (r : OscObject × ℕ × Option ℕ) :
    Prop where
  dirty : r.1.dirty + r.2.1 = o.dirty + grants
  /-- nothing has changed, or an extent with the page is held -/
  extent : (r.2.2 = none ∧ r.1 = o ∧ r.2.1 = grants) ∨ ∃ e, r.2.2 = some e ∧ ExtentHeld P o r.1 e ∧
    (r.1.ext e).oeStart ≤ index ∧ index ≤ (r.1.ext e).oeEnd

section

variable (h : Right P o) (hargs : FindArgs P index maxPages)
include h hargs

section

variable (hgrants : P.need ≤ grants) (he : e ∈ o.ooRoot) (hstate : (o.ext e).oeState = .cache)
  (hmax : (o.ext e).oeMaxEnd = hargs.init.oeMaxEnd)
include hgrants he hstate hmax

/-- The extent grows by the chunk before it. -/
theorem findFinish_front (hchunk : P.chunkOf index + 1 = (o.ext e).lo P)
    (hfree : FreeChunk P o (P.chunkOf index)) :
    ∃ r, findFinish P o hargs.init maxExtentPages grants (.front e) = some r ∧
      Found P o index grants r := by
  have hwf := h.wf e he
  obtain ⟨hlo, hhi, hinit⟩ := hargs.init_wf
  have htrunc : (o.ext e).oeState ≠ .trunc := by simp [hstate]
  have hsize : P.chunksize ≤ grants := (Nat.le_add_right _ _).trans hgrants
  have haligned : (o.ext e).oeStart = P.chunkMask (o.ext e).oeStart := by
    have hin := chunkOf_eq_iff.mp (rfl : P.chunkOf index = P.chunkOf index)
    rw [hchunk] at hin
    rw [chunkMask_eq]
    exact hwf.start_eq.trans (max_eq_left (hargs.start.trans hin.2.le))
  have hslot : (o.ext e).oeMaxEnd < P.chunkOf index * P.ppc + P.maxBrwPages := by
    have hslot := hinit.slot
    rw [hmax, ← hlo]
    exact hslot
  have hx := hwf.growStart htrunc hchunk hargs.start_eq hlo hslot
  obtain ⟨hset, hdirty⟩ := h.grow he hx hfree (.inl ⟨hlo, hchunk, rfl⟩)
  obtain ⟨o', heq, hheld, hdirty', hstart, hend⟩ := holdFound_spec (grants - P.chunksize)
    (o := o) (e := e) hset .set he he (by simp [hstate, busy])
    (by rw [ext_set_self]; simp [hstate, busy]) (by rw [ext_set_self])
    (by rw [ext_set_self]) (by rw [ext_set_self])
  refine ⟨(o', grants - P.chunksize, some e), ?_, ?_, .inr ⟨e, rfl, hheld, ?_, ?_⟩⟩
  · rw [findFinish, lassert_pos haligned, lassert_pos hsize]
    exact heq
  · simp only [hdirty']
    simp only at hdirty
    omega
  · rw [hstart, ext_set_self]
    rw [hargs.start_eq]
    exact chunkFirst_le hargs.start
  · rw [hend, ext_set_self]
    have hlt : P.chunkOf index < P.chunkOf (o.ext e).oeEnd := by
      have := hwf.lo_le_hi
      simp only [OscExtent.lo, OscExtent.hi] at *
      omega
    exact (lt_of_chunkOf_lt hlt).le

/-- The extent grows by the chunk after it, and may meet the next one. -/
theorem findFinish_rear (hchunk : P.chunkOf index = (o.ext e).hi P + 1)
    (hfree : FreeChunk P o (P.chunkOf index)) :
    ∃ r, findFinish P o hargs.init maxExtentPages grants (.rear e) = some r ∧
      Found P o index grants r := by
  have hwf := h.wf e he
  obtain ⟨hlo, hhi, hinit⟩ := hargs.init_wf
  have htrunc : (o.ext e).oeState ≠ .trunc := by simp [hstate]
  have hsize : P.chunksize ≤ grants := (Nat.le_add_right _ _).trans hgrants
  have hstop : hargs.init.oeEnd = P.chunkLast ((o.ext e).hi P + 1) := by
    rw [hargs.end_eq, hchunk]
  have hle : (o.ext e).hi P + 1 ≤ P.chunkOf (o.ext e).oeMaxEnd := by
    have hmax' := hinit.hi_le_max
    rw [hmax, ← hchunk, ← hhi]
    exact hmax'
  have hx := hwf.growEnd htrunc hstop (hhi.trans hchunk) hle
  obtain ⟨hset, hdirty⟩ := h.grow he hx hfree (.inr ⟨rfl, hhi, hchunk⟩)
  have hset_state : ((o.set e { o.ext e with
      oeEnd := hargs.init.oeEnd
      oeGrants := (o.ext e).oeGrants + P.chunksize }).ext e).oeState = .cache := by
    rw [ext_set_self]
    exact hstate
  obtain ⟨r1, heq1, hm⟩ := oscExtentMerge_spec maxExtentPages hset he hset_state
    (nextExtent_mem hset he)
  have hend1 : (o.ext e).oeEnd ≤ (r1.1.ext e).oeEnd ∧ hargs.init.oeEnd ≤ (r1.1.ext e).oeEnd := by
    have hcovers := hm.covers.2
    rw [ext_set_self] at hcovers
    refine ⟨le_trans ?_ hcovers, hcovers⟩
    rw [hstop, hwf.end_eq]
    exact chunkLast_mono (Nat.le_succ _)
  have hstart1 : (r1.1.ext e).oeStart ≤ (o.ext e).oeStart := by
    have hcovers := hm.covers.1
    rwa [ext_set_self] at hcovers
  have hstate1 : (r1.1.ext e).oeState = .cache := hm.state.trans hset_state
  obtain ⟨o', heq, hheld, hdirty', hstart, hend⟩ := holdFound_spec
    (grants - P.chunksize + if r1.2 then P.clGrantExtentTax else 0)
    (o := o) (e := e) hm.right (Frame.set.trans hm.frame) he hm.mem
    (by simp [hstate, busy]) (by simp [hstate1, busy])
    (by rw [hm.users, ext_set_self]) hend1.1 (by rw [hm.pending, ext_set_self])
  refine ⟨(o', grants - P.chunksize + if r1.2 then P.clGrantExtentTax else 0, some e), ?_, ?_,
    .inr ⟨e, rfl, hheld, ?_, ?_⟩⟩
  · rw [findFinish, lassert_pos hsize]
    have hnext : nextExtent o.ooRoot e = nextExtent (o.set e { o.ext e with
        oeEnd := hargs.init.oeEnd
        oeGrants := (o.ext e).oeGrants + P.chunksize }).ooRoot e := rfl
    rw [hnext, heq1, Option.bind_some]
    exact heq
  · simp only [hdirty']
    have hsaved := hm.dirty
    simp only at hdirty
    omega
  · rw [hstart]
    refine hstart1.trans (hwf.start_le_end.trans ?_)
    have hlt : P.chunkOf (o.ext e).oeEnd < P.chunkOf index := by
      rw [hchunk]
      exact Nat.lt_succ_self _
    exact (lt_of_chunkOf_lt hlt).le
  · rw [hend]
    refine le_trans ?_ hend1.2
    rw [hargs.end_eq]
    exact le_chunkLast hargs.stop

end

/-- A new extent on a chunk that no extent has. -/
theorem findFinish_create (hgrants : P.need ≤ grants) (hfree : FreeChunk P o (P.chunkOf index)) :
    ∃ r, findFinish P o hargs.init maxExtentPages grants .create = some r ∧
      Found P o index grants r := by
  obtain ⟨hlo, hhi, hinit⟩ := hargs.init_wf
  have hne : ∀ a ∈ o.ooRoot, a ≠ o.fresh := fun a ha heq => h.notMem (heq ▸ ha)
  -- the extent as it is put into the tree
  obtain ⟨x, hxdef⟩ : ∃ x : OscExtent, x = { hargs.init with
      oeGrants := P.need, oeState := .active, oeUsers := 1 } := ⟨_, rfl⟩
  have hxwf : x.Wf P := hxdef ▸ hinit
  have hxlo : x.lo P = P.chunkOf index := hxdef ▸ hlo
  have hxhi : x.hi P = P.chunkOf index := hxdef ▸ hhi
  have hself : update o.ext o.fresh x o.fresh = x := Function.update_self ..
  have hother : ∀ a ∈ o.ooRoot, update o.ext o.fresh x a = o.ext a := fun a ha =>
    Function.update_of_ne (hne a ha) ..
  have hover : oscExtentIsOverlapped o o.fresh hargs.init = false := by
    refine oscExtentIsOverlapped_eq_false h hinit rfl rfl fun a ha _ => ?_
    show (o.ext a).hi P < hargs.init.lo P ∨ hargs.init.hi P < (o.ext a).lo P
    rw [hlo, hhi]
    exact hfree a ha
  have hrow : SpanRow (fun a => (update o.ext o.fresh x a).lo P)
      (fun a => (update o.ext o.fresh x a).hi P) o.ooRoot :=
    h.row.congr (fun a ha => congrArg (OscExtent.lo P) (hother a ha))
      (fun a ha => congrArg (OscExtent.hi P) (hother a ha))
  have hnew : (update o.ext o.fresh x o.fresh).Wf P := hself.symm ▸ hxwf
  have hwf : ∀ a ∈ o.ooRoot, (update o.ext o.fresh x a).Wf P := by
    intro a ha
    rw [hother a ha]
    exact h.wf a ha
  obtain ⟨pre, post, hroot, hinsert, hpre, hpost⟩ := oscExtentInsert_spec hnew o.ooRoot hwf hrow
    (fun a ha => by rw [hother a ha, hself, hxlo, hxhi]; exact hfree a ha)
  have hheld : ExtentHeld P o ⟨update o.ext o.fresh x, pre ++ o.fresh :: post, o.fresh + 1⟩
      o.fresh := by
    refine ⟨⟨?_, ?_, ?_⟩, ⟨?_, ?_⟩, ?_, ?_, ?_, fun hmem => absurd hmem h.notMem⟩
    · rw [hroot] at hrow
      refine hrow.put ?_ hpre hpost
      simp only [hself]
      exact hxwf.lo_le_hi
    · obtain ⟨hl, hr⟩ := forall_mem_append.mp (hroot ▸ hwf)
      exact forall_mem_append.mpr ⟨hl, forall_mem_cons.mpr ⟨hnew, hr⟩⟩
    · obtain ⟨hl, hr⟩ := forall_mem_append.mp (hroot ▸ h.fresh)
      exact forall_mem_append.mpr ⟨fun a ha => Nat.lt_succ_of_lt (hl a ha), forall_mem_cons.mpr
        ⟨Nat.lt_succ_self _, fun a ha => Nat.lt_succ_of_lt (hr a ha)⟩⟩
    · intro l hl _
      rw [hroot] at hl
      exact hl.trans ((List.Sublist.refl pre).append (sublist_cons_self _ post))
    · intro a ha hnew
      have hmem : a ∈ o.ooRoot := by
        rw [hroot]
        exact (mem_cons.mp (perm_middle.mem_iff.mp ha)).resolve_left hnew
      exact ⟨hmem, hother a hmem⟩
    · exact mem_append_right _ mem_cons_self
    · show (update o.ext o.fresh x o.fresh).oeState = .active
      rw [hself, hxdef]
    · show (update o.ext o.fresh x o.fresh).oeUsers = _
      rw [hself, hxdef, if_neg h.notMem]
  have hdirty : (mk (update o.ext o.fresh x) (pre ++ o.fresh :: post)
      (o.fresh + 1)).dirty = P.need + o.dirty := by
    have hsum : ((pre ++ post).map fun a => (update o.ext o.fresh x a).oeGrants).sum =
        ((pre ++ post).map fun a => (o.ext a).oeGrants).sum :=
      sum_congr_mem fun a ha => congrArg OscExtent.oeGrants (hother a (hroot ▸ ha))
    have hxgrants : x.oeGrants = P.need := by rw [hxdef]
    simp only [dirty]
    rw [sum_split, hsum, hself, hxgrants, hroot]
  refine ⟨(⟨update o.ext o.fresh x, pre ++ o.fresh :: post, o.fresh + 1⟩,
    grants - P.need, some o.fresh), ?_, ?_, .inr ⟨o.fresh, rfl, hheld, ?_⟩⟩
  · have hhold : oscExtentHold { hargs.init with
        oeGrants := P.need, oeState := .cache } = some x := by
      rw [oscExtentHold, lassert_pos (.inr rfl), hxdef]
      rfl
    rw [findFinish, createExtent, lassert_pos hover, lassert_pos hgrants, hhold, Option.bind_some,
      hinsert, Option.map_some]
  · simp only [hdirty]
    omega
  · show (update o.ext o.fresh x o.fresh).oeStart ≤ index ∧
      index ≤ (update o.ext o.fresh x o.fresh).oeEnd
    rw [hself]
    exact page_inside hargs hxwf hxlo.le hxhi.ge

/-- `osc_extent_find`, called with the grant for a new extent, breaks no assertion. -/
theorem oscExtentFind_spec (maxExtentPages : ℕ) (hgrants : P.need ≤ grants) :
    ∃ r, oscExtentFind P o index maxPages maxExtentPages grants = some r ∧
      Found P o index grants r := by
  have hmem : ∀ a ∈ scanFrom o.ext hargs.init.oeStart o.ooRoot, a ∈ o.ooRoot := by
    obtain ⟨pre, l, hroot, hscan, -, -⟩ := scanFrom_spec hargs.init.oeStart h
    intro a ha
    rw [hscan] at ha
    rw [hroot]
    exact mem_append_right _ ha
  obtain ⟨res, hloop, hfits⟩ := findLoop_spec h hargs maxExtentPages _ hmem
  simp only [oscExtentFind]
  rw [lassert_pos hgrants, lassert_pos (hargs.short), hloop, Option.bind_some]
  cases res with
  | conflict e => exact ⟨_, rfl, rfl, .inl ⟨rfl, rfl, rfl⟩⟩
  | hold e =>
    obtain ⟨he, hlo, hhi, hbusy⟩ := hfits
    -- the extent has the chunk
    have hframe : Frame o o e := ⟨fun _ hl _ => hl, fun _ ha _ => ⟨ha, rfl⟩⟩
    obtain ⟨o', heq, hheld, hdirty, hstart, hend⟩ := holdFound_spec grants h hframe he he
      hbusy hbusy rfl le_rfl rfl
    obtain ⟨hin1, hin2⟩ := page_inside hargs (h.wf e he) hlo hhi
    refine ⟨_, heq, ?_, .inr ⟨e, rfl, hheld, hstart.le.trans hin1, hin2.trans hend.ge⟩⟩
    rw [hdirty]
  | front e =>
    obtain ⟨he, hstate, hmax, hchunk⟩ := hfits
    exact findFinish_front h hargs hgrants he hstate hmax hchunk
      (findLoop_free h hargs hloop (fun _ => noConfusion) fun _ => noConfusion)
  | rear e =>
    obtain ⟨he, hstate, hmax, hchunk⟩ := hfits
    exact findFinish_rear h hargs hgrants he hstate hmax hchunk
      (findLoop_free h hargs hloop (fun _ => noConfusion) fun _ => noConfusion)
  | create =>
    exact findFinish_create h hargs hgrants
      (findLoop_free h hargs hloop (fun _ => noConfusion) fun _ => noConfusion)

end

/-! ## Expanding and releasing an extent -/

/-- `osc_extent_expand`, called with the grant for a new extent, breaks no assertion. -/
theorem oscExtentExpand_spec (h : Right P o) (he : e ∈ o.ooRoot)
    (hstate : (o.ext e).oeState ≠ .trunc) (maxExtentPages : ℕ) (hgrants : P.need ≤ grants)
    (hmax : index ≤ (o.ext e).oeMaxEnd) (hstart : (o.ext e).oeStart ≤ index) :
    ∃ r, oscExtentExpand P o e index maxExtentPages grants = some r ∧ ExtentKept P o r.1 e ∧
      r.1.dirty + r.2.1 = o.dirty + grants ∧ (r.2.2 = true → index ≤ (r.1.ext e).oeEnd) := by
  have hwf := h.wf e he
  have hkept : ExtentKept P o o e := .refl h he
  have hcld : index ≤ P.cldEnd := hmax.trans hwf.le_cldEnd
  have hle := chunkOf_mono (P := P) hmax
  simp only [oscExtentExpand]
  rw [lassert_pos ⟨hmax, hstart⟩, min_comm, hwf.min_max_eq hle]
  by_cases hfar : (o.ext e).hi P + 1 < P.chunkOf index
  · exact ⟨_, if_pos hfar, hkept, rfl, Bool.noConfusion⟩
  rw [if_neg hfar]
  by_cases hin : P.chunkOf index ≤ (o.ext e).hi P
  · refine ⟨_, if_pos hin, hkept, rfl, fun _ => ?_⟩
    rw [hwf.end_eq]
    exact (le_chunkLast hcld).trans (chunkLast_mono hin)
  rw [if_neg hin]
  by_cases hlong : maxExtentPages < P.chunkLast (P.chunkOf index) - (o.ext e).oeStart + 1
  · exact ⟨_, if_pos hlong, hkept, rfl, Bool.noConfusion⟩
  rw [if_neg hlong]
  by_cases hnext : ∃ n ∈ nextExtent o.ooRoot e, (o.ext n).oeStart ≤ P.chunkLast (P.chunkOf index)
  · exact ⟨_, if_pos hnext, hkept, rfl, Bool.noConfusion⟩
  rw [if_neg hnext]
  -- the next chunk is free, since the next extent begins behind it
  have hchunk : P.chunkOf index = (o.ext e).hi P + 1 := by omega
  obtain ⟨pre, post, hroot⟩ := append_of_mem he
  have hrow := h.row
  rw [hroot] at hrow
  have hleft : ∀ a ∈ pre, (o.ext a).hi P < (o.ext e).lo P := fun a ha => hrow.left ha
  have hright : ∀ b ∈ post, P.chunkOf index < (o.ext b).lo P := by
    cases post with
    | nil => exact forall_mem_nil _
    | cons n post =>
      have hhead : nextExtent o.ooRoot e = some n := by
        rw [nextExtent, hroot, dropWhile_split hrow.notMem_left]
        rfl
      have hn : n ∈ o.ooRoot := by
        rw [hroot]
        exact mem_append_right _ (mem_cons_of_mem _ mem_cons_self)
      have hbehind : P.chunkLast (P.chunkOf index) < (o.ext n).oeStart :=
        not_le.mp fun hle => hnext ⟨n, hhead, hle⟩
      have hlt : P.chunkOf index < (o.ext n).lo P := by
        have hlon : (o.ext e).hi P < (o.ext n).lo P := hrow.right mem_cons_self
        refine lt_of_le_of_ne (by omega) fun heq => ?_
        rw [(h.wf n hn).start_eq, ← heq] at hbehind
        have hfirst := chunkFirst_le (P := P) (hwf.le_start.trans hstart)
        have hlast := le_chunkLast hcld
        omega
      refine forall_mem_cons.mpr ⟨hlt, fun b hb => ?_⟩
      have horder : (o.ext n).hi P < (o.ext b).lo P :=
        rel_of_pairwise_cons (pairwise_append.mp hrow.order).2.1.of_cons hb
      exact (hlt.trans_le (h.wf n hn).lo_le_hi).trans horder
  have hstop : P.chunkOf (P.chunkLast (P.chunkOf index)) = (o.ext e).hi P + 1 :=
    (chunkOf_chunkLast hcld).trans hchunk
  have hx := hwf.growEnd hstate (congrArg P.chunkLast hchunk) hstop (hchunk ▸ hle)
  have hfree : FreeChunk P o (P.chunkOf index) := by
    have hlo := hwf.lo_le_hi
    rw [FreeChunk, hroot]
    refine forall_mem_append.mpr ⟨fun a ha => .inl ?_, forall_mem_cons.mpr ⟨.inl (by omega),
      fun b hb => .inr (hright b hb)⟩⟩
    have := hleft a ha
    omega
  obtain ⟨hset, hdirty⟩ := h.grow he hx hfree (.inr ⟨rfl, hstop.trans hchunk.symm, hchunk⟩)
  have hover : oscExtentIsOverlapped o e
      { o.ext e with oeEnd := P.chunkLast (P.chunkOf index) } = false := by
    refine oscExtentIsOverlapped_eq_false h hx rfl rfl fun a ha hne => ?_
    have hle := (h.wf a ha).lo_le_hi
    have := hfree a ha
    have hapart : (o.ext a).hi P < (o.ext e).lo P ∨ (o.ext e).hi P < (o.ext a).lo P :=
      h.row.apart ha he hne
    show (o.ext a).hi P < (o.ext e).lo P ∨ P.chunkOf (P.chunkLast (P.chunkOf index)) < (o.ext a).lo P
    omega
  rw [lassert_pos ((Nat.le_add_right _ _).trans hgrants), lassert_pos hover]
  refine ⟨_, rfl, ⟨hset, .set, he, ?_, ?_, ?_, ?_, ?_⟩, ?_, ?_⟩
  · simp
  · simp
  · simp
  · simp
  · rw [ext_set_self, hwf.end_eq]
    refine chunkLast_mono ?_
    omega
  · simp only at hdirty ⊢
    have hsize : P.chunksize ≤ grants := (Nat.le_add_right _ _).trans hgrants
    omega
  · intro _
    rw [ext_set_self]
    exact le_chunkLast hcld

/-- What `osc_extent_release` does to an extent with users. -/
structure Released (P : OscConf) (o o' : OscObject) (e saved : ℕ) : Prop where
  right : Right P o'
  dirty : o'.dirty + saved = o.dirty
  frame : Frame o o' e
  mem : e ∈ o'.ooRoot
  users : (o'.ext e).oeUsers + 1 = (o.ext e).oeUsers
  /-- with users left it stays active, and else it is truncated if that was asked for -/
  state : ((o'.ext e).oeState = .active ∧ (o'.ext e).oeTruncPending = (o.ext e).oeTruncPending) ∨
    ((o.ext e).oeUsers = 1 ∧ ((o.ext e).oeTruncPending = true → (o'.ext e).oeState = .trunc))
  covers : (o.ext e).oeEnd ≤ (o'.ext e).oeEnd

/-- `osc_extent_release` of an active extent breaks no assertion. -/
theorem oscExtentRelease_spec (h : Right P o) (he : e ∈ o.ooRoot)
    (hstate : (o.ext e).oeState = .active) (maxExtentPages : ℕ) (husers : 0 < (o.ext e).oeUsers) :
    ∃ r, oscExtentRelease P maxExtentPages o e = some r ∧ Released P o r.1 e r.2 := by
  have hwf := h.wf e he
  have htrunc : (o.ext e).oeState ≠ .trunc := by simp [hstate]
  have hgrants : 0 < (o.ext e).oeGrants := by
    rw [hwf.grants_eq htrunc]
    exact fullGrant_pos
  simp only [oscExtentRelease]
  rw [lassert_pos husers, lassert_pos hgrants]
  by_cases hlast : (o.ext e).oeUsers - 1 ≠ 0
  · have hx : OscExtent.Wf P { o.ext e with oeUsers := (o.ext e).oeUsers - 1 } :=
      { hwf with }
    obtain ⟨hset, hdirty⟩ := h.shrink he hx rfl le_rfl
    refine ⟨_, if_pos hlast, hset, Nat.add_right_cancel hdirty, .set, he, ?_, .inl ?_, ?_⟩
    · rw [ext_set_self]
      exact Nat.sub_add_cancel husers
    · rw [ext_set_self]
      exact ⟨hstate, rfl⟩
    · rw [ext_set_self]
  rw [if_neg hlast, lassert_pos hstate]
  have hone : (o.ext e).oeUsers = 1 := by omega
  by_cases hpending : (o.ext e).oeTruncPending = true
  · have hx : OscExtent.Wf P { o.ext e with
        oeUsers := 0, oeState := .trunc, oeTruncPending := false } :=
      hwf.restate htrunc noConfusion noConfusion
    obtain ⟨hset, hdirty⟩ := h.shrink he hx rfl le_rfl
    refine ⟨_, if_pos hpending, hset, Nat.add_right_cancel hdirty, .set, he, ?_, .inr ⟨hone, ?_⟩, ?_⟩
    · rw [ext_set_self, hone]
    · intro _
      rw [ext_set_self]
    · rw [ext_set_self]
  rw [if_neg hpending]
  have hx : OscExtent.Wf P { o.ext e with oeUsers := 0, oeState := .cache } :=
    hwf.restate htrunc noConfusion noConfusion
  obtain ⟨hset, hdirty⟩ := h.shrink he hx rfl le_rfl
  obtain ⟨r, heq, hm⟩ := mergeNeighbours_spec maxExtentPages hset he (by rw [ext_set_self])
  refine ⟨r, heq, hm.right, hm.dirty.trans (Nat.add_right_cancel hdirty), Frame.set.trans hm.frame,
    hm.mem, ?_, .inr ⟨hone, fun htr => absurd htr hpending⟩, ?_⟩
  · rw [hm.users, ext_set_self, hone]
  · have hcovers := hm.covers.2
    rwa [ext_set_self] at hcovers

end

end Lustre
