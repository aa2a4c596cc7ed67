import Lustre.OscCache

/-!
# The grants are right in every run

One lemma for each operation: it can be carried out, no assertion fails, and it keeps the invariant.
The grant of the client changes only when an extent is finished, by what the server has used of it.
-/

namespace Lustre

open List

open Finset OscObject
open Function (update)

variable {τ : Type} [Fintype τ] [DecidableEq τ] {P : OscConf} {s : OscState τ}

/-- What holds in every state. -/
structure OscState.Inv (P : OscConf) (s : OscState τ) : Prop where
  right : Right P s.obj
  writers : Writers s.obj s.io
  reserved : s.cli.clReservedGrant = ∑ t, ((s.io t).grants : ℤ)
  /-- what is dirty, the extents carry, but for what a writer has not yet given account of -/
  dirty : s.cli.clDirtyGrant + ∑ t, (((s.io t).grants : ℤ) - (s.io t).tmp) = s.obj.dirty
  truncs : Truncs s.obj s.truncIndex s.truncTail s.truncList s.extp

/-- The grant that the server uses up in an operation. -/
def consumed (P : OscConf) (s : OscState τ) : OscOp τ → ℤ
  | .finish e sent _ blockBits => (s.obj.ext e).oeGrants - lostGrant P (s.obj.ext e) sent blockBits
  | _ => 0

/-- The operation is carried out, and everything stays right. -/
def RunsRight (P : OscConf) (s : OscState τ) (op : OscOp τ) : Prop :=
  ∃ s', s.run P op = some s' ∧ s'.Inv P ∧ s'.cli.total = s.cli.total - consumed P s op

theorem RunsRight.keep (s' : OscState τ) {op : OscOp τ} (hrun : s.run P op = some s')
    (hinv : s'.Inv P) (htotal : s'.cli.total = s.cli.total) (hnone : consumed P s op = 0) :
    RunsRight P s op :=
  ⟨s', hrun, hinv, by rw [htotal, hnone, sub_zero]⟩

/-! ## Changes of the parts -/

namespace OscState.Inv

variable {t : τ} {e : ℕ} {x : OscExtent} {y : OscIo} {cli' : ClientObd} {o' : OscObject}

/-- A writer changes, and with it the counters and the extents. -/
theorem change (h : s.Inv P) (hright : Right P o') (hwriters : Writers o' (update s.io t y))
    (hreserved : cli'.clReservedGrant + (s.io t).grants = s.cli.clReservedGrant + y.grants)
    (hdirty : cli'.clDirtyGrant + (y.grants - y.tmp) + s.obj.dirty =
      s.cli.clDirtyGrant + ((s.io t).grants - (s.io t).tmp) + o'.dirty)
    (htruncs : Truncs o' s.truncIndex s.truncTail s.truncList s.extp) :
    Inv P (({ s with obj := o', cli := cli' } : OscState τ).setIo t y) := by
  have hres := sum_update_add (mem_univ t) (fun z : OscIo => (z.grants : ℤ)) (g := s.io) (x := y)
  have hsum := sum_update_add (mem_univ t) (fun z : OscIo => (z.grants : ℤ) - z.tmp) (g := s.io)
    (x := y)
  have hinv := h.reserved
  have hinv' := h.dirty
  refine ⟨hright, hwriters, ?_, ?_, htruncs⟩
  · show cli'.clReservedGrant = ∑ u, ((update s.io t y u).grants : ℤ)
    omega
  · show cli'.clDirtyGrant +
      ∑ u, (((update s.io t y u).grants : ℤ) - (update s.io t y u).tmp) = o'.dirty
    omega

/-- A writer changes what it has reserved, and the counters change with it. -/
theorem setIo (h : s.Inv P) (hactive : y.oiActive = (s.io t).oiActive)
    (hmoves : s.cli.Moves cli' ((y.grants : ℤ) - (s.io t).grants)
      (((s.io t).grants : ℤ) - (s.io t).tmp - (y.grants - y.tmp)) 0) :
    Inv P (({ s with cli := cli' } : OscState τ).setIo t y) := by
  have hreserved := hmoves.reserved
  have hdirty := hmoves.dirty
  exact h.change h.right (h.writers.setIo hactive) (by omega) (by omega) h.truncs

end OscState.Inv

variable {t : τ} {e : ℕ}

/-! ## Writers -/

open OscState (run setIo)

open OscExtentState (noConfusion busy)

section

variable (h : s.Inv P)
include h

theorem runsRight_enterCache (covered : Bool) (clDirtyMaxPages obdMaxDirtyPages : ℤ)
    (hen : s.Enabled P (.enterCache t covered clDirtyMaxPages obdMaxDirtyPages)) :
    RunsRight P s (.enterCache t covered clDirtyMaxPages obdMaxDirtyPages) := by
  obtain ⟨hgrants, htmp⟩ := hen
  have hmoves := oscEnterCacheTry_moves s.cli (if covered then 0 else P.need) clDirtyMaxPages
    obdMaxDirtyPages
  by_cases hok : (oscEnterCacheTry s.cli (if covered then 0 else P.need) clDirtyMaxPages
      obdMaxDirtyPages).2 = true
  · rw [if_pos hok] at hmoves
    refine .keep _ (if_pos hok) (h.setIo rfl ?_) (hmoves.total.trans (add_zero _)) rfl
    simpa [hgrants, htmp] using hmoves
  · rw [if_neg hok] at hmoves
    refine .keep _ (if_neg hok) ⟨h.right, h.writers, ?_, ?_, h.truncs⟩
      (hmoves.total.trans (add_zero _)) rfl
    · rw [hmoves.reserved, add_zero]
      exact h.reserved
    · rw [hmoves.dirty, add_zero]
      exact h.dirty

theorem runsRight_exitCache : RunsRight P s (.exitCache t) :=
  .keep _ rfl { h with } rfl rfl

theorem runsRight_unreserve : RunsRight P s (.unreserve t) := by
  have hmoves := oscUnreserveGrant_moves s.cli (s.io t).grants (s.io t).tmp
  refine .keep _ rfl (h.setIo rfl ?_) (hmoves.total.trans (add_zero _)) rfl
  simpa using hmoves

theorem runsRight_find (index maxPages maxExtentPages : ℕ)
    (hen : s.Enabled P (.find t index maxPages maxExtentPages)) :
    RunsRight P s (.find t index maxPages maxExtentPages) := by
  obtain ⟨hnone, hgrants, htmp, hargs⟩ := hen
  obtain ⟨r, heq, hfound⟩ := oscExtentFind_spec h.right hargs maxExtentPages htmp.ge
  rcases hfound.extent with ⟨hres, -, -⟩ | ⟨e, hres, hheld, -, -⟩
  · refine .keep s ?_ h rfl rfl
    simp only [run]
    rw [heq, Option.map_some, hres]
  · refine .keep (({ s with obj := r.1 } : OscState τ).setIo t
      { s.io t with oiActive := some e, tmp := r.2.1 }) ?_
      (h.change hheld.right (h.writers.hold hheld hnone rfl) rfl ?_ ?_) rfl rfl
    · simp only [run]
      rw [heq, Option.map_some, hres]
    · have hmove := hfound.dirty
      simp only
      omega
    · refine h.truncs.frame hheld.frame ?_ ?_
      · intro he
        have hmem := h.truncs.sub.subset he
        obtain ⟨hbusy, hend, hpending⟩ := hheld.old hmem
        obtain ⟨hmark, hidx⟩ := h.truncs.marked e he
        refine ⟨.inr ⟨hheld.state, ?_⟩, hidx.trans hend⟩
        rcases hmark with htr | hact
        · rw [htr] at hbusy
          cases hbusy
        · exact hpending.trans hact.2
      · intro he
        obtain ⟨hmem, htr, -⟩ := h.truncs.kept e he
        have hbusy := (hheld.old hmem).1
        rw [htr] at hbusy
        cases hbusy

theorem runsRight_expand (index maxExtentPages : ℕ)
    (hen : s.Enabled P (.expand t index maxExtentPages)) :
    RunsRight P s (.expand t index maxExtentPages) := by
  obtain ⟨-, htmp, e, hactive, hstart, hmax⟩ := hen
  obtain ⟨hmem, hstate⟩ := h.writers.active t e hactive
  obtain ⟨r, heq, hkept, hdirty, -⟩ := oscExtentExpand_spec h.right hmem (by simp [hstate])
    maxExtentPages htmp.ge hmax hstart
  refine .keep (({ s with obj := r.1 } : OscState τ).setIo t { s.io t with tmp := r.2.1 }) ?_
    (h.change hkept.right ?_ rfl ?_ ?_) rfl rfl
  · simp only [run]
    rw [hactive]
    simp only [heq, Option.map_some]
  · refine Writers.setIo ?_ rfl
    exact h.writers.frame hkept.frame (fun _ _ => ⟨hkept.mem, hkept.state.trans hstate⟩)
      (fun _ => ⟨hmem, hkept.users⟩)
  · simp only
    omega
  · have hextp := h.truncs.extp_ne (e := e) (by simp [hstate])
    refine h.truncs.frame hkept.frame (fun he => ?_) fun he => absurd he hextp
    obtain ⟨hmark, hidx⟩ := h.truncs.marked e he
    refine ⟨?_, hidx.trans hkept.covers.2⟩
    show (r.1.ext e).oeState = .trunc ∨
      (r.1.ext e).oeState = .active ∧ (r.1.ext e).oeTruncPending = true
    rw [hkept.state, hkept.pending]
    exact hmark

theorem runsRight_release (maxExtentPages : ℕ)
    (hen : s.Enabled P (.release t maxExtentPages)) : RunsRight P s (.release t maxExtentPages) := by
  obtain ⟨e, hactive⟩ := Option.ne_none_iff_exists'.mp hen
  obtain ⟨hmem, hstate⟩ := h.writers.active t e hactive
  have husers : 0 < (s.obj.ext e).oeUsers := by
    rw [h.writers.users e hmem]
    exact card_pos.mpr ⟨t, mem_holders.mpr ⟨mem_univ t, hactive⟩⟩
  obtain ⟨r, heq, hrel⟩ := oscExtentRelease_spec h.right hmem hstate maxExtentPages husers
  have hmoves : s.cli.Moves (if 0 < r.2 then oscUnreserveGrant s.cli 0 r.2 else s.cli) 0 (-r.2) 0 := by
    split
    · simpa using oscUnreserveGrant_moves s.cli 0 r.2
    · next hzero =>
      have hr : r.2 = 0 := Nat.eq_zero_of_not_pos hzero
      simpa [hr] using ClientObd.Moves.refl s.cli
  refine .keep (({ s with
      obj := r.1
      cli := if 0 < r.2 then oscUnreserveGrant s.cli 0 r.2 else s.cli } : OscState τ).setIo t
      { s.io t with oiActive := none }) ?_
    (h.change hrel.right (h.writers.release hrel hactive rfl) ?_ ?_ ?_)
    (hmoves.total.trans (add_zero _)) rfl
  · simp only [run]
    rw [hactive]
    simp only [heq, Option.map_some]
  · rw [hmoves.reserved, add_zero]
  · have hdirty := hrel.dirty
    have hmove := hmoves.dirty
    simp only
    omega
  · have hextp := h.truncs.extp_ne (e := e) (by simp [hstate])
    refine h.truncs.frame hrel.frame (fun he => ?_) fun he => absurd he hextp
    obtain ⟨hmark, hidx⟩ := h.truncs.marked e he
    have hpending : (s.obj.ext e).oeTruncPending = true := by
      rcases hmark with htr | hact
      · rw [hstate] at htr
        cases htr
      · exact hact.2
    refine ⟨?_, hidx.trans hrel.covers⟩
    rcases hrel.state with hact | hlast
    · exact .inr ⟨hact.1, hact.2.trans hpending⟩
    · exact .inl (hlast.2 hpending)

/-! ## Extents -/

omit [DecidableEq τ] in
/-- An extent changes, but not its chunks and its grant. -/
theorem OscState.Inv.setExt {x : OscExtent} (he : e ∈ s.obj.ooRoot) (hx : x.Wf P)
    (hlo : x.lo P = (s.obj.ext e).lo P) (hhi : x.hi P ≤ (s.obj.ext e).hi P)
    (hgrants : x.oeGrants = (s.obj.ext e).oeGrants) (hwriters : Writers (s.obj.set e x) s.io)
    (htruncs : Truncs (s.obj.set e x) s.truncIndex s.truncTail s.truncList s.extp) :
    Inv P { s with obj := s.obj.set e x } := by
  obtain ⟨hright, hdirty⟩ := h.right.shrink he hx hlo hhi
  rw [hgrants] at hdirty
  refine ⟨hright, hwriters, h.reserved, h.dirty.trans ?_, htruncs⟩
  rw [Nat.add_right_cancel hdirty]

theorem runsRight_writeback (hen : s.Enabled P (.writeback e)) : RunsRight P s (.writeback e) := by
  have hwf := h.right.wf e hen
  refine .keep _ rfl ?_ rfl rfl
  refine h.setExt hen ?_ rfl le_rfl rfl ?_ ?_
  · exact { hwf with }
  · exact h.writers.set hen (fun hact => hact) rfl
  · exact h.truncs.set rfl rfl rfl fun hne => hne

theorem runsRight_waitInv (hen : s.Enabled P (.waitInv t e)) : RunsRight P s (.waitInv t e) := by
  obtain ⟨hnone, hmem, -⟩ := hen
  have hwf := h.right.wf e hmem
  by_cases hactive : (s.obj.ext e).oeState = .active
  · refine .keep _ (if_pos hactive) ?_ rfl rfl
    refine h.setExt hmem ?_ rfl le_rfl rfl ?_ ?_
    · exact { hwf with }
    · exact h.writers.set hmem (fun hact => hact) rfl
    · exact h.truncs.set rfl rfl rfl fun hne => hne
  by_cases hcache : (s.obj.ext e).oeState = .cache
  · have hbusy : (s.obj.ext e).oeState.busy = false := by rw [hcache]; rfl
    have htrunc : (s.obj.ext e).oeState ≠ .trunc := by simp [hcache]
    have hwf' : OscExtent.Wf P { s.obj.ext e with oeUrgent := true } := { hwf with }
    let x : OscExtent := { s.obj.ext e with
        oeUrgent := true, oeState := .active, oeUsers := (s.obj.ext e).oeUsers + 1 }
    have hx : x.Wf P := hwf.restate htrunc noConfusion noConfusion
    obtain ⟨hright, hdirty⟩ := h.right.shrink hmem hx rfl le_rfl
    have hheld : ExtentHeld P s.obj (s.obj.set e x) e := by
      refine ⟨hright, .set, hmem, ?_, ?_, fun _ => ⟨hbusy, ?_, ?_⟩⟩
      · rw [ext_set_self]
      · rw [ext_set_self, if_pos hmem]
      · rw [ext_set_self]
      · rw [ext_set_self]
    refine .keep (({ s with obj := s.obj.set e x } : OscState τ).setIo t
        { s.io t with oiActive := some e }) ?_
      (h.change hright (h.writers.hold hheld hnone rfl) rfl ?_
        (h.truncs.set_of_notMem _ htrunc hactive)) rfl rfl
    · simp only [run, oscExtentWaitInv]
      rw [if_neg hactive, if_pos hcache, oscExtentHold_eq hwf' hbusy]
      rfl
    · simp only [x] at hdirty ⊢
      omega
  · refine .keep s ?_ h rfl rfl
    simp only [run, oscExtentWaitInv]
    rw [if_neg hactive, if_neg hcache]

theorem runsRight_addPage (p : OscAsyncPage) (hen : s.Enabled P (.addPage t p)) :
    RunsRight P s (.addPage t p) := by
  obtain ⟨hpos, hle, e, hactive, hstart, hend⟩ := hen
  obtain ⟨hmem, hstate⟩ := h.writers.active t e hactive
  have hwf := h.right.wf e hmem
  refine .keep { s with
      obj := s.obj.set e { s.obj.ext e with oePages := (s.obj.ext e).oePages ++ [p] } } ?_ ?_ rfl rfl
  · simp only [run]
    rw [hactive]
  refine h.setExt hmem ?_ rfl le_rfl rfl ?_ ?_
  · refine { hwf with inside := ?_, counts := ?_, sent := ?_, grants := ?_ }
    · exact forall_mem_append.mpr ⟨hwf.inside, forall_mem_singleton.mpr ⟨hstart, hend⟩⟩
    · exact forall_mem_append.mpr ⟨hwf.counts, forall_mem_singleton.mpr ⟨hpos, hle⟩⟩
    · simp
    · exact .inl (hwf.grants_eq (by simp [hstate]))
  · exact h.writers.set hmem (fun hact => hact) rfl
  · exact h.truncs.set rfl rfl rfl fun _ => by simp

theorem runsRight_lock (hen : s.Enabled P (.lock e)) : RunsRight P s (.lock e) := by
  obtain ⟨hmem, hcache⟩ := hen
  have hwf := h.right.wf e hmem
  have htrunc : (s.obj.ext e).oeState ≠ .trunc := by simp [hcache]
  have hactive : (s.obj.ext e).oeState ≠ .active := by simp [hcache]
  refine .keep _ rfl ?_ rfl rfl
  refine h.setExt hmem ?_ rfl le_rfl rfl ?_ ?_
  · exact hwf.restate htrunc noConfusion noConfusion
  · exact h.writers.set hmem (fun hact => absurd hact hactive) rfl
  · exact h.truncs.set_of_notMem _ htrunc hactive

theorem runsRight_makeReady (count : OscAsyncPage → ℕ)
    (hen : s.Enabled P (.makeReady e count)) : RunsRight P s (.makeReady e count) := by
  obtain ⟨hmem, hlocking, hpages, hcount⟩ := hen
  have hwf := h.right.wf e hmem
  have htrunc : (s.obj.ext e).oeState ≠ .trunc := by simp [hlocking]
  have hactive : (s.obj.ext e).oeState ≠ .active := by simp [hlocking]
  refine .keep _ rfl ?_ rfl rfl
  refine h.setExt hmem ?_ rfl le_rfl rfl ?_ ?_
  · refine { hwf with inside := ?_, counts := ?_, alive := ?_, sent := ?_, grants := ?_ }
    · intro q hq
      obtain ⟨p, hp, rfl⟩ := mem_map.mp hq
      exact hwf.inside p hp
    · intro q hq
      obtain ⟨p, hp, rfl⟩ := mem_map.mp hq
      exact hcount p hp
    · exact noConfusion
    · simpa using hpages
    · exact .inl (hwf.grants_eq htrunc)
  · exact h.writers.set hmem (fun hact => absurd hact hactive) rfl
  · exact h.truncs.set_of_notMem _ htrunc hactive

/-- What the server does not use comes back: the client loses what it uses. -/
theorem runsRight_finish (sent : Bool) (rc : ℤ) (blockBits : ℕ)
    (hen : s.Enabled P (.finish e sent rc blockBits)) :
    RunsRight P s (.finish e sent rc blockBits) := by
  obtain ⟨hmem, hstate⟩ := hen
  have hwf := h.right.wf e hmem
  obtain ⟨htrunc, hactive⟩ : (s.obj.ext e).oeState ≠ .trunc ∧ (s.obj.ext e).oeState ≠ .active := by
    rcases hstate with hst | ⟨hst, -⟩ <;> simp [hst]
  have hrc : rc = 0 → (s.obj.ext e).oeState = .rpc := by
    intro hzero
    exact hstate.resolve_right fun hst => hst.2.2 hzero
  have hpos : 0 < (s.obj.ext e).oeGrants := by
    rw [hwf.grants_eq htrunc]
    exact OscConf.fullGrant_pos
  obtain ⟨hlist, hextp⟩ := h.truncs.notMem htrunc hactive
  obtain ⟨hright, hdirty⟩ := h.right.remove hmem
  have hmoves := oscFreeGrant_moves P s.cli (s.obj.ext e).oePages.length
    (lostGrant P (s.obj.ext e) sent blockBits) (s.obj.ext e).oeGrants
  refine ⟨{ s with
      obj := s.obj.remove e
      cli := oscFreeGrant P s.cli (s.obj.ext e).oePages.length
        (lostGrant P (s.obj.ext e) sent blockBits) (s.obj.ext e).oeGrants }, ?_,
    ⟨hright, h.writers.remove h.right.row.nodup hactive, ?_, ?_,
      h.truncs.remove h.right.row.nodup hlist hextp⟩, ?_⟩
  · simp only [run, oscExtentFinish]
    rw [lassert_pos hrc, if_pos hpos]
  · exact hmoves.reserved.trans ((add_zero _).trans h.reserved)
  · have hdirty' := h.dirty
    have hmove := hmoves.dirty
    simp only
    omega
  · rw [hmoves.total, consumed]
    omega

/-! ## Truncates -/

theorem runsRight_truncStart (index : ℕ) (tail : Bool)
    (hen : s.Enabled P (.truncStart index tail)) : RunsRight P s (.truncStart index tail) := by
  obtain ⟨hlist, hextp⟩ := hen
  refine .keep _ rfl { h with truncs := ?_ } rfl rfl
  rw [hlist, hextp]
  exact .idle

end

omit [Fintype τ] [DecidableEq τ] in
/-- The walk of a truncate: a part of the tree, all of it behind the new end. -/
theorem truncFrom_spec {o : OscObject} (h : Right P o) (index : ℕ) :
    (truncFrom o index).Sublist o.ooRoot ∧ ∀ e ∈ truncFrom o index, index ≤ (o.ext e).oeEnd := by
  have hle : ∀ a ∈ o.ooRoot, (o.ext a).oeStart ≤ (o.ext a).oeEnd := fun a ha => (h.wf a ha).start_le_end
  simp only [truncFrom]
  rcases oscExtentSearch_spec index o.ooRoot h.pages hle with
    ⟨hnone, hall⟩ | ⟨pre, e, post, hroot, hsome, -, hpost⟩
  · rw [hnone]
    exact ⟨List.Sublist.refl _, fun a ha => (hall a ha).le.trans (hle a ha)⟩
  · have hrow := h.row
    rw [hroot] at hrow
    have hdrop : o.ooRoot.dropWhile (· ≠ e) = e :: post := by
      rw [hroot]
      exact dropWhile_split hrow.notMem_left
    have hmem : ∀ b ∈ post, b ∈ o.ooRoot := by
      intro b hb
      rw [hroot]
      exact mem_append_right _ (mem_cons_of_mem _ hb)
    have hbehind : ∀ b ∈ post, index ≤ (o.ext b).oeEnd := fun b hb =>
      (hpost b hb).le.trans (hle b (hmem b hb))
    have hsub : (e :: post).Sublist o.ooRoot := by
      rw [hroot]
      exact sublist_append_right _ _
    rw [hsome]
    simp only [hdrop, tail_cons]
    split
    · exact ⟨(sublist_cons_self _ _).trans hsub, hbehind⟩
    · next hnot =>
      exact ⟨hsub, forall_mem_cons.mpr ⟨not_lt.mp hnot, hbehind⟩⟩

omit [Fintype τ] [DecidableEq τ] in
/-- An extent that a truncate takes is active or cached. -/
theorem truncTake_spec {o : OscObject} (h : Right P o) (index : ℕ) :
    (truncTake o index).Sublist o.ooRoot ∧ ∀ e ∈ truncTake o index,
      ((o.ext e).oeState = .active ∨ (o.ext e).oeState = .cache) ∧ index ≤ (o.ext e).oeEnd := by
  obtain ⟨hsub, hend⟩ := truncFrom_spec h index
  have htake : (truncTake o index).Sublist (truncFrom o index) := takeWhile_sublist _
  refine ⟨htake.trans hsub, fun e he => ⟨?_, hend e (htake.subset he)⟩⟩
  have halive := (h.wf e (hsub.subset (htake.subset he))).alive
  have hfree := mem_takeWhile_imp he
  simp only [Bool.not_eq_true', Bool.or_eq_false_iff] at hfree
  have hbusy := hfree.1
  cases hstate : (o.ext e).oeState with
  | inv => exact absurd hstate halive
  | active => exact .inl rfl
  | cache => exact .inr rfl
  | locking | lockDone | rpc | trunc => simp [hstate, busy] at hbusy

/-- The fields of an extent that a truncate does not mark. -/
theorem truncMark_same (x : OscExtent) :
    (truncMark x).oeStart = x.oeStart ∧ (truncMark x).oeEnd = x.oeEnd ∧
      (truncMark x).oeGrants = x.oeGrants ∧ (truncMark x).oeUsers = x.oeUsers := by
  rw [truncMark]
  split <;> exact ⟨rfl, rfl, rfl, rfl⟩

theorem truncMark_active {x : OscExtent} (h : x.oeState = .active) :
    (truncMark x).oeState = .active := by
  rw [truncMark, if_pos h]
  exact h

section

variable {o : OscObject} {taken : List ℕ} {a : ℕ}

theorem ext_markAll_of_mem (h : a ∈ taken) : (o.markAll taken).ext a = truncMark (o.ext a) := if_pos h

theorem ext_markAll_of_notMem (h : a ∉ taken) : (o.markAll taken).ext a = o.ext a := if_neg h

/-- Marking changes neither pages nor grant nor users. -/
theorem markAll_same (o : OscObject) (taken : List ℕ) (a : ℕ) :
    ((o.markAll taken).ext a).oeStart = (o.ext a).oeStart ∧
      ((o.markAll taken).ext a).oeEnd = (o.ext a).oeEnd ∧
      ((o.markAll taken).ext a).oeGrants = (o.ext a).oeGrants ∧
      ((o.markAll taken).ext a).oeUsers = (o.ext a).oeUsers := by
  by_cases hin : a ∈ taken
  · rw [ext_markAll_of_mem hin]
    exact truncMark_same (o.ext a)
  · rw [ext_markAll_of_notMem hin]
    exact ⟨rfl, rfl, rfl, rfl⟩

/-- Marking active and cached extents keeps the tree right. -/
theorem OscObject.Right.markAll (h : Right P o)
    (htaken : ∀ a ∈ taken, (o.ext a).oeState = .active ∨ (o.ext a).oeState = .cache) :
    Right P (o.markAll taken) := by
  refine ⟨?_, ?_, h.fresh⟩
  · exact h.row.congr (fun a _ => congrArg P.chunkOf (markAll_same o taken a).1)
      fun a _ => congrArg P.chunkOf (markAll_same o taken a).2.1
  · intro a ha
    by_cases hin : a ∈ taken
    · rw [ext_markAll_of_mem hin, truncMark]
      split
      · exact { h.wf a ha with }
      · next hactive =>
        have hcache := (htaken a hin).resolve_left hactive
        exact (h.wf a ha).restate (by simp [hcache]) noConfusion noConfusion
    · rw [ext_markAll_of_notMem hin]
      exact h.wf a ha

end

omit [DecidableEq τ] in
theorem Writers.markAll {o : OscObject} {io : τ → OscIo} (h : Writers o io) (taken : List ℕ) :
    Writers (o.markAll taken) io := by
  refine ⟨?_, ?_⟩
  · intro t a ha
    obtain ⟨hmem, hstate⟩ := h.active t a ha
    refine ⟨hmem, ?_⟩
    by_cases hin : a ∈ taken
    · rw [ext_markAll_of_mem hin]
      exact truncMark_active hstate
    · rw [ext_markAll_of_notMem hin]
      exact hstate
  · intro a ha
    exact (markAll_same o taken a).2.2.2.trans (h.users a ha)

theorem runsRight_truncScan (h : s.Inv P) : RunsRight P s .truncScan := by
  obtain ⟨hsub, htaken⟩ := truncTake_spec h.right s.truncIndex
  have hdirty : (s.obj.markAll (truncTake s.obj s.truncIndex)).dirty = s.obj.dirty :=
    sum_congr_mem fun a _ => (markAll_same s.obj _ a).2.2.1
  have htruncs : Truncs (s.obj.markAll (truncTake s.obj s.truncIndex)) s.truncIndex s.truncTail
      (truncTake s.obj s.truncIndex) s.extp := by
    refine ⟨hsub, ?_, ?_⟩
    · intro a ha
      rw [ext_markAll_of_mem ha]
      constructor
      · rw [truncMark]
        split
        · next hact => exact .inr ⟨hact, rfl⟩
        · exact .inl rfl
      · rw [(truncMark_same (s.obj.ext a)).2.1]
        exact (htaken a ha).2
    · intro a ha
      obtain ⟨hmem, htrunc, hpages, -, hidx, htail⟩ := h.truncs.kept a ha
      have hnotin : a ∉ truncTake s.obj s.truncIndex := by
        intro hin
        rcases (htaken a hin).1 with hst | hst
        all_goals
          rw [hst] at htrunc
          cases htrunc
      rw [ext_markAll_of_notMem hnotin]
      exact ⟨hmem, htrunc, hpages, hnotin, hidx, htail⟩
  refine .keep _ rfl ⟨h.right.markAll fun a ha => (htaken a ha).1, h.writers.markAll _,
    h.reserved, ?_, htruncs⟩ rfl rfl
  simp only [hdirty]
  exact h.dirty

theorem runsRight_truncRemove (h : s.Inv P) (hen : s.Enabled P .truncRemove) :
    RunsRight P s .truncRemove := by
  obtain ⟨e, he, htrunc, hpages, hgrants⟩ := hen
  obtain ⟨l, hlist⟩ := head?_eq_some_iff.mp he
  have hsub := h.truncs.sub
  rw [hlist] at hsub
  have hmem : e ∈ s.obj.ooRoot := hsub.subset mem_cons_self
  have hnodup := h.right.row.nodup
  have hnot : e ∉ l := (nodup_cons.mp (hnodup.sublist hsub)).1
  obtain ⟨hright, hdirty⟩ := h.right.remove hmem
  -- the rest of the list goes on without the first
  have hrest : Truncs s.obj s.truncIndex s.truncTail l s.extp := by
    refine ⟨(sublist_cons_self e l).trans hsub, ?_, ?_⟩
    · intro a ha
      exact h.truncs.marked a (hlist ▸ mem_cons_of_mem _ ha)
    · intro a ha
      obtain ⟨hmem', htr, hp, hnotin, hidx, htail⟩ := h.truncs.kept a ha
      exact ⟨hmem', htr, hp, fun hin => hnotin (hlist ▸ mem_cons_of_mem _ hin), hidx, htail⟩
  refine .keep { s with obj := s.obj.remove e, truncList := l } ?_
    ⟨hright, h.writers.remove hnodup (by simp [htrunc]), h.reserved, ?_, ?_⟩ rfl rfl
  · simp only [run]
    rw [hlist]
  · rw [hgrants, add_zero] at hdirty
    simp only [hdirty]
    exact h.dirty
  · refine hrest.remove hnodup hnot ?_
    intro hextp
    exact (h.truncs.kept e hextp).2.2.1 hpages

theorem runsRight_truncEnd (h : s.Inv P) (hen : s.Enabled P .truncEnd) : RunsRight P s .truncEnd := by
  obtain ⟨hlist, hextp⟩ := hen
  obtain ⟨e, he⟩ := Option.ne_none_iff_exists'.mp hextp
  obtain ⟨hmem, htrunc, hpages, -⟩ := h.truncs.kept e he
  have hwf := h.right.wf e hmem
  have hx : OscExtent.Wf P { s.obj.ext e with
      oeState := .cache, oeUrgent := (s.obj.ext e).oeUrgent || (s.obj.ext e).oeFsyncWait } := by
    refine { hwf with alive := noConfusion, sent := noConfusion, grants := .inl ?_ }
    exact hwf.grants.resolve_right fun hempty => hpages hempty.2.1
  obtain ⟨hright, hdirty⟩ := h.right.shrink hmem hx rfl le_rfl
  refine .keep { s with
      obj := s.obj.set e { s.obj.ext e with
        oeState := .cache, oeUrgent := (s.obj.ext e).oeUrgent || (s.obj.ext e).oeFsyncWait }
      extp := none } ?_
    ⟨hright, h.writers.set hmem (fun hact => ?_) rfl, h.reserved, ?_, ?_⟩ rfl rfl
  · simp only [run]
    rw [he]
  · rw [htrunc] at hact
    cases hact
  · have hsame := Nat.add_right_cancel hdirty
    simp only [hsame]
    exact h.dirty
  · rw [hlist]
    exact .idle

theorem runsRight_truncate (h : s.Inv P) (hen : s.Enabled P .truncate) : RunsRight P s .truncate := by
  obtain ⟨e, he, htrunc, hpos⟩ := hen
  obtain ⟨l, hlist⟩ := head?_eq_some_iff.mp he
  have hsub := h.truncs.sub
  rw [hlist] at hsub
  have hrun : s.run P .truncate = oscTruncate P s e l := by
    simp only [run]
    rw [hlist]
  have hin : e ∈ s.truncList := hlist ▸ mem_cons_self
  have hmem : e ∈ s.obj.ooRoot := hsub.subset mem_cons_self
  have hnot : e ∉ l := (nodup_cons.mp (h.right.row.nodup.sublist hsub)).1
  have hwf := h.right.wf e hmem
  obtain ⟨y, g, heq, ht⟩ := oscExtentTruncate_spec s.truncTail hwf htrunc hpos
    (h.truncs.marked e hin).2
  obtain ⟨hright, hdirty⟩ := h.right.shrink hmem ht.wf ht.lo_eq ht.hi_le
  obtain ⟨cli, hcli⟩ : ∃ cli, (if 0 < g ∨ 0 < (s.obj.ext e).oePages.length - y.oePages.length then
      oscFreeGrant P s.cli ((s.obj.ext e).oePages.length - y.oePages.length) g g else s.cli) = cli :=
    ⟨_, rfl⟩
  have hmoves : s.cli.Moves cli 0 (-g) 0 := by
    rw [← hcli]
    split
    · simpa using oscFreeGrant_moves P s.cli ((s.obj.ext e).oePages.length - y.oePages.length) g g
    · next hnone =>
      have hzero : g = 0 := by omega
      simpa [hzero] using ClientObd.Moves.refl s.cli
  have hwriters : Writers (s.obj.set e y) s.io := by
    refine h.writers.set hmem (fun hact => ?_) ht.users
    rw [htrunc] at hact
    cases hact
  have hgrants : (s.obj.set e y).dirty + g = s.obj.dirty := by
    have := ht.grants_eq
    omega
  have hend : y.oeEnd ≤ (s.obj.ext e).oeEnd := by
    rw [ht.wf.end_eq, hwf.end_eq]
    exact OscConf.chunkLast_mono ht.hi_le
  have hkept : s.extp ≠ some e := fun hextp => (h.truncs.kept e hextp).2.2.2.1 hin
  -- the counters, whatever becomes of the extent
  have hreserved := hmoves.reserved.trans ((add_zero _).trans h.reserved)
  have hdirty' : cli.clDirtyGrant + ∑ t, (((s.io t).grants : ℤ) - (s.io t).tmp) =
      (s.obj.set e y).dirty := by
    have := h.dirty
    have := hmoves.dirty
    omega
  rcases ht.pages with ⟨hnil, hzero, hsame⟩ | ⟨hpages, -, hbegin⟩
  · -- no page is left: the extent waits to be removed
    refine .keep { s with obj := s.obj.set e y, cli := cli } ?_
      ⟨hright, hwriters, hreserved, hdirty', ?_⟩ (hmoves.total.trans (add_zero _)) rfl
    · rw [hrun]
      simp only [oscTruncate, heq, Option.bind_some, hcli]
      rw [if_pos hnil]
    · refine h.truncs.frame .set ?_ fun hextp => absurd hextp hkept
      intro _
      rw [ext_set_self, hsame]
      exact ⟨.inl ht.state, (h.truncs.marked e hin).2⟩
  · -- only the first of the list can keep pages, and no other has before
    have hextp : s.extp = none := by
      by_contra hsome
      obtain ⟨a, ha⟩ := Option.ne_none_iff_exists'.mp hsome
      obtain ⟨hamem, -, -, hanot, hidx, htail⟩ := h.truncs.kept a ha
      have hne : a ≠ e := fun heq => hanot (heq ▸ hin)
      have hreach := (h.truncs.marked e hin).2
      have ha_le := (h.right.wf a hamem).start_le_end
      rw [htail] at hbegin
      rcases h.right.row.apart hamem hmem hne with hlt | hlt
      · have := (h.right.wf a hamem).end_lt_start hwf hlt
        simp only [Bool.toNat_false] at hbegin
        omega
      · have := hwf.end_lt_start (h.right.wf a hamem) hlt
        omega
    refine .keep { s with
        obj := s.obj.set e y, cli := cli
        truncIndex := y.oeEnd + 1, truncTail := false, truncList := l, extp := some e } ?_
      ⟨hright, hwriters, hreserved, hdirty', ?_⟩ (hmoves.total.trans (add_zero _)) rfl
    · rw [hrun]
      simp only [oscTruncate, heq, Option.bind_some, hcli]
      rw [if_neg hpages, lassert_pos hextp]
    · refine ⟨(sublist_cons_self e l).trans hsub, ?_, ?_⟩
      · intro a ha
        have hne : a ≠ e := fun heq => hnot (heq ▸ ha)
        have hain : a ∈ s.truncList := hlist ▸ mem_cons_of_mem _ ha
        have hamem := h.truncs.sub.subset hain
        have hlt : (s.obj.ext e).oeEnd < (s.obj.ext a).oeStart :=
          rel_of_pairwise_cons (h.right.pages.sublist hsub) ha
        have ha_le := (h.right.wf a hamem).start_le_end
        simp only [ext_set_of_ne hne]
        refine ⟨(h.truncs.marked a hain).1, ?_⟩
        omega
      · intro a ha
        cases ha
        rw [ext_set_self]
        exact ⟨hmem, ht.state, hpages, hnot, rfl, rfl⟩

/-! ## Every run -/

/-- No operation that can happen breaks an assertion, and each keeps the invariant. -/
theorem runsRight (h : s.Inv P) (op : OscOp τ) (hen : s.Enabled P op) : RunsRight P s op := by
  cases op with
  | enterCache t covered m n => exact runsRight_enterCache h covered m n hen
  | find t index maxPages maxExtentPages => exact runsRight_find h index maxPages maxExtentPages hen
  | exitCache t => exact runsRight_exitCache h
  | expand t index maxExtentPages => exact runsRight_expand h index maxExtentPages hen
  | unreserve t => exact runsRight_unreserve h
  | release t maxExtentPages => exact runsRight_release h maxExtentPages hen
  | waitInv t e => exact runsRight_waitInv h hen
  | addPage t p => exact runsRight_addPage h p hen
  | writeback e => exact runsRight_writeback h hen
  | lock e => exact runsRight_lock h hen
  | makeReady e count => exact runsRight_makeReady h count hen
  | finish e sent rc blockBits => exact runsRight_finish h sent rc blockBits hen
  | truncStart index tail => exact runsRight_truncStart h index tail hen
  | truncScan => exact runsRight_truncScan h
  | truncate => exact runsRight_truncate h hen
  | truncRemove => exact runsRight_truncRemove h hen
  | truncEnd => exact runsRight_truncEnd h hen

/-- Nothing is cached and nothing reserved. -/
structure OscState.Fresh (s : OscState τ) : Prop where
  /-- no extents -/
  root : s.obj.ooRoot = []
  /-- no grant of extents -/
  dirty : s.cli.clDirtyGrant = 0
  /-- no grant reserved -/
  reserved : s.cli.clReservedGrant = 0
  /-- no writer has an extent or grant -/
  io : ∀ t, s.io t = ⟨none, 0, 0⟩
  /-- no truncate -/
  list : s.truncList = []
  /-- no extent cut off -/
  extp : s.extp = none

omit [DecidableEq τ] in
theorem OscState.Fresh.inv (h : s.Fresh) : s.Inv P := by
  refine ⟨⟨?_, ?_, ?_⟩, ⟨?_, ?_⟩, ?_, ?_, ?_⟩
  · rw [h.root]
    exact .nil
  · rw [h.root]
    exact forall_mem_nil _
  · rw [h.root]
    exact forall_mem_nil _
  · intro t e he
    rw [h.io t] at he
    cases he
  · rw [h.root]
    exact forall_mem_nil _
  · rw [h.reserved]
    simp [h.io]
  · rw [h.dirty, OscObject.dirty, h.root]
    simp [h.io]
  · rw [h.list, h.extp]
    exact .idle

theorem OscState.Inv.reach {s0 : OscState τ} (h0 : s0.Fresh)
    (h : Reach (oscStep P) (fun _ _ => True) s0 s) : s.Inv P := by
  refine h.invariant (Inv P) h0.inv fun s op s' hinv _ hstep => ?_
  rw [oscStep] at hstep
  split at hstep
  · next hen =>
    obtain ⟨s'', hrun, hinv', -⟩ := runsRight hinv op hen
    cases hrun.symm.trans hstep
    exact hinv'
  · cases hstep

/-- In every state of every run of find, expand, release, truncate and finish, with the reservations
of any number of writers: the extents of the tree have different pages; a cached extent carries the
tax and a chunk size for each of its chunks; the dirty grant of the client is the grant of all
extents, apart from what a writer has taken or got since it made its reservation; whatever can
happen next breaks no assertion about grants, and changes the grant of the client only by what the
server uses of an extent that is finished. -/
theorem osc_extents_right (P : OscConf) {s0 s : OscState τ} (h0 : s0.Fresh)
    (h : Reach (oscStep P) (fun _ _ => True) s0 s) :
    (∀ a ∈ s.obj.ooRoot, ∀ b ∈ s.obj.ooRoot, a ≠ b →
      (s.obj.ext a).oeEnd < (s.obj.ext b).oeStart ∨ (s.obj.ext b).oeEnd < (s.obj.ext a).oeStart) ∧
    (∀ a ∈ s.obj.ooRoot, (s.obj.ext a).oeState = .cache →
      (s.obj.ext a).oeGrants = P.clGrantExtentTax +
        P.chunksize * (P.chunkOf (s.obj.ext a).oeEnd - P.chunkOf (s.obj.ext a).oeStart + 1)) ∧
    s.cli.clDirtyGrant + ∑ t, (((s.io t).grants : ℤ) - (s.io t).tmp) =
      ((s.obj.ooRoot.map fun a => (s.obj.ext a).oeGrants).sum : ℕ) ∧
    ((∀ t, (s.io t).tmp = (s.io t).grants) →
      s.cli.clDirtyGrant = ((s.obj.ooRoot.map fun a => (s.obj.ext a).oeGrants).sum : ℕ)) ∧
    ∀ op, s.Enabled P op → ∃ s', oscStep P s op = some s' ∧
      s'.cli.total = s.cli.total - consumed P s op ∧ 0 ≤ consumed P s op := by
  have hinv := OscState.Inv.reach h0 h
  refine ⟨?_, ?_, hinv.dirty, ?_, ?_⟩
  · intro a ha b hb hne
    have hwfa := hinv.right.wf a ha
    have hwfb := hinv.right.wf b hb
    rcases hinv.right.row.apart ha hb hne with hlt | hlt
    · exact .inl (hwfa.end_lt_start hwfb hlt)
    · exact .inr (hwfb.end_lt_start hwfa hlt)
  · intro a ha hcache
    exact (hinv.right.wf a ha).grants_eq (by simp [hcache])
  · intro hidle
    have hzero : ∑ t, (((s.io t).grants : ℤ) - (s.io t).tmp) = 0 := by
      refine Finset.sum_eq_zero fun t _ => ?_
      rw [hidle t, sub_self]
    have hdirty := hinv.dirty
    rw [hzero, add_zero] at hdirty
    exact hdirty
  · intro op hen
    obtain ⟨s', hrun, -, htotal⟩ := runsRight hinv op hen
    refine ⟨s', (if_pos hen).trans hrun, htotal, ?_⟩
    cases op with
    | finish e sent rc blockBits =>
      obtain ⟨hmem, hstate⟩ := hen
      have htrunc : (s.obj.ext e).oeState ≠ .trunc := by
        rcases hstate with hst | hst
        · simp [hst]
        · simp [hst.1]
      have hle := ((hinv.right.wf e hmem).lostGrant_le sent blockBits htrunc fun hsent =>
        hstate.resolve_right fun hst => by simp [hst.2.1] at hsent).2
      rw [consumed]
      omega
    | _ => exact le_rfl

/-- Pages of 4096 bytes, two to a chunk, and a tax of 1000 bytes. -/
def oscConfTwo : OscConf :=
  { pageShift := 12, clChunkbits := 13, clGrantExtentTax := 1000, cldStart := 0, cldEnd := 1023
    maxBrwPages := 256, shift_le := by decide }

/-- An object without extents, and one writer. -/
def oscStateNew : OscState Unit :=
  { obj := { ext := fun _ => oscExtentInit oscConfTwo 0 256, ooRoot := [], fresh := 0 }
    cli := { clAvailGrant := 100000, clReservedGrant := 0, clDirtyGrant := 0, clLostGrant := 0
             clDirtyPages := 0, obdDirtyPages := 0 }
    io := fun _ => ⟨none, 0, 0⟩
    truncIndex := 0, truncTail := false, truncList := [], extp := none }

/-- A page of a new extent is written. -/
def writePage (index : ℕ) : List (OscOp Unit) :=
  [.enterCache () false 100 100, .find () index 256 256, .unreserve (), .addPage () ⟨index, 4096⟩,
    .release () 256]

/-- Pages 0 and 4 are written, then page 2, which joins the two extents, and the file is cut off at
page 3: what is left is one extent of two chunks. -/
theorem osc_extents_right_joined : ∃ s : OscState Unit,
    s.obj.ooRoot = [0] ∧ (s.obj.ext 0).oeEnd = 3 ∧ s.cli.clDirtyGrant = 17384 ∧
      s.cli.clLostGrant = 8192 ∧
      (∀ a ∈ s.obj.ooRoot, (s.obj.ext a).oeState = .cache →
        (s.obj.ext a).oeGrants = oscConfTwo.clGrantExtentTax + oscConfTwo.chunksize *
          (oscConfTwo.chunkOf (s.obj.ext a).oeEnd - oscConfTwo.chunkOf (s.obj.ext a).oeStart + 1)) := by
  obtain ⟨s, hreach, hroot, hend, hdirty, hlost⟩ :
      ∃ s, Reach (oscStep oscConfTwo) (fun _ _ => True) oscStateNew s ∧ s.obj.ooRoot = [0] ∧
      (s.obj.ext 0).oeEnd = 3 ∧ s.cli.clDirtyGrant = 17384 ∧ s.cli.clLostGrant = 8192 :=
    exists_reach (writePage 0 ++ writePage 4 ++ writePage 2 ++
      [.truncStart 3 false, .truncScan, .truncate, .truncEnd]) (by decide +kernel)
  have hfresh : oscStateNew.Fresh := ⟨rfl, rfl, rfl, fun _ => rfl, rfl, rfl⟩
  exact ⟨s, hroot, hend, hdirty, hlost, (osc_extents_right oscConfTwo hfresh hreach).2.1⟩

end Lustre
