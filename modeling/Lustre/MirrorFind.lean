import Lustre.Word
import Mathlib.Order.Basic

/-!
# Finding a mirror to read from (`liblustreapi_layout.c`)

`llapi_mirror_find` walks once over the components of all mirrors. It takes the mirror of the first
component that is not stale and has the start of the range, and goes on to the end of that
component; from there on only the next component of the same mirror may have the position.

Zero means that there is none, but it is also the mirror id of a file without mirrors, whose
components are therefore not found (`mirrorFind_unmirrored`). Elsewhere the mirror has all bytes up
to the end that is returned (`mirrorFind_covers`).
-/

namespace Lustre

structure LlapiLayoutComp where
  /-- `e_start` of `llc_extent` -/
  eStart : ℕ
  /-- `e_end` of `llc_extent` -/
  eEnd : ℕ
  llcId : BitVec 32
  llcFlags : BitVec 32

namespace LlapiLayoutComp

variable (c : LlapiLayoutComp)

/-- `LCME_FL_STALE` is set. -/
def stale : Bool := c.llcFlags &&& 1 != 0

/-- `mirror_id_of` -/
def mirrorId : ℕ := ((c.llcId &&& 0x7FFF0000) >>> 16).toNat

/-- The component has a byte of the file. -/
def Has (x : ℕ) : Prop := c.eStart ≤ x ∧ x < c.eEnd
  deriving Decidable

end LlapiLayoutComp

/-- The loop of `llapi_mirror_find`, from a component on. -/
def mirrorFindLoop (fileEnd : ℕ) : List LlapiLayoutComp → ℕ → ℕ → ℕ → ℕ × ℕ
  | [], mirrorId, _, endp => (mirrorId, endp)
  | c :: comps, mirrorId, fileStart, endp =>
    if c.stale = true ∨ ¬ c.Has fileStart then
      mirrorFindLoop fileEnd comps mirrorId fileStart endp
    else if mirrorId ≠ 0 ∧ (mirrorId ≠ c.mirrorId ∨ endp ≠ c.eStart) then (mirrorId, endp)
    else
      let mirrorId := if mirrorId = 0 then c.mirrorId else mirrorId
      if fileEnd ≤ c.eEnd then (mirrorId, c.eEnd)
      else mirrorFindLoop fileEnd comps mirrorId c.eEnd c.eEnd

/-- `llapi_mirror_find` on the components of a composite layout, which has at least one: the mirror
id and `*endp`. -/
def llapiMirrorFind (comps : List LlapiLayoutComp) (fileStart fileEnd : ℕ) : ℕ × ℕ :=
  mirrorFindLoop fileEnd comps 0 fileStart 0

variable {comps : List LlapiLayoutComp} {id start fileEnd : ℕ}

/-- The bytes from `start` on and before `stop` are in components of the mirror that are not
stale. -/
def MirrorCovers (comps : List LlapiLayoutComp) (id start stop : ℕ) : Prop :=
  ∀ x, start ≤ x → x < stop → ∃ c ∈ comps, c.stale = false ∧ c.mirrorId = id ∧ c.Has x

theorem MirrorCovers.add {pos : ℕ} {c : LlapiLayoutComp} (h : MirrorCovers comps id start pos)
    (hc : c ∈ comps) (hstale : c.stale = false) (hid : c.mirrorId = id) (hhas : c.Has pos) :
    MirrorCovers comps id start c.eEnd := by
  intro x hx hlt
  by_cases hxp : x < pos
  · exact h x hx hxp
  · exact ⟨c, hc, hstale, hid, hhas.1.trans (not_lt.mp hxp), hlt⟩

/-- A mirror that has been taken stays the one, and covers what is found. -/
theorem mirrorFindLoop_taken (hid : id ≠ 0) (l : List LlapiLayoutComp) (hl : l ⊆ comps) {pos : ℕ}
    (hlt : start < pos) (h : MirrorCovers comps id start pos) :
    ∃ stop, mirrorFindLoop fileEnd l id pos pos = (id, stop) ∧ start < stop ∧
      MirrorCovers comps id start stop := by
  induction l generalizing pos with
  | nil => exact ⟨pos, rfl, hlt, h⟩
  | cons c l ih =>
    obtain ⟨hc, hl⟩ := List.cons_subset.mp hl
    simp only [mirrorFindLoop, if_neg hid]
    split
    · exact ih hl hlt h
    next hhas =>
    split
    · exact ⟨pos, rfl, hlt, h⟩
    next hsame =>
    simp only [not_or, not_not, Bool.not_eq_true, not_and, ne_eq] at hhas hsame
    have hadd := h.add hc hhas.1 (hsame hid).1.symm hhas.2
    have hend : start < c.eEnd := hlt.trans hhas.2.2
    split
    · exact ⟨c.eEnd, rfl, hend, hadd⟩
    · exact ih hl hend hadd

/-- Where every mirror has an id, the mirror that is returned has all bytes up to the end that is
returned in components that are not stale, and where none is returned no such component has the
start. -/
theorem mirrorFind_covers (hid : ∀ c ∈ comps, c.mirrorId ≠ 0) (start fileEnd : ℕ) :
    let (id, endp) := llapiMirrorFind comps start fileEnd
    (id ≠ 0 → start < endp ∧ MirrorCovers comps id start endp) ∧
      (id = 0 → ∀ c ∈ comps, c.stale = false → ¬ c.Has start) := by
  -- Over what is left of the list: the components before did not have the start.
  suffices hloop : ∀ l ⊆ comps, ∀ r, mirrorFindLoop fileEnd l 0 start 0 = r →
      (r.1 ≠ 0 → start < r.2 ∧ MirrorCovers comps r.1 start r.2) ∧
        (r.1 = 0 → ∀ c ∈ l, c.stale = false → ¬ c.Has start) from
    hloop comps (List.Subset.refl _) _ rfl
  intro l hl
  induction l with
  | nil => rintro r rfl; exact ⟨fun hne => absurd rfl hne, fun _ => List.forall_mem_nil _⟩
  | cons c l ih =>
    rintro r rfl
    obtain ⟨hc, hl⟩ := List.cons_subset.mp hl
    rw [mirrorFindLoop]
    split
    · next hskip =>
      refine (ih hl _ rfl).imp_right fun hnone hzero => List.forall_mem_cons.mpr ⟨?_, hnone hzero⟩
      intro hstale
      exact hskip.resolve_left (by simp [hstale])
    next hhas =>
    simp only [not_or, not_not, Bool.not_eq_true] at hhas
    have hend : start < c.eEnd := hhas.2.2
    have hadd : MirrorCovers comps c.mirrorId start c.eEnd :=
      MirrorCovers.add (fun x hx hlt => absurd hx (not_le.mpr hlt)) hc hhas.1 rfl hhas.2
    simp only [ne_eq, not_true, false_and, if_false, if_true]
    split
    · exact ⟨fun _ => ⟨hend, hadd⟩, fun hzero => absurd hzero (hid c hc)⟩
    · obtain ⟨stop, heq, hcovers⟩ := mirrorFindLoop_taken (hid c hc) l hl hend hadd
      rw [heq]
      exact ⟨fun _ => hcovers, fun hzero => absurd hzero (hid c hc)⟩

/-- The first component of one mirror is fresh, its second one and the other mirror are stale. -/
theorem mirrorFind_covers_stale :
    MirrorCovers [⟨0, 100, 0x10001, 0⟩, ⟨100, 200, 0x10002, 1⟩, ⟨0, 200, 0x20003, 1⟩] 1 50 100 :=
  ((mirrorFind_covers (by decide) 50 150).1 (by decide)).2

/-- The only component of a file without mirrors has the start, but none is found. -/
theorem mirrorFind_unmirrored :
    let c : LlapiLayoutComp := ⟨0, obdObjectEof, 1, 0⟩
    c.stale = false ∧ c.Has 0 ∧ (llapiMirrorFind [c] 0 100).1 = 0 := by
  decide

end Lustre
