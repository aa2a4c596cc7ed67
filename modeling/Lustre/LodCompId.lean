import Lustre.Run
import Mathlib.Data.Nat.Bitwise

/-!
# The ids of layout components (`lod_object.c`)

A new component of a mirror gets the layout generation as the sequence part of its id. As long as
the generation fits, no two components get the same (`LodObject.SeqLe`). Above that
`lod_gen_component_id` looks for an unused id from the low bits of the generation on. It does not
look at the ids before: the test for it compares the end of the search with the largest id of
another width (`lodComp_id_right`).
-/

namespace Lustre

open List

/-- `LCME_ID_MAX`, also `LCME_ID_MASK` -/
def lcmeIdMax : ℕ := 0x7FFFFFFF

def lcmeIdInval : ℕ := 0

/-- `SEQ_ID_MAX`, also `SEQ_ID_MASK` -/
def seqIdMax : ℕ := 0xFFFF

def pflrId (mirrorId seqid : ℕ) : ℕ :=
  ((mirrorId % 2 ^ 16) <<< 16 &&& 0x7FFF0000) ||| seqid % 2 ^ 16

structure LodObject where
  ldoLayoutGen : BitVec 32
  /-- `llc_id` of `ldo_comp_entries` -/
  llcId : List ℕ

/-- `lod_obj_inc_layout_gen`: the highest bit stays when the generation wraps. -/
def lodObjIncLayoutGen (gen : BitVec 32) : BitVec 32 :=
  let preserve := gen &&& ~~~BitVec.ofNat 32 lcmeIdMax
  let gen := (gen + 1) ||| preserve
  if gen &&& BitVec.ofNat 32 lcmeIdMax = 0 then gen + 1 else gen

/-- The first id from `start` to `stop` that no component of the mirror has. -/
def lodUnusedId (ids : List ℕ) (mirrorId start stop : ℕ) : Option ℕ :=
  (range' start (stop + 1 - start)).find? fun id => pflrId mirrorId id ∉ ids

/-- `lod_gen_component_id` with the layout generation that is incremented already. -/
def lodGenComponentId (gen : ℕ) (ids : List ℕ) (mirrorId : ℕ) : ℕ :=
  if gen ≤ seqIdMax then pflrId mirrorId (gen &&& seqIdMax)
  else
    ((lodUnusedId ids mirrorId (gen &&& seqIdMax) seqIdMax).or <|
      if seqIdMax = lcmeIdMax then
        lodUnusedId ids mirrorId 1 (min (gen &&& lcmeIdMax) (lcmeIdMax - 1))
      else none).elim lcmeIdInval (pflrId mirrorId)

/-- What happens to the components of a layout. -/
inductive LodCompOp where
  /-- a new one, without an id -/
  | create
  | generate (compIdx mirrorId : ℕ)
  | delete (compIdx : ℕ)
  /-- the layout changes in another way -/
  | change
  deriving DecidableEq

variable (lo : LodObject) (mirrorId : ℕ)

/-- One step of a layout. -/
def lodCompStep : LodCompOp → Option LodObject
  | .create => some { lo with llcId := lo.llcId ++ [lcmeIdInval] }
  | .generate compIdx mirrorId =>
    let gen := lodObjIncLayoutGen lo.ldoLayoutGen
    lassert (lo.llcId[compIdx]? = some lcmeIdInval) <|
      some ⟨gen, lo.llcId.set compIdx (lodGenComponentId gen.toNat lo.llcId mirrorId)⟩
  | .delete compIdx => some { lo with llcId := lo.llcId.eraseIdx compIdx }
  | .change => some { lo with ldoLayoutGen := lodObjIncLayoutGen lo.ldoLayoutGen }

namespace LodObject

/-- The generation of the next component. -/
def nextGen : ℕ := (lodObjIncLayoutGen lo.ldoLayoutGen).toNat

/-- The next id of a component of the mirror has a sequence part and is no other one's. -/
def NewIdRight : Prop :=
  let id := lodGenComponentId lo.nextGen lo.llcId mirrorId
  id ≠ lcmeIdInval ∧ id &&& seqIdMax ≠ 0 ∧ id ∉ lo.llcId

/-- The generation fits, or there is an unused id from its low bits on and the first is not zero. -/
def NewIdSpared : Prop :=
  lo.nextGen ≤ seqIdMax ∨ (lo.nextGen &&& seqIdMax ≠ 0 ∨ pflrId mirrorId 0 ∈ lo.llcId) ∧
    ∃ id, lo.nextGen &&& seqIdMax ≤ id ∧ id ≤ seqIdMax ∧ pflrId mirrorId id ∉ lo.llcId

/-- As long as the generation fits, no id is ahead of it. -/
def SeqLe : Prop :=
  lo.ldoLayoutGen.toNat ≤ seqIdMax → ∀ id ∈ lo.llcId, id &&& seqIdMax ≤ lo.ldoLayoutGen.toNat

end LodObject

open LodObject

theorem and_seqIdMax (n : ℕ) : n &&& seqIdMax = n % 2 ^ 16 := Nat.and_two_pow_sub_one_eq_mod n 16

theorem pflrId_seq (seqid : ℕ) : pflrId mirrorId seqid &&& seqIdMax = seqid % 2 ^ 16 := by
  have hmask : 0x7FFF0000 &&& seqIdMax = 0 := rfl
  rw [pflrId, Nat.and_or_distrib_right, Nat.and_assoc, hmask, Nat.and_zero, Nat.zero_or,
    and_seqIdMax, Nat.mod_mod]

variable {lo : LodObject} {mirrorId}

/-- A generation that fits is ahead of the one before. -/
theorem lt_nextGen (h : lo.nextGen ≤ seqIdMax) : lo.ldoLayoutGen.toNat < lo.nextGen := by
  rw [nextGen, lodObjIncLayoutGen] at *
  generalize lo.ldoLayoutGen = gen at *
  have hhigh : (gen &&& ~~~BitVec.ofNat 32 lcmeIdMax).toNat = gen.toNat / 2 ^ 31 % 2 * 2 ^ 31 := by
    rw [BitVec.toNat_and, ← Nat.toNat_testBit, ← Nat.and_two_pow]
    rfl
  have hnext : (gen + 1).toNat = (gen.toNat + 1) % 2 ^ 32 := BitVec.toNat_add gen 1
  have hleft := @Nat.left_le_or (gen + 1).toNat (gen &&& ~~~BitVec.ofNat 32 lcmeIdMax).toNat
  have hright := @Nat.right_le_or (gen + 1).toNat (gen &&& ~~~BitVec.ofNat 32 lcmeIdMax).toNat
  rw [← BitVec.toNat_or] at hleft hright
  generalize (gen + 1) ||| gen &&& ~~~BitVec.ofNat 32 lcmeIdMax = g at *
  rw [seqIdMax] at h
  split at h
  · next hz =>
    have hz := congrArg BitVec.toNat hz
    have hmod : g.toNat % 2 ^ 31 = 0 := (Nat.and_two_pow_sub_one_eq_mod ..).symm.trans hz
    have hsucc : (g + 1).toNat = (g.toNat + 1) % 2 ^ 32 := BitVec.toNat_add g 1
    omega
  · next hz =>
    rw [if_neg hz]
    omega

theorem LodObject.SeqLe.step (h : lo.SeqLe) {op : LodCompOp} {lo' : LodObject}
    (hs : lodCompStep lo op = some lo') : lo'.SeqLe := by
  have hgen : lo.nextGen ≤ seqIdMax → ∀ id ∈ lo.llcId, id &&& seqIdMax ≤ lo.nextGen := by
    intro hle id hid
    have hnext := lt_nextGen hle
    have hid' := h (by omega) id hid
    omega
  cases op with
  | create =>
    cases hs
    exact fun hle => forall_mem_append.mpr ⟨h hle, forall_mem_singleton.mpr (Nat.zero_le _)⟩
  | generate compIdx mirrorId =>
    obtain ⟨-, hs⟩ := of_lassert hs
    cases hs
    intro hle id hid
    rcases mem_or_eq_of_mem_set hid with hid | rfl
    · exact hgen hle id hid
    · rw [lodGenComponentId, if_pos hle, pflrId_seq]
      exact (Nat.mod_le _ _).trans Nat.and_le_left
  | delete compIdx =>
    cases hs
    exact fun hle id hid => h hle id (mem_of_mem_eraseIdx hid)
  | change =>
    cases hs
    exact hgen

/-- In every layout that is made by creating and deleting components, the next id is right exactly
when the condition holds. -/
theorem lodComp_id_right {gen : BitVec 32}
    (hrun : Reach lodCompStep (fun _ _ => True) ⟨gen, []⟩ lo) (mirrorId : ℕ) :
    lo.NewIdRight mirrorId ↔ lo.NewIdSpared mirrorId := by
  have hseq : lo.SeqLe :=
    hrun.invariant SeqLe (fun _ => forall_mem_nil _) fun _ _ _ h _ hs => h.step hs
  have hinval : ∀ id, id &&& seqIdMax ≠ 0 → id ≠ lcmeIdInval := fun id hne hz => hne (hz ▸ rfl)
  rw [NewIdRight, NewIdSpared, lodGenComponentId]
  split
  · next hle =>
    have hnext := lt_nextGen hle
    have hid : pflrId mirrorId (lo.nextGen &&& seqIdMax) &&& seqIdMax = lo.nextGen := by
      rw [pflrId_seq, and_seqIdMax, Nat.mod_mod]
      exact Nat.mod_eq_of_lt (Nat.lt_succ_of_le hle)
    refine iff_of_true ⟨hinval _ (by omega), by omega, fun hmem => ?_⟩ (.inl hle)
    have hold := hseq (by omega) _ hmem
    omega
  · next hgt =>
    have hwidth : seqIdMax ≠ lcmeIdMax := by decide
    rw [if_neg hwidth, Option.or_none]
    cases hfind : lodUnusedId lo.llcId mirrorId (lo.nextGen &&& seqIdMax) seqIdMax with
    | none =>
      refine iff_of_false (fun h => h.1 rfl) ?_
      rintro (hle | ⟨-, id, hstart, hstop, hfree⟩)
      · exact hgt hle
      · exact hfree (by simpa using find?_range'_eq_none.mp hfind id hstart (by omega))
    | some id =>
      obtain ⟨hfree, hmem, hbefore⟩ := find?_range'_eq_some.mp hfind
      rw [mem_range'_1] at hmem
      obtain ⟨hstart, hlt⟩ := hmem
      have hstop : id ≤ seqIdMax := by omega
      have hfree := of_decide_eq_true hfree
      have hid : pflrId mirrorId id &&& seqIdMax = id :=
        (pflrId_seq ..).trans (Nat.mod_eq_of_lt (Nat.lt_succ_of_le hstop))
      rw [Option.elim_some, hid]
      constructor
      · rintro ⟨-, hne, -⟩
        refine .inr ⟨?_, id, hstart, hstop, hfree⟩
        by_contra hno
        rw [not_or, not_not] at hno
        exact hno.2 (by simpa using hbefore 0 hno.1.le (Nat.pos_of_ne_zero hne))
      · intro hspared
        obtain ⟨hzero, -⟩ := hspared.resolve_left hgt
        have hne : id ≠ 0 := by
          rintro rfl
          exact hzero.elim (fun h => h (Nat.le_zero.mp hstart)) hfree
        exact ⟨hinval _ (hid.symm ▸ hne), hne, hfree⟩

/-- The third component of a mirror, whose layout has the generation 2, gets an id. -/
theorem lodComp_id_right_three : ∃ lo, Reach lodCompStep (fun _ _ => True) ⟨0, []⟩ lo ∧
    lo.llcId = [0x10001, 0x10002, 0] ∧ lo.NewIdRight 1 := by
  obtain ⟨lo, hreach, hgen, hids⟩ : ∃ lo, Reach lodCompStep (fun _ _ => True) ⟨0, []⟩ lo ∧
      lo.nextGen = 3 ∧ lo.llcId = [0x10001, 0x10002, 0] :=
    exists_reach [.create, .generate 0 1, .create, .generate 1 1, .create] (by decide +kernel)
  refine ⟨lo, hreach, hids, (lodComp_id_right hreach 1).mpr (.inl ?_)⟩
  rw [hgen]
  decide

/-- At the generation `0x10000` a component of mirror 1 gets an id without a sequence part. -/
theorem lodComp_id_zero : ¬ ∀ (gen : BitVec 32) (lo : LodObject) (mirrorId : ℕ),
    Reach lodCompStep (fun _ _ => True) ⟨gen, []⟩ lo → lo.llcId.length < 65535 →
      lo.NewIdRight mirrorId := by
  intro hall
  have hreach : Reach lodCompStep (fun _ _ => True) ⟨0xFFFF, []⟩ ⟨0xFFFF, [0]⟩ :=
    .step .create .start trivial rfl
  exact (hall _ _ 1 hreach (by decide)).2.1 (by decide)

end Lustre
