import Lustre.LdlmExtent

/-!
# The known minimum size after a cancel (`ldlm_extent.c`)

A lock on the bytes up to `e` protects a known minimum size of `e + 1` bytes. When a client
cancels a lock, `ldlm_extent_shift_kms` looks for the largest size the other locks protect. It goes
through the trees of all modes, backwards in each, and stops early in three ways: at a lock that
reaches the old size, after the first lock of the `PW` tree, and before a tree whose
`in_max_high` is not above the size known so far. The last test compares a size with an end.

The scan of one tree finds the largest end in it (`kmsScan_eq`, `Inv.shiftTree`). The loop over
the trees is then a walk over pairs of ends (`passTrees`), and `kmsLost` tells when the walk
has gone past the largest end without counting it (`passTrees_eq`).
-/

namespace Lustre

open BinaryTree (fromSide)
open IntervalExtent

/-! ## The model -/

structure LdlmKmsShiftArgs where
  oldKms : ℕ
  kms : ℕ
  complete : Bool
  deriving DecidableEq

variable (res : ExtentResource)

def ldlmKmsShiftCb (arg : LdlmKmsShiftArgs) (n : ℕ) : Option (LdlmKmsShiftArgs × IntervalIter) :=
  match (res.liGroup n).find? fun l => !(res.lock l).kmsIgnore with
  -- no lock in this interval without `kms_ignore`
  | none => some (arg, .cont)
  | some l =>
    let lk := res.lock l
    if arg.oldKms ≤ lk.lExtent.stop then
      some ({ arg with kms := arg.oldKms, complete := true }, .stop)
    else
      let kms := if arg.kms < u64 (lk.lExtent.stop + 1) then u64 (lk.lExtent.stop + 1) else arg.kms
      some ({ arg with kms := kms }, if lk.lGrantedMode = .pw then .stop else .cont)

/-- The loop of `ldlm_extent_shift_kms` over the trees. -/
def ldlmExtentShiftKmsLoop (res : ExtentResource) :
    List LdlmMode → LdlmKmsShiftArgs → Option LdlmKmsShiftArgs
  | [], arg => some arg
  | mode :: modes, arg =>
    let tree := (res.lrItree mode).litRoot
    match tree.root with
    | none => ldlmExtentShiftKmsLoop res modes arg
    | some root =>
      if (tree.node root).inMaxHigh ≤ arg.kms then ldlmExtentShiftKmsLoop res modes arg
      else do
        let (arg, _) ← intervalIterateReverse (ldlmKmsShiftCb res) res.fuel tree arg
        if arg.complete then return arg
        ldlmExtentShiftKmsLoop res modes arg

/-- `ldlm_extent_shift_kms`: the new size, and the resource with the lock marked. -/
def ldlmExtentShiftKms (l oldKms : ℕ) : Option (ℕ × ExtentResource) := do
  let res := ldlmSetKmsIgnore res l
  let arg ← ldlmExtentShiftKmsLoop res itreeModes ⟨oldKms, 0, false⟩
  lassert (arg.kms ≤ arg.oldKms) (some (arg.kms, res))

/-! ## What the size should be -/

/-- The locks that count when `l` is cancelled. -/
def ExtentResource.counted (l : ℕ) : List ℕ :=
  res.lrGranted.filter fun k => k ≠ l ∧ (res.lock k).kmsIgnore = false

/-- The ends of some locks. -/
def ExtentResource.ends (locks : List ℕ) : List ℕ :=
  locks.map fun k => (res.lock k).lExtent.stop

/-- The size that the other locks protect, but not more than before. -/
def kmsOf (l oldKms : ℕ) : ℕ :=
  if ∃ e ∈ res.ends (res.counted l), oldKms ≤ e then oldKms
  else ((res.ends (res.counted l)).map (· + 1)).foldr max 0

/-- The locks of a mode. -/
def ExtentResource.ofMode (mode : LdlmMode) (locks : List ℕ) : List ℕ :=
  locks.filter fun k => (res.lock k).lGrantedMode = mode

/-- The largest end in the tree of a mode, and the largest one that counts. -/
def ExtentResource.tops (l : ℕ) (mode : LdlmMode) : Option ℕ × Option ℕ :=
  ((res.ends (res.ofMode mode res.lrGranted)).max?,
    (res.ends (res.ofMode mode (res.counted l))).max?)

/-- One tree more: the largest end `m` that counts so far, and whether it is lost, because the size
was already `m` when its tree was met and the tree has no later end. -/
def kmsLost : Option ℕ × Bool → Option ℕ × Option ℕ → Option ℕ × Bool
  | (m, lost), (_, none) => (m, lost)
  | (none, _), (high, some t) => (some t, decide (t = 0 ∧ high = some 0))
  | (some m, lost), (high, some t) =>
    if t < m then (some m, lost)
    else if t = m then (some m, lost && decide (high = some m))
    else (some t, !lost && decide (t = m + 1 ∧ high = some t))

/-- The largest end that counts is lost. -/
def KmsLost (l : ℕ) : Prop :=
  ((itreeModes.map (res.tops l)).foldl kmsLost (none, false)).2 = true
  deriving Decidable

/-- The granted `PW` locks do not overlap. -/
def ExtentResource.PwDisjoint : Prop :=
  ∀ a ∈ res.lrGranted, ∀ b ∈ res.lrGranted, a ≠ b → (res.lock a).lGrantedMode = .pw →
    (res.lock b).lGrantedMode = .pw → (res.lock a).lExtent.stop < (res.lock b).lExtent.start ∨
      (res.lock b).lExtent.stop < (res.lock a).lExtent.start
  deriving Decidable

/-! ## The walk over the trees, by their ends -/

/-- The loop over the trees, when each has the largest end `high` and the largest one that counts
`top`. -/
def passTrees (oldKms : ℕ) : List (Option ℕ × Option ℕ) → ℕ → ℕ
  | [], kms => kms
  | (_, none) :: ts, kms => passTrees oldKms ts kms
  | (high, some t) :: ts, kms =>
    if high.getD 0 ≤ kms then passTrees oldKms ts kms
    else if oldKms ≤ t then oldKms
    else passTrees oldKms ts (max kms (t + 1))

/-- What counts is in the tree. -/
def TopsOk (ts : List (Option ℕ × Option ℕ)) : Prop :=
  ∀ p ∈ ts, ∀ t ∈ p.2, ∃ high ∈ p.1, t ≤ high

open List

section Walk

variable {oldKms kms : ℕ} {ts : List (Option ℕ × Option ℕ)}

/-- The size does not fall and never exceeds the old one, and a lock that reaches the old size is
found: where its tree is passed over, the size is the old one already. -/
theorem passTrees_spec (hok : TopsOk ts) (h : kms ≤ oldKms) :
    kms ≤ passTrees oldKms ts kms ∧ passTrees oldKms ts kms ≤ oldKms ∧
      ∀ p ∈ ts, ∀ t ∈ p.2, oldKms ≤ t → passTrees oldKms ts kms = oldKms := by
  induction ts generalizing kms with
  | nil => exact ⟨le_rfl, h, forall_mem_nil _⟩
  | cons p ts ih =>
    obtain ⟨hhead, hrest⟩ := forall_mem_cons.mp hok
    obtain ⟨high, top⟩ := p
    rw [forall_mem_cons]
    cases top with
    | none =>
      obtain ⟨hge, hle, hfound⟩ := ih hrest h
      exact ⟨hge, hle, nofun, hfound⟩
    | some t =>
      obtain ⟨high, rfl, hth⟩ := hhead t rfl
      rw [passTrees, Option.getD_some]
      split
      · obtain ⟨hge, hle, hfound⟩ := ih hrest h
        refine ⟨hge, hle, ?_, hfound⟩
        rintro _ ⟨⟩ hreach
        omega
      · split
        · exact ⟨h, le_rfl, fun _ _ _ => rfl, fun _ _ _ _ _ => rfl⟩
        · next hlt =>
          obtain ⟨hge, hle, hfound⟩ := ih hrest (by omega : max kms (t + 1) ≤ oldKms)
          refine ⟨(Nat.le_max_left _ _).trans hge, hle, ?_, hfound⟩
          rintro _ ⟨⟩ hreach
          exact absurd hreach hlt

/-- The size after trees with the largest end `m`. -/
def kmsReached : Option ℕ × Bool → ℕ
  | (none, _) => 0
  | (some m, lost) => if lost then m else m + 1

theorem kmsReached_step {high t : ℕ} (hle : t ≤ high) (st : Option ℕ × Bool) :
    (if high ≤ kmsReached st then kmsReached st else max (kmsReached st) (t + 1)) =
      kmsReached (kmsLost st (some high, some t)) := by
  obtain ⟨m, lost⟩ := st
  cases m with
  | none =>
    simp only [kmsLost, kmsReached]
    grind
  | some m =>
    rw [kmsLost]
    cases lost <;> simp only [kmsReached] <;> grind [kmsReached]

/-- Below the old size the walk finds the largest end, or misses it by one. -/
theorem passTrees_eq (hok : TopsOk ts) (hlt : ∀ p ∈ ts, ∀ t ∈ p.2, t < oldKms)
    (st : Option ℕ × Bool) :
    passTrees oldKms ts (kmsReached st) = kmsReached (ts.foldl kmsLost st) := by
  induction ts generalizing st with
  | nil => rfl
  | cons p ts ih =>
    have hrest := ih (forall_mem_cons.mp hok).2
      (forall_mem_cons.mp hlt).2
    have hok := hok p mem_cons_self
    have hlt := hlt p mem_cons_self
    rw [foldl_cons, ← hrest]
    obtain ⟨high, top⟩ := p
    cases top with
    | none => rfl
    | some t =>
      obtain ⟨high, rfl, hle⟩ := hok t rfl
      have hold : ¬oldKms ≤ t := not_le.mpr (hlt t rfl)
      rw [passTrees, Option.getD_some, if_neg hold, ← kmsReached_step hle]
      split
      · rfl
      · rfl

/-- The size that an end protects, none for no end. -/
def sizeAt (top : Option ℕ) : ℕ := top.elim 0 (· + 1)

theorem foldr_max_le {l : List ℕ} {x : ℕ} : l.foldr max 0 ≤ x ↔ ∀ a ∈ l, a ≤ x := by
  induction l with
  | nil => simp
  | cons a l ih => rw [foldr_cons, Nat.max_le, ih, forall_mem_cons]

theorem sizeAt_max_le {l : List ℕ} {x : ℕ} : sizeAt l.max? ≤ x ↔ ∀ e ∈ l, e + 1 ≤ x := by
  cases hmax : l.max? with
  | none =>
    rw [max?_eq_none_iff.mp hmax]
    simp [sizeAt]
  | some m =>
    obtain ⟨hm, hle⟩ := max?_eq_some_iff.mp hmax
    constructor
    · intro hx e he
      exact le_trans (Nat.succ_le_succ (hle e he)) hx
    · exact fun hall => hall m hm

theorem sizeAt_kmsLost (st : Option ℕ × Bool) (p : Option ℕ × Option ℕ) :
    sizeAt (kmsLost st p).1 = max (sizeAt st.1) (sizeAt p.2) := by
  obtain ⟨m, lost⟩ := st
  obtain ⟨high, top⟩ := p
  cases top with
  | none => cases m <;> simp [kmsLost, sizeAt]
  | some t =>
    cases m with
    | none => simp [kmsLost, sizeAt]
    | some m =>
      rw [kmsLost]
      split_ifs
      all_goals
        simp only [sizeAt, Option.elim_some]
        omega

/-- Lost or not, the walk keeps the largest end. -/
theorem sizeAt_foldl_le {x : ℕ} (st : Option ℕ × Bool) :
    sizeAt (ts.foldl kmsLost st).1 ≤ x ↔ sizeAt st.1 ≤ x ∧ ∀ p ∈ ts, sizeAt p.2 ≤ x := by
  induction ts generalizing st with
  | nil => simp
  | cons p ts ih =>
    rw [foldl_cons, ih, sizeAt_kmsLost, Nat.max_le, forall_mem_cons, and_assoc]

theorem foldl_kmsLost_none {st : Option ℕ × Bool} (hst : st.1 = none → st.2 = false)
    (h : (ts.foldl kmsLost st).1 = none) : (ts.foldl kmsLost st).2 = false := by
  induction ts generalizing st with
  | nil => exact hst h
  | cons p ts ih =>
    refine ih (fun hnone => ?_) h
    obtain ⟨m, lost⟩ := st
    obtain ⟨high, top⟩ := p
    cases top with
    | none =>
      rw [kmsLost] at hnone ⊢
      exact hst hnone
    | some t =>
      have hsize := sizeAt_kmsLost (m, lost) (high, some t)
      rw [hnone] at hsize
      simp [sizeAt] at hsize
      omega

/-- The walk is right unless the largest end is lost. -/
theorem kmsReached_eq_iff {st : Option ℕ × Bool} (hst : st.1 = none → st.2 = false) :
    kmsReached st = sizeAt st.1 ↔ ¬st.2 = true := by
  obtain ⟨m, lost⟩ := st
  cases m with
  | none =>
    have hlost : lost = false := hst rfl
    simp [kmsReached, sizeAt, hlost]
  | some m => cases lost <;> simp [kmsReached, sizeAt]

end Walk

/-! ## The scan of one tree -/

/-- The callback on one end after the other; `pw` says that the first one is enough. -/
def kmsScan (pw : Bool) (arg : LdlmKmsShiftArgs) : List ℕ → LdlmKmsShiftArgs
  | [] => arg
  | e :: es =>
    if arg.oldKms ≤ e then { arg with kms := arg.oldKms, complete := true }
    else if pw then { arg with kms := max arg.kms (e + 1) }
    else kmsScan pw { arg with kms := max arg.kms (e + 1) } es

section Scan

variable {pw : Bool} {arg : LdlmKmsShiftArgs} {es : List ℕ} {t : ℕ}

theorem kmsScan_of_lt (h : ∀ e ∈ es, e < arg.oldKms ∧ e + 1 ≤ arg.kms) : kmsScan pw arg es = arg := by
  induction es with
  | nil => rfl
  | cons e es ih =>
    obtain ⟨hlt, hle⟩ := h e mem_cons_self
    have hsame : ({ arg with kms := max arg.kms (e + 1) } : LdlmKmsShiftArgs) = arg := by
      rw [Nat.max_eq_left hle]
    rw [kmsScan, if_neg (not_le.mpr hlt), hsame, ih (forall_mem_cons.mp h).2,
      ite_self]

theorem kmsScan_eq (ht : t ∈ es) (hmax : ∀ e ∈ es, e ≤ t)
    (hpw : pw = true → es.Pairwise fun a b => b ≤ a) :
    kmsScan pw arg es = if arg.oldKms ≤ t then { arg with kms := arg.oldKms, complete := true }
      else { arg with kms := max arg.kms (t + 1) } := by
  induction es generalizing arg with
  | nil => exact absurd ht not_mem_nil
  | cons e es ih =>
    have het := hmax e mem_cons_self
    have hrest : ∀ a ∈ es, a ≤ t := (forall_mem_cons.mp hmax).2
    rw [kmsScan]
    by_cases he : arg.oldKms ≤ e
    · rw [if_pos he, if_pos (he.trans het)]
    rw [if_neg he]
    by_cases hfirst : pw = true
    · -- the first one is the largest
      have hte : t ≤ e := by
        rcases mem_cons.mp ht with rfl | ht
        · exact le_rfl
        · exact (pairwise_cons.mp (hpw hfirst)).1 t ht
      obtain rfl : e = t := le_antisymm het hte
      rw [if_pos hfirst, if_neg he]
    · rw [if_neg hfirst]
      by_cases hin : t ∈ es
      · rw [ih hin hrest fun hp => absurd hp hfirst]
        split
        · rfl
        · have hkms : max (max arg.kms (e + 1)) (t + 1) = max arg.kms (t + 1) := by omega
          rw [hkms]
      · obtain rfl : t = e := (mem_cons.mp ht).resolve_right hin
        rw [if_neg he]
        refine kmsScan_of_lt fun a ha => ?_
        have := hrest a ha
        dsimp only
        omega

end Scan

section Tree

variable {res : ExtentResource} {trees : LdlmMode → CellTree} {mode : LdlmMode} {n l : ℕ}
  {arg : LdlmKmsShiftArgs}

/-- The end of a node with a lock that counts. -/
def ExtentResource.nodeEnd (res : ExtentResource) (mode : LdlmMode) (n : ℕ) : Option ℕ :=
  if (res.liGroup n).any fun l => !(res.lock l).kmsIgnore then
    some ((res.lrItree mode).litRoot.node n).inExtent.stop
  else none

namespace ExtentResource

theorem Inv.shiftCb (h : res.Inv trees) (hn : n ∈ ids (trees mode)) (hold : arg.oldKms ≤ obdObjectEof) :
    (res.nodeEnd mode n = none ∧ ldlmKmsShiftCb res arg n = some (arg, .cont)) ∨
    ∃ e, res.nodeEnd mode n = some e ∧ ldlmKmsShiftCb res arg n =
      if arg.oldKms ≤ e then some ({ arg with kms := arg.oldKms, complete := true }, .stop)
      else some ({ arg with kms := max arg.kms (e + 1) }, if mode = .pw then .stop else .cont) := by
  rw [nodeEnd, ldlmKmsShiftCb]
  cases hfind : (res.liGroup n).find? fun l => !(res.lock l).kmsIgnore with
  | none =>
    refine .inl ⟨if_neg ?_, rfl⟩
    rw [any_eq_true]
    rintro ⟨l, hl, hopen⟩
    exact find?_eq_none.mp hfind l hl hopen
  | some l =>
    have hl := mem_of_find?_eq_some hfind
    have hkept : (!(res.lock l).kmsIgnore) = true := by simpa using find?_some hfind
    have hopen : ((res.liGroup n).any fun l => !(res.lock l).kmsIgnore) = true :=
      any_eq_true.mpr ⟨l, hl, hkept⟩
    obtain ⟨-, hmode, hin⟩ := h.of_group hn hl
    have hext := hin.extent
    rw [hmode] at hext
    have hstop : ((res.lrItree mode).litRoot.node n).inExtent.stop = (res.lock l).lExtent.stop :=
      congrArg stop hext
    refine .inr ⟨_, (if_pos hopen).trans (congrArg some hstop), ?_⟩
    dsimp only
    rw [hin.mode, hmode]
    by_cases hlt : arg.oldKms ≤ (res.lock l).lExtent.stop
    · rw [if_pos hlt, if_pos hlt]
    · have hsmall : u64 ((res.lock l).lExtent.stop + 1) = (res.lock l).lExtent.stop + 1 := by
        refine u64_of_lt ?_
        rw [obdObjectEof] at hold
        omega
      rw [hsmall]
      have hmaxeq : (if arg.kms < (res.lock l).lExtent.stop + 1 then (res.lock l).lExtent.stop + 1
          else arg.kms) = max arg.kms ((res.lock l).lExtent.stop + 1) := by
        split <;> omega
      rw [hmaxeq]

/-- The callback on nodes of a tree, one after the other. -/
theorem Inv.runShiftCb (h : res.Inv trees) {ns : List ℕ} (hns : ∀ n ∈ ns, n ∈ ids (trees mode))
    (hold : arg.oldKms ≤ obdObjectEof) : ∃ rc, runIter (ldlmKmsShiftCb res) arg ns =
      some (kmsScan (decide (mode = .pw)) arg (ns.filterMap (res.nodeEnd mode)), rc) := by
  induction ns generalizing arg with
  | nil => exact ⟨_, rfl⟩
  | cons n ns ih =>
    have hrest : ∀ n ∈ ns, n ∈ ids (trees mode) := (forall_mem_cons.mp hns).2
    rw [runIter]
    rcases h.shiftCb (hns n mem_cons_self) hold with ⟨hnone, hcb⟩ | ⟨e, hsome, hcb⟩
    · rw [hcb, filterMap_cons_none hnone]
      exact ih hrest hold
    · rw [hcb, filterMap_cons_some hsome, kmsScan]
      by_cases hle : arg.oldKms ≤ e
      · rw [if_pos hle, if_pos hle]
        exact ⟨_, rfl⟩
      · rw [if_neg hle, if_neg hle]
        by_cases hpw : mode = .pw
        · rw [if_pos hpw, if_pos (decide_eq_true hpw)]
          exact ⟨_, rfl⟩
        · rw [if_neg hpw, if_neg (by simpa using hpw)]
          exact ih hrest hold

/-- The ends that the scan of a tree meets. -/
theorem Inv.mem_nodeEnds (h : res.Inv trees) {e : ℕ} :
    (∃ n ∈ ids (trees mode), res.nodeEnd mode n = some e) ↔
      ∃ k ∈ res.lrGranted, (res.lock k).lGrantedMode = mode ∧ (res.lock k).kmsIgnore = false ∧
        (res.lock k).lExtent.stop = e := by
  constructor
  · rintro ⟨n, hn, hend⟩
    obtain ⟨hopen, hend⟩ := Option.ite_none_right_eq_some.mp hend
    obtain ⟨k, hk, hkept⟩ := any_eq_true.mp hopen
    obtain ⟨hgr, hmode, hin⟩ := h.of_group hn hk
    have hext := hin.extent
    rw [hmode] at hext
    rw [hext] at hend
    exact ⟨k, hgr, hin.mode.trans hmode, by simpa using hkept, Option.some.inj hend⟩
  · rintro ⟨k, hk, rfl, hkept, rfl⟩
    obtain ⟨n, hn⟩ := h.granted k hk
    rw [hn.mode]
    refine ⟨n, hn.mem, ?_⟩
    have hopen : ((res.liGroup n).any fun l => !(res.lock l).kmsIgnore) = true :=
      any_eq_true.mpr ⟨k, (h.attached k n).mpr hn.node, by rw [hkept]; rfl⟩
    rw [nodeEnd, if_pos hopen, hn.extent]
    rfl

/-- In the `PW` tree a later interval ends later. -/
theorem Inv.pw_stop_le (h : res.Inv trees) (hpw : res.PwDisjoint) {a b : Cell}
    (ha : a ∈ (trees .pw).inorder) (hb : b ∈ (trees .pw).inorder) (hlt : a.extent < b.extent) :
    a.extent.stop ≤ b.extent.stop := by
  have hcell : ∀ c ∈ (trees .pw).inorder, ∃ k ∈ res.lrGranted, (res.lock k).lGrantedMode = .pw ∧
      c.extent = (res.lock k).lExtent.interval ∧
      (res.lock k).lExtent.start ≤ (res.lock k).lExtent.stop := by
    intro c hc
    obtain ⟨k, hk, hmode, hext, hle⟩ := h.exists_lock (mem_map_of_mem hc)
    rw [(h.owns .pw).stored.placed.rep.extent hc] at hext
    exact ⟨k, hk, hmode, hext, hle⟩
  obtain ⟨j, hj, hmj, hej, hlej⟩ := hcell a ha
  obtain ⟨k, hk, hmk, hek, hlek⟩ := hcell b hb
  have hstart := start_le_of_lt hlt
  have hne : j ≠ k := by
    rintro rfl
    rw [hej, hek, extent_lt_iff] at hlt
    omega
  have hdis := hpw j hj k hk hne hmj hmk
  rw [hej, hek] at hstart ⊢
  dsimp only [LdlmExtent.interval] at hstart ⊢
  omega

/-- The ends in the order of the scan. -/
def scanEnds (res : ExtentResource) (trees : LdlmMode → CellTree) (mode : LdlmMode) : List ℕ :=
  ((fromSide .right (trees mode)).map Cell.id).filterMap (res.nodeEnd mode)

theorem mem_scanEnds {e : ℕ} : e ∈ res.scanEnds trees mode ↔
    ∃ n ∈ ids (trees mode), res.nodeEnd mode n = some e := by
  rw [scanEnds, mem_filterMap, ids]
  simp [fromSide]

theorem Inv.scanEnds_sorted (h : res.Inv trees) (hpw : res.PwDisjoint) :
    (res.scanEnds trees .pw).Pairwise fun a b => b ≤ a := by
  have hsorted : (trees .pw).inorder.Pairwise fun a b => a.extent < b.extent :=
    ordered_iff.mpr (h.owns .pw).stored.sorted
  rw [scanEnds, filterMap_map, pairwise_filterMap]
  refine (pairwise_reverse.mpr hsorted).imp_of_mem fun {a b} ha hb hlt => ?_
  have ha' : a ∈ (trees .pw).inorder := mem_reverse.mp ha
  have hb' : b ∈ (trees .pw).inorder := mem_reverse.mp hb
  intro x hx y hy
  have hx' := (Option.ite_none_right_eq_some.mp hx).2
  have hy' := (Option.ite_none_right_eq_some.mp hy).2
  rw [(h.owns .pw).stored.placed.rep.extent ha'] at hx'
  rw [(h.owns .pw).stored.placed.rep.extent hb'] at hy'
  rw [← Option.some.inj hx', ← Option.some.inj hy']
  exact h.pw_stop_le hpw hb' ha' hlt

theorem Inv.iterate (h : res.Inv trees) (mode : LdlmMode) (arg : LdlmKmsShiftArgs)
    (hold : arg.oldKms ≤ obdObjectEof) :
    ∃ rc, intervalIterateReverse (ldlmKmsShiftCb res) res.fuel (res.lrItree mode).litRoot arg =
      some (kmsScan (decide (mode = .pw)) arg (res.scanEnds trees mode), rc) := by
  have hlen := Nat.lt_of_succ_lt (h.length_lt mode)
  rw [intervalIterateReverse, (h.owns mode).iterate .right hlen]
  refine h.runShiftCb (fun n hn => ?_) hold
  rw [ids]
  simpa [fromSide] using hn

/-- The root of a tree knows the largest end. -/
theorem Inv.root_maxHigh (h : res.Inv trees) (mode : LdlmMode) :
    ((res.lrItree mode).litRoot.root = none ∧
      (res.ends (res.ofMode mode res.lrGranted)).max? = none) ∨
    ∃ root, (res.lrItree mode).litRoot.root = some root ∧
      (res.ends (res.ofMode mode res.lrGranted)).max? =
        some ((res.lrItree mode).litRoot.node root).inMaxHigh := by
  have hst := (h.owns mode).stored
  have hends : ∀ e, e ∈ res.ends (res.ofMode mode res.lrGranted) ↔
      ∃ c ∈ (trees mode).inorder, Cell.high c = e := by
    intro e
    rw [ends, mem_map]
    constructor
    · rintro ⟨k, hk, rfl⟩
      obtain ⟨hgr, hmode⟩ := mem_filter.mp hk
      obtain ⟨n, hn⟩ := h.granted k hgr
      have hreq : (res.lock k).lReqMode = mode := hn.mode.symm.trans (of_decide_eq_true hmode)
      have hmem := hn.mem
      have hext := hn.extent
      rw [hreq] at hmem hext
      obtain ⟨c, hc, rfl⟩ := mem_map.mp hmem
      rw [hst.placed.rep.extent hc] at hext
      exact ⟨c, hc, congrArg stop hext⟩
    · rintro ⟨c, hc, rfl⟩
      obtain ⟨k, hk, hmode, hext, -⟩ := h.exists_lock (mem_map_of_mem hc)
      rw [hst.placed.rep.extent hc] at hext
      exact ⟨k, mem_filter.mpr ⟨hk, decide_eq_true hmode⟩, congrArg stop hext.symm⟩
  rw [hst.placed.root]
  cases htree : trees mode with
  | nil =>
    refine .inl ⟨rfl, max?_eq_none_iff.mpr (eq_nil_iff_forall_not_mem.mpr fun e he => ?_)⟩
    obtain ⟨c, hc, -⟩ := (hends e).mp he
    rw [htree] at hc
    exact absurd hc not_mem_nil
  | node c u v =>
    have hmax := hst.maxOk
    have hrep := hst.placed.rep
    rw [htree] at hmax hrep hends
    refine .inr ⟨c.id, rfl, max?_eq_some_iff.mpr ?_⟩
    rw [hrep.1, Cell.toNode_maxHigh]
    refine ⟨(hends _).mpr (hmax.topMax.2 nofun), fun e he => ?_⟩
    obtain ⟨b, hb, rfl⟩ := (hends e).mp he
    exact hmax.topMax.1 b hb

end ExtentResource

end Tree

/-! ## The loop -/

open ExtentResource

section Loop

variable {res : ExtentResource} {trees : LdlmMode → CellTree} {l oldKms : ℕ}

theorem max?_congr {a b : List ℕ} (h : ∀ x, x ∈ a ↔ x ∈ b) : a.max? = b.max? := by
  cases ha : a.max? with
  | none =>
    have hb : b = [] := by
      refine eq_nil_iff_forall_not_mem.mpr fun x hx => ?_
      have hin := (h x).mpr hx
      rw [max?_eq_none_iff.mp ha] at hin
      exact not_mem_nil hin
    rw [hb]
    rfl
  | some m =>
    obtain ⟨hm, hle⟩ := max?_eq_some_iff.mp ha
    exact (max?_eq_some_iff.mpr ⟨(h m).mp hm, fun x hx => hle x ((h x).mpr hx)⟩).symm

theorem setKmsIgnore_lock (k : ℕ) :
    ((ldlmSetKmsIgnore res l).lock k).lGrantedMode = (res.lock k).lGrantedMode ∧
      ((ldlmSetKmsIgnore res l).lock k).lExtent = (res.lock k).lExtent := by
  by_cases hk : k = l
  · rw [hk, ldlmSetKmsIgnore, setLock_lock_self]
    exact ⟨rfl, rfl⟩
  · rw [ldlmSetKmsIgnore, setLock_lock_of_ne _ _ _ hk]
    exact ⟨rfl, rfl⟩

theorem setKmsIgnore_ends (mode : LdlmMode) (locks : List ℕ) :
    (ldlmSetKmsIgnore res l).ends ((ldlmSetKmsIgnore res l).ofMode mode locks) =
      res.ends (res.ofMode mode locks) := by
  simp only [ends, ofMode, setKmsIgnore_lock]

theorem setKmsIgnore_pwDisjoint (hpw : res.PwDisjoint) : (ldlmSetKmsIgnore res l).PwDisjoint := by
  intro a ha b hb
  rw [(setKmsIgnore_lock a).1, (setKmsIgnore_lock b).1, (setKmsIgnore_lock a).2,
    (setKmsIgnore_lock b).2]
  exact hpw a ha b hb

theorem ExtentResource.tops_le (res : ExtentResource) (l : ℕ) (mode : LdlmMode) :
    ∀ t ∈ (res.tops l mode).2, ∃ high ∈ (res.tops l mode).1, t ≤ high := by
  intro t ht
  have hmem : t ∈ res.ends (res.ofMode mode res.lrGranted) := by
    obtain ⟨k, hk, rfl⟩ := mem_map.mp (max?_eq_some_iff.mp ht).1
    obtain ⟨hk, hmode⟩ := mem_filter.mp hk
    exact mem_map_of_mem (mem_filter.mpr ⟨(mem_filter.mp hk).1, hmode⟩)
  cases hmax : (res.ends (res.ofMode mode res.lrGranted)).max? with
  | none =>
    rw [max?_eq_none_iff.mp hmax] at hmem
    exact absurd hmem not_mem_nil
  | some high => exact ⟨high, hmax, (max?_eq_some_iff.mp hmax).2 t hmem⟩

section

variable (h : (ldlmSetKmsIgnore res l).Inv trees) (hpw : (ldlmSetKmsIgnore res l).PwDisjoint)
  (hold : oldKms ≤ obdObjectEof)
include h hpw hold

/-- The scan of a tree, by the largest end that counts in it. -/
theorem shiftTree_spec (mode : LdlmMode) (kms : ℕ) :
    ∃ rc, intervalIterateReverse (ldlmKmsShiftCb (ldlmSetKmsIgnore res l))
        (ldlmSetKmsIgnore res l).fuel ((ldlmSetKmsIgnore res l).lrItree mode).litRoot
        ⟨oldKms, kms, false⟩ = some ((match (res.tops l mode).2 with
        | none => ⟨oldKms, kms, false⟩
        | some t => if oldKms ≤ t then ⟨oldKms, oldKms, true⟩ else ⟨oldKms, max kms (t + 1), false⟩),
        rc) := by
  obtain ⟨rc, hrun⟩ := h.iterate mode ⟨oldKms, kms, false⟩ hold
  have hsame : ((ldlmSetKmsIgnore res l).scanEnds trees mode).max? = (res.tops l mode).2 := by
    refine max?_congr fun e => ?_
    -- marking the lock leaves those that count
    rw [mem_scanEnds, h.mem_nodeEnds, ends, mem_map]
    refine exists_congr fun k => ?_
    rw [ofMode, mem_filter, counted, mem_filter, decide_eq_true_iff, decide_eq_true_iff,
      ldlmSetKmsIgnore, setLock_lrGranted]
    by_cases hk : k = l
    · rw [hk, setLock_lock_self]
      simp
    · rw [setLock_lock_of_ne _ _ _ hk]
      constructor
      · rintro ⟨hgr, hmode, hkept, hend⟩
        exact ⟨⟨⟨hgr, hk, hkept⟩, hmode⟩, hend⟩
      · rintro ⟨⟨⟨hgr, -, hkept⟩, hmode⟩, hend⟩
        exact ⟨hgr, hmode, hkept, hend⟩
  have hsorted : decide (mode = .pw) = true →
      ((ldlmSetKmsIgnore res l).scanEnds trees mode).Pairwise fun a b => b ≤ a := by
    intro hm
    obtain rfl := of_decide_eq_true hm
    exact h.scanEnds_sorted hpw
  refine ⟨rc, hrun.trans (congrArg (fun arg => some (arg, rc)) ?_)⟩
  rw [← hsame]
  cases hmax : ((ldlmSetKmsIgnore res l).scanEnds trees mode).max? with
  | none =>
    rw [max?_eq_none_iff.mp hmax]
    rfl
  | some t =>
    obtain ⟨ht, hle⟩ := max?_eq_some_iff.mp hmax
    exact kmsScan_eq ht hle hsorted

theorem ldlmExtentShiftKmsLoop_spec (modes : List LdlmMode) (kms : ℕ) :
    ∃ arg, ldlmExtentShiftKmsLoop (ldlmSetKmsIgnore res l) modes ⟨oldKms, kms, false⟩ = some arg ∧
      arg.oldKms = oldKms ∧ arg.kms = passTrees oldKms (modes.map (res.tops l)) kms := by
  induction modes generalizing kms with
  | nil => exact ⟨_, rfl, rfl, rfl⟩
  | cons mode modes ih =>
    have hroot := h.root_maxHigh mode
    rw [setKmsIgnore_ends] at hroot
    obtain ⟨rc, hscan⟩ := shiftTree_spec h hpw hold mode kms
    rw [ldlmExtentShiftKmsLoop, map_cons]
    rw [hscan]
    have hsub : ∀ t ∈ (res.tops l mode).2, ∃ high ∈ (res.tops l mode).1, t ≤ high :=
      res.tops_le l mode
    have hfst : (res.tops l mode).1 =
        (res.ends (res.ofMode mode (ldlmSetKmsIgnore res l).lrGranted)).max? := rfl
    rw [← hfst] at hroot
    generalize res.tops l mode = p at hroot hsub ⊢
    obtain ⟨high, top⟩ := p
    rcases hroot with ⟨hroot, rfl⟩ | ⟨root, hroot, rfl⟩
    · -- an empty tree
      rw [hroot]
      cases top with
      | none => exact ih kms
      | some t =>
        obtain ⟨high, hhigh, -⟩ := hsub t rfl
        cases hhigh
    · rw [hroot]
      dsimp only
      cases top with
      | none =>
        refine Exists.imp (fun arg harg => ⟨?_, harg.2⟩) (ih kms)
        exact (ite_self _).trans harg.1
      | some t =>
        rw [passTrees, Option.getD_some]
        split
        · exact ih kms
        · dsimp only [Option.bind_eq_bind, Option.bind_some]
          split
          · exact ⟨_, rfl, rfl, rfl⟩
          · exact ih _

end

/-- The ends that count are those in the trees. -/
theorem ExtentResource.Inv.mem_counted (h : res.Inv trees) {e : ℕ} : e ∈ res.ends (res.counted l) ↔
      ∃ mode ∈ itreeModes, e ∈ res.ends (res.ofMode mode (res.counted l)) := by
  constructor
  · intro he
    obtain ⟨k, hk, rfl⟩ := mem_map.mp he
    obtain ⟨n, hn⟩ := h.granted k (mem_filter.mp hk).1
    have hmode : (res.lock k).lGrantedMode ∈ itreeModes := by
      have hne := hn.mode_ne
      rw [hn.mode]
      cases hm : (res.lock k).lReqMode <;> simp [hm, itreeModes] at hne ⊢
    exact ⟨_, hmode, mem_map_of_mem (mem_filter.mpr ⟨hk, decide_eq_true rfl⟩)⟩
  · rintro ⟨mode, -, he⟩
    obtain ⟨k, hk, rfl⟩ := mem_map.mp he
    exact mem_map_of_mem (mem_filter.mp hk).1

/-- Below the old size, the largest end of the walk is that of the locks that count. -/
theorem ExtentResource.Inv.sizeAt_eq (h : res.Inv trees) :
    sizeAt ((itreeModes.map (res.tops l)).foldl kmsLost (none, false)).1 =
      ((res.ends (res.counted l)).map (· + 1)).foldr max 0 := by
  refine eq_of_forall_ge_iff fun x => ?_
  rw [sizeAt_foldl_le, foldr_max_le, forall_mem_map, forall_mem_map]
  constructor
  · rintro ⟨-, hall⟩ e he
    obtain ⟨mode, hmode, he⟩ := h.mem_counted.mp he
    exact sizeAt_max_le.mp (hall mode hmode) e he
  · intro hall
    refine ⟨Nat.zero_le _, fun mode hmode => sizeAt_max_le.mpr fun e he => hall e ?_⟩
    exact h.mem_counted.mpr ⟨mode, hmode, he⟩

/-- **`ldlm_extent_shift_kms`** returns at most the old size, and the size that the other locks
protect: exactly if one of them reaches the old size or the largest end is not lost. -/
theorem ldlmExtentShiftKms_exact (hres : Reach extentStep (fun _ _ => True) extentResourceNew res)
    (hpw : res.PwDisjoint) (l : ℕ) (hold : oldKms ≤ obdObjectEof) :
    ∃ kms res', ldlmExtentShiftKms res l oldKms = some (kms, res') ∧ kms ≤ oldKms ∧
      (kms = kmsOf res l oldKms ↔
        (∃ e ∈ res.ends (res.counted l), oldKms ≤ e) ∨ ¬KmsLost res l) := by
  obtain ⟨trees, h⟩ := extentRun_inv hres
  have h1 : (ldlmSetKmsIgnore res l).Inv trees := h.setLock rfl rfl fun _ => ⟨rfl, rfl⟩
  obtain ⟨arg, hloop, hargOld, hkms⟩ :=
    ldlmExtentShiftKmsLoop_spec h1 (setKmsIgnore_pwDisjoint hpw) hold itreeModes 0
  have hok : TopsOk (itreeModes.map (res.tops l)) :=
    forall_mem_map.mpr fun mode _ => res.tops_le l mode
  obtain ⟨-, hle, hfound⟩ := passTrees_spec hok (Nat.zero_le oldKms)
  rw [← hkms] at hle hfound
  refine ⟨arg.kms, ldlmSetKmsIgnore res l, ?_, hle, ?_⟩
  · rw [ldlmExtentShiftKms, hloop]
    exact lassert_pos (by rw [hargOld]; exact hle)
  · rw [kmsOf]
    by_cases hreach : ∃ e ∈ res.ends (res.counted l), oldKms ≤ e
    · -- a lock reaches the old size
      rw [if_pos hreach]
      refine iff_of_true ?_ (.inl hreach)
      obtain ⟨e, he, hoe⟩ := hreach
      obtain ⟨mode, hmode, he⟩ := h.mem_counted.mp he
      cases hmax : (res.tops l mode).2 with
      | none =>
        rw [max?_eq_none_iff.mp hmax] at he
        exact absurd he not_mem_nil
      | some t =>
        refine hfound _ (mem_map_of_mem hmode) t hmax (hoe.trans ?_)
        exact (max?_eq_some_iff.mp hmax).2 e he
    · rw [if_neg hreach, ← h.sizeAt_eq, or_iff_right hreach, hkms]
      have hlt : ∀ p ∈ itreeModes.map (res.tops l), ∀ t ∈ p.2, t < oldKms := by
        refine forall_mem_map.mpr fun mode hmode t ht => not_le.mp fun hoe => hreach ?_
        exact ⟨t, h.mem_counted.mpr ⟨mode, hmode, (max?_eq_some_iff.mp ht).1⟩, hoe⟩
      have hwalk := passTrees_eq hok hlt (none, false)
      rw [show kmsReached (none, false) = 0 from rfl] at hwalk
      rw [hwalk]
      exact kmsReached_eq_iff (foldl_kmsLost_none fun _ => rfl)

end Loop

/-! ## Runs -/

/-- A lock is made and granted. -/
def grantOps (l : ℕ) (mode : LdlmMode) (start stop : ℕ) : List ExtentOp :=
  [.create mode ⟨start, stop, 0⟩ none false, .grant l]

/-- The upper one of two write locks is cancelled, and a read lock between them counts. -/
theorem ldlmExtentShiftKms_exact_one : ∃ res,
    Reach extentStep (fun _ _ => True) extentResourceNew res ∧ res.PwDisjoint ∧
      ¬KmsLost res 1 ∧ ∃ kms res', ldlmExtentShiftKms res 1 31 = some (kms, res') ∧ kms ≤ 31 ∧
        kms = kmsOf res 1 31 := by
  obtain ⟨res, hreach, hpw, hlost⟩ : ∃ res, Reach extentStep (fun _ _ => True) extentResourceNew res ∧
      res.PwDisjoint ∧ ¬KmsLost res 1 :=
    exists_reach (grantOps 0 .pw 0 9 ++ grantOps 1 .pw 20 30 ++ grantOps 2 .pr 15 15)
      (by decide +kernel)
  obtain ⟨kms, res', hcall, hle, hiff⟩ := ldlmExtentShiftKms_exact hreach hpw 1
    (show 31 ≤ obdObjectEof by decide)
  exact ⟨res, hreach, hpw, hlost, kms, res', hcall, hle, hiff.mpr (.inr hlost)⟩

/-- The read lock on the byte behind the lower write lock does not count: `in_max_high` of its tree
is its end 10, and the size is 10 already. -/
theorem ldlmExtentShiftKms_lost : ∃ res,
    Reach extentStep (fun _ _ => True) extentResourceNew res ∧ res.PwDisjoint ∧
      (ldlmExtentShiftKms res 1 31).map Prod.fst = some 10 ∧ kmsOf res 1 31 = 11 :=
  exists_reach (grantOps 0 .pw 0 9 ++ grantOps 1 .pw 20 30 ++ grantOps 2 .pr 10 10)
    (by decide +kernel)

end Lustre
