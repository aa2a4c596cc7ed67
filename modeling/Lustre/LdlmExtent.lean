import Lustre.IntervalExpand
import Lustre.IntervalIterate
import Lustre.LdlmMode
import Lustre.Run
import Lustre.Word
import Mathlib.Data.Finset.Range

/-!
# The locks of an extent resource (`ldlm_extent.c`, `ldlm_resource.c`)

The granted locks of a resource are kept in one interval tree for each mode. A node of a tree is
an `ldlm_interval`, shared by all locks of the mode with the same extent: `li_group` is the list
of them. A lock is created with an interval of its own, which `ldlm_extent_add_lock` inserts when
the lock is granted, or gives up for the one that is there.

`ExtentResource.Inv` says that the trees are exactly the granted list, sorted by mode and extent.
Every step keeps it (`extentStep_inv`), so it holds in every run (`extentRun_inv`).

A lock and its own interval have the same address, the number of the lock. The memory of the
nodes is kept with the tree they are for. A failed `LASSERT` is `none`; a tree never has more
nodes than locks were created, which is the fuel.
-/

namespace Lustre

open List

/-! ## The model -/

/-- `struct ldlm_extent`; `stop` is its `end`. -/
structure LdlmExtent where
  start : ℕ
  stop : ℕ
  /-- of a group lock -/
  gid : ℕ
  deriving DecidableEq

/-- The extent of an interval node. -/
def LdlmExtent.interval (e : LdlmExtent) : IntervalExtent := ⟨e.start, e.stop⟩

/-- `struct ldlm_lock` of an extent resource. -/
structure ExtentLock where
  lReqMode : LdlmMode
  /-- `l_granted_mode`, `LCK_MINMODE` before the lock is granted -/
  lGrantedMode : LdlmMode
  /-- `l_req_extent`: what was asked for -/
  lReqExtent : LdlmExtent
  /-- `l_policy_data.l_extent`: what is granted in the end -/
  lExtent : LdlmExtent
  /-- `l_export`: the client, none for a lock of the server itself -/
  lExport : Option ℕ
  /-- `LDLM_FL_NO_EXPANSION` in `l_flags` -/
  noExpansion : Bool
  /-- `LDLM_FL_KMS_IGNORE` in `l_flags` -/
  kmsIgnore : Bool
  /-- `l_tree_node`: its interval -/
  lTreeNode : Option ℕ
  deriving DecidableEq

/-- Write to `l_tree_node`. -/
def ExtentLock.setTreeNode (k : ExtentLock) (n : Option ℕ) : ExtentLock := { k with lTreeNode := n }

/-- `struct ldlm_interval_tree`; `lit_mode` is its place in the array. -/
structure LdlmIntervalTree where
  /-- `lit_size`: number of locks -/
  litSize : ℤ
  /-- `lit_root`, with the nodes -/
  litRoot : IntervalTree

/-- `struct ldlm_resource` with the locks and intervals of it. -/
structure ExtentResource where
  lrItree : LdlmMode → LdlmIntervalTree
  lrGranted : List ℕ
  lrWaiting : List ℕ
  /-- `li_group` of an interval -/
  liGroup : ℕ → List ℕ
  /-- the locks by their address -/
  lock : ℕ → ExtentLock
  /-- the number of locks made so far -/
  created : ℕ

/-- The modes of the trees in the order of `lr_itree`. -/
def itreeModes : List LdlmMode := [.ex, .pw, .pr, .cw, .cr, .nl, .group, .cos]

/-- A lock that was never made. -/
def extentLockBlank : ExtentLock :=
  ⟨.minmode, .minmode, ⟨0, 0, 0⟩, ⟨0, 0, 0⟩, none, false, false, none⟩

/-- A new resource. -/
def extentResourceNew : ExtentResource where
  lrItree := fun _ => ⟨0, blankTree⟩
  lrGranted := []
  lrWaiting := []
  liGroup := fun _ => []
  lock := fun _ => extentLockBlank
  created := 0

open Function (update update_self update_of_ne)

variable (res : ExtentResource) (mode : LdlmMode)

namespace ExtentResource

/-- Enough for every loop over a tree. -/
def fuel : ℕ := res.created + 2

/-- Write to a lock. -/
def setLock (l : ℕ) (f : ExtentLock → ExtentLock) : ExtentResource :=
  { res with lock := update res.lock l (f (res.lock l)) }

/-- Write to the group of an interval. -/
def setGroup (n : ℕ) (group : List ℕ) : ExtentResource :=
  { res with liGroup := update res.liGroup n group }

/-- Write to a tree. -/
def setTree (tree : LdlmIntervalTree) : ExtentResource :=
  { res with lrItree := update res.lrItree mode tree }

section

variable (res : ExtentResource) (l n : ℕ) (f : ExtentLock → ExtentLock) (group : List ℕ)
  (mode : LdlmMode) (tree : LdlmIntervalTree)

@[simp] theorem setLock_lock_self : (res.setLock l f).lock l = f (res.lock l) :=
  update_self ..

theorem setLock_lock_of_ne {k : ℕ} (h : k ≠ l) : (res.setLock l f).lock k = res.lock k :=
  update_of_ne h ..

@[simp] theorem setLock_liGroup : (res.setLock l f).liGroup = res.liGroup := rfl

@[simp] theorem setLock_lrItree : (res.setLock l f).lrItree = res.lrItree := rfl

@[simp] theorem setLock_lrGranted : (res.setLock l f).lrGranted = res.lrGranted := rfl

@[simp] theorem setGroup_liGroup_self : (res.setGroup n group).liGroup n = group :=
  update_self ..

theorem setGroup_liGroup_of_ne {k : ℕ} (h : k ≠ n) :
    (res.setGroup n group).liGroup k = res.liGroup k := update_of_ne h ..

@[simp] theorem setGroup_lock : (res.setGroup n group).lock = res.lock := rfl

@[simp] theorem setGroup_lrItree : (res.setGroup n group).lrItree = res.lrItree := rfl

@[simp] theorem setTree_lrItree_self : (res.setTree mode tree).lrItree mode = tree :=
  update_self ..

theorem setTree_lrItree_of_ne {m : LdlmMode} (h : m ≠ mode) :
    (res.setTree mode tree).lrItree m = res.lrItree m := update_of_ne h ..

@[simp] theorem setTree_lock : (res.setTree mode tree).lock = res.lock := rfl

@[simp] theorem setTree_liGroup : (res.setTree mode tree).liGroup = res.liGroup := rfl

end

/-- `interval_is_intree` of the interval `n` of a lock of the mode. -/
def isIntree (n : ℕ) : Bool :=
  ((res.lrItree mode).litRoot.node n).inIntree

end ExtentResource

def ldlmIntervalAttach (n l : ℕ) : Option ExtentResource :=
  lassert ((res.lock l).lTreeNode = none) <|
    some ((res.setGroup n (res.liGroup n ++ [l])).setLock l (·.setTreeNode (some n)))

/-- `ldlm_interval_detach`: the interval if no lock is left in it. -/
def ldlmIntervalDetach (l : ℕ) : Option (Option ℕ × ExtentResource) :=
  match (res.lock l).lTreeNode with
  | none => some (none, res)
  | some n =>
    lassert (res.liGroup n ≠ []) <|
      let group := (res.liGroup n).filter (· ≠ l)
      some (if group = [] then some n else none,
        (res.setLock l (·.setTreeNode none)).setGroup n group)

/-- `ldlm_interval_free` of an interval for the mode. -/
def ldlmIntervalFree (n : ℕ) : Option ExtentResource :=
  lassert (res.liGroup n = []) <| lassert (res.isIntree mode n = false) <| some res

/-- `ldlm_lock_create` with `ldlm_interval_alloc`, and what the caller writes to the new lock. -/
def ldlmLockCreate (extent : LdlmExtent) (lExport : Option ℕ) (noExpansion : Bool) :
    Option ExtentResource :=
  let l := res.created
  let new := ⟨mode, .minmode, extent, extent, lExport, noExpansion, false, none⟩
  ldlmIntervalAttach (({ res with created := l + 1 }.setLock l fun _ => new).setGroup l []) l l

/-- `ldlm_resource_add_lock` to the granted list: the lock is on no list yet. -/
def ldlmResourceAddGranted (l : ℕ) : Option ExtentResource :=
  lassert (l ∉ res.lrGranted ∧ l ∉ res.lrWaiting) <|
    some { res with lrGranted := res.lrGranted ++ [l] }

/-- `ldlm_resource_add_lock` to the waiting list. -/
def ldlmResourceAddWaiting (l : ℕ) : Option ExtentResource :=
  lassert (l ∉ res.lrGranted ∧ l ∉ res.lrWaiting) <|
    some { res with lrWaiting := res.lrWaiting ++ [l] }

/-- The part of `ldlm_extent_add_lock` after `interval_insert`: a lock whose extent was found joins
the group there, and its own interval is freed. -/
def ldlmExtentJoin (l : ℕ) : Option ℕ → Option ExtentResource
  | none => some res
  | some found => do
    let (tmp, res) ← ldlmIntervalDetach res l
    let n ← tmp
    let res ← ldlmIntervalFree res (res.lock l).lReqMode n
    ldlmIntervalAttach res found l

def ldlmExtentAddLock (l : ℕ) : Option ExtentResource :=
  let lk := res.lock l
  let tree := res.lrItree lk.lGrantedMode
  lassert (lk.lGrantedMode = lk.lReqMode) <| do
    let node ← lk.lTreeNode
    lassert (res.isIntree lk.lGrantedMode node = false) <|
      lassert (lk.lGrantedMode ≠ .minmode) <| do
        let root ← intervalSet tree.litRoot node lk.lExtent.start lk.lExtent.stop
        let (found, root) ← intervalInsert res.fuel root node
        let res ← ldlmExtentJoin (res.setTree lk.lGrantedMode ⟨tree.litSize + 1, root⟩) l found
        ldlmResourceAddGranted res l

def ldlmGrantLock (l : ℕ) : Option ExtentResource :=
  ldlmExtentAddLock (res.setLock l fun k => { k with lGrantedMode := k.lReqMode }) l

/-- The end of `ldlm_extent_unlink_lock`: an interval without a lock leaves the tree. -/
def ldlmExtentDrop : Option ℕ → Option ExtentResource
  | none => some res
  | some n => do
    let tree := res.lrItree mode
    let root ← intervalErase res.fuel tree.litRoot n
    ldlmIntervalFree (res.setTree mode { tree with litRoot := root }) mode n

def ldlmExtentUnlinkLock (l : ℕ) : Option ExtentResource :=
  let lk := res.lock l
  match lk.lTreeNode with
  | none => some res
  | some node =>
    if res.isIntree lk.lReqMode node = false then some res
    else
      let tree := res.lrItree lk.lGrantedMode
      lassert (lk.lGrantedMode ≠ .minmode) <| lassert (tree.litRoot.root ≠ none) <| do
        let (n, res) ← ldlmIntervalDetach
          (res.setTree lk.lGrantedMode { tree with litSize := tree.litSize - 1 }) l
        ldlmExtentDrop res lk.lGrantedMode n

def ldlmResourceUnlinkLock (l : ℕ) : Option ExtentResource := do
  let res ← ldlmExtentUnlinkLock res l
  return { res with
    lrGranted := res.lrGranted.filter (· ≠ l)
    lrWaiting := res.lrWaiting.filter (· ≠ l) }

def ldlmSetKmsIgnore (l : ℕ) : ExtentResource :=
  res.setLock l fun k => { k with kmsIgnore := true }

/-- What is done to the locks of a resource. -/
inductive ExtentOp where
  | create (mode : LdlmMode) (extent : LdlmExtent) (lExport : Option ℕ) (noExpansion : Bool)
  /-- a lock has to wait -/
  | wait (l : ℕ)
  /-- a lock is granted -/
  | grant (l : ℕ)
  /-- a lock leaves the resource -/
  | unlink (l : ℕ)
  /-- a lock does not count for the known minimum size -/
  | setKmsIgnore (l : ℕ)
  deriving DecidableEq

/-- One step of a resource. -/
def extentStep : ExtentOp → Option ExtentResource
  | .create mode extent lExport noExpansion => ldlmLockCreate res mode extent lExport noExpansion
  | .wait l => ldlmResourceAddWaiting res l
  | .grant l => ldlmGrantLock res l
  | .unlink l => ldlmResourceUnlinkLock res l
  | .setKmsIgnore l => some (ldlmSetKmsIgnore res l)

/-! ## The trees are the granted list -/

/-- The interval of a granted lock: a node with its extent, in the tree of its mode. -/
structure ExtentResource.InTree (trees : LdlmMode → CellTree) (l n : ℕ) :
    Prop where
  mode : (res.lock l).lGrantedMode = (res.lock l).lReqMode
  mode_ne : (res.lock l).lReqMode ≠ .minmode
  node : (res.lock l).lTreeNode = some n
  mem : n ∈ ids (trees (res.lock l).lReqMode)
  extent : ((res.lrItree (res.lock l).lReqMode).litRoot.node n).inExtent =
    (res.lock l).lExtent.interval
  start_le : (res.lock l).lExtent.start ≤ (res.lock l).lExtent.stop

/-- The interval of a lock that is not granted: it has one of its own, in no tree. -/
structure ExtentResource.Apart (trees : LdlmMode → CellTree) (l : ℕ) :
    Prop where
  node : (res.lock l).lTreeNode = some l
  group : res.liGroup l = [l]
  not_mem : ∀ mode, l ∉ ids (trees mode)

/-- The trees hold the intervals of the granted locks and no other. -/
structure ExtentResource.Inv (trees : LdlmMode → CellTree) : Prop where
  owns : ∀ mode, Owns (res.lrItree mode).litRoot (trees mode)
  node_lt : ∀ mode, ∀ n ∈ ids (trees mode), n < res.created
  group_ne : ∀ mode, ∀ n ∈ ids (trees mode), res.liGroup n ≠ []
  group_mode : ∀ mode, ∀ n ∈ ids (trees mode), ∀ l ∈ res.liGroup n, (res.lock l).lReqMode = mode
  attached : ∀ l n, l ∈ res.liGroup n ↔ (res.lock l).lTreeNode = some n
  granted : ∀ l ∈ res.lrGranted, ∃ n, res.InTree trees l n
  ungranted : ∀ l, l ∉ res.lrGranted → (res.lock l).lTreeNode = none ∨ res.Apart trees l
  nodup : res.lrGranted.Nodup
  fresh : ∀ l, res.created ≤ l → l ∉ res.lrGranted ∧ (res.lock l).lTreeNode = none

variable {t' : CellTree}

section Inv

variable {res res' : ExtentResource} {trees : LdlmMode → CellTree} {mode : LdlmMode} {l n : ℕ}

namespace ExtentResource

namespace Inv

section

variable (h : res.Inv trees)
include h

theorem isIntree : res.isIntree mode n = true ↔ n ∈ ids (trees mode) :=
  (h.owns mode).inIntree

section

variable (hn : (res.lock l).lTreeNode = some n)
include hn

/-- A lock with an interval is granted, or the interval is its own one. -/
theorem granted_or_apart : (l ∈ res.lrGranted ∧ res.InTree trees l n) ∨
    l ∉ res.lrGranted ∧ n = l ∧ res.Apart trees l := by
  by_cases hl : l ∈ res.lrGranted
  · obtain ⟨m, hm⟩ := h.granted l hl
    cases hm.node.symm.trans hn
    exact .inl ⟨hl, hm⟩
  · rcases h.ungranted l hl with hnone | hap
    · rw [hnone] at hn
      cases hn
    · exact .inr ⟨hl, (Option.some.inj (hap.node.symm.trans hn)).symm, hap⟩

/-- The interval of a lock is one that was made. -/
theorem lt_of_node : n < res.created := by
  rcases h.granted_or_apart hn with ⟨-, hm⟩ | ⟨-, rfl, -⟩
  · exact h.node_lt _ n hm.mem
  · by_contra hlt
    rw [(h.fresh n (not_lt.mp hlt)).2] at hn
    cases hn

/-- A lock with an interval outside the tree of its mode is not granted. -/
theorem apart (hout : n ∉ ids (trees (res.lock l).lReqMode)) :
    l ∉ res.lrGranted ∧ n = l ∧ res.Apart trees l :=
  (h.granted_or_apart hn).resolve_left fun hm => hout hm.2.mem

/-- A lock with an interval in the tree of its mode is granted. -/
theorem inTree
    (hin : n ∈ ids (trees (res.lock l).lReqMode)) : l ∈ res.lrGranted ∧ res.InTree trees l n := by
  refine (h.granted_or_apart hn).resolve_right ?_
  rintro ⟨-, rfl, hap⟩
  exact hap.not_mem _ hin

end

/-- A node is in the tree of one mode only. -/
theorem mode_unique {mode' : LdlmMode} (hn : n ∈ ids (trees mode))
    (hn' : n ∈ ids (trees mode')) : mode = mode' := by
  obtain ⟨k, hk⟩ := exists_mem_of_ne_nil _ (h.group_ne mode n hn)
  rw [← h.group_mode mode n hn k hk, h.group_mode mode' n hn' k hk]

/-- The trees are no larger than the fuel. -/
theorem length_lt (mode : LdlmMode) : (ids (trees mode)).length + 1 < res.fuel := by
  have hnd := (h.owns mode).stored.placed.nodup
  rw [ctxIds, append_nil] at hnd
  have hsub := hnd.subperm fun n hn => mem_range.mpr (h.node_lt mode n hn)
  have hle := hsub.length_le
  rw [length_range] at hle
  exact Nat.succ_lt_succ (Nat.lt_succ_of_le hle)

/-- The locks of a node in a tree are granted there. -/
theorem of_group (hn : n ∈ ids (trees mode)) (hl : l ∈ res.liGroup n) :
    l ∈ res.lrGranted ∧ (res.lock l).lReqMode = mode ∧ res.InTree trees l n := by
  have hmode := h.group_mode mode n hn l hl
  have hnode := (h.attached l n).mp hl
  obtain ⟨hgr, hin⟩ := h.inTree hnode (by rw [hmode]; exact hn)
  exact ⟨hgr, hmode, hin⟩

/-- The nodes of a tree are the intervals of the granted locks of its mode. -/
theorem tracks (mode : LdlmMode) : Tracks (res.lrItree mode).litRoot (trees mode)
      ((ids (trees mode)).map fun n => (n, ((res.lrItree mode).litRoot.node n).inExtent)) := by
  refine ⟨h.owns mode, fun n e => ?_⟩
  rw [mem_map]
  constructor
  · rintro ⟨m, hm, heq⟩
    cases heq
    exact ⟨hm, rfl⟩
  · rintro ⟨hn, rfl⟩
    exact ⟨n, hn, rfl⟩

/-- Every node of a tree is the interval of a granted lock. -/
theorem exists_lock (hn : n ∈ ids (trees mode)) :
    ∃ l ∈ res.lrGranted, (res.lock l).lGrantedMode = mode ∧
      ((res.lrItree mode).litRoot.node n).inExtent = (res.lock l).lExtent.interval ∧
      (res.lock l).lExtent.start ≤ (res.lock l).lExtent.stop := by
  obtain ⟨l, hl⟩ := exists_mem_of_ne_nil _ (h.group_ne mode n hn)
  obtain ⟨hgr, rfl, hin⟩ := h.of_group hn hl
  exact ⟨l, hgr, hin.mode, hin.extent, hin.start_le⟩

end

end Inv

/-! ## What the steps keep -/

theorem inv_new : extentResourceNew.Inv fun _ => .nil := by
  constructor
  case owns => exact fun _ => (tracks_empty ⟨rfl, fun _ => rfl⟩).owns
  case node_lt => exact fun _ n hn => absurd hn not_mem_nil
  case group_ne => exact fun _ n hn => absurd hn not_mem_nil
  case group_mode => exact fun _ n hn => absurd hn not_mem_nil
  case attached => simp [extentResourceNew, extentLockBlank]
  case granted => exact fun l hl => absurd hl not_mem_nil
  case ungranted => exact fun _ _ => .inl rfl
  case nodup => exact nodup_nil
  case fresh => exact fun _ _ => ⟨not_mem_nil, rfl⟩

/-- The interval of a granted lock only depends on the lock, its tree and the node. -/
theorem InTree.congr {trees' : LdlmMode → CellTree} (hn : res.InTree trees l n)
    (hlock : res'.lock l = res.lock l)
    (hmem : n ∈ ids (trees (res.lock l).lReqMode) → n ∈ ids (trees' (res.lock l).lReqMode))
    (hext : n ∈ ids (trees (res.lock l).lReqMode) →
      ((res'.lrItree (res.lock l).lReqMode).litRoot.node n).inExtent =
        ((res.lrItree (res.lock l).lReqMode).litRoot.node n).inExtent) :
    res'.InTree trees' l n := by
  constructor
  case mode => rw [hlock]; exact hn.mode
  case mode_ne => rw [hlock]; exact hn.mode_ne
  case node => rw [hlock]; exact hn.node
  case mem => rw [hlock]; exact hmem hn.mem
  case extent => rw [hlock, hext hn.mem]; exact hn.extent
  case start_le => rw [hlock]; exact hn.start_le

/-- The trees where one of them is replaced. -/
theorem Inv.owns_update (h : res.Inv trees)
    (hother : ∀ m, m ≠ mode → res'.lrItree m = res.lrItree m)
    (hnew : Owns (res'.lrItree mode).litRoot t') (m : LdlmMode) :
    Owns (res'.lrItree m).litRoot (update trees mode t' m) := by
  by_cases hm : m = mode
  · subst hm
    rw [update_self]
    exact hnew
  · rw [update_of_ne hm, hother m hm]
    exact h.owns m

/-- Writing to what the trees do not depend on. -/
theorem Inv.setLock (h : res.Inv trees) {f : ExtentLock → ExtentLock}
    (hnode : (f (res.lock l)).lTreeNode = (res.lock l).lTreeNode)
    (hmode : (f (res.lock l)).lReqMode = (res.lock l).lReqMode)
    (hgranted : l ∈ res.lrGranted → (f (res.lock l)).lGrantedMode = (res.lock l).lGrantedMode ∧
      (f (res.lock l)).lExtent = (res.lock l).lExtent) : (res.setLock l f).Inv trees := by
  have hnodes : ∀ k, ((res.setLock l f).lock k).lTreeNode = (res.lock k).lTreeNode := by
    intro k
    by_cases hk : k = l
    · rw [hk, setLock_lock_self, hnode]
    · rw [setLock_lock_of_ne _ _ _ hk]
  constructor
  case owns => exact h.owns
  case node_lt => exact h.node_lt
  case group_ne => exact h.group_ne
  case group_mode =>
    intro mode n hn k hk
    rw [← h.group_mode mode n hn k hk]
    by_cases hkl : k = l
    · rw [hkl, setLock_lock_self, hmode]
    · rw [setLock_lock_of_ne _ _ _ hkl]
  case attached => exact fun k n => (h.attached k n).trans (by rw [hnodes])
  case granted =>
    intro k hk
    obtain ⟨n, hn⟩ := h.granted k hk
    refine ⟨n, ?_⟩
    by_cases hkl : k = l
    · subst hkl
      obtain ⟨hg, he⟩ := hgranted hk
      have hlock := setLock_lock_self res k f
      constructor
      case mode => rw [hlock, hg, hmode, hn.mode]
      case mode_ne => rw [hlock, hmode]; exact hn.mode_ne
      case node => rw [hlock, hnode]; exact hn.node
      case mem => rw [hlock, hmode]; exact hn.mem
      case extent => rw [hlock, hmode, he]; exact hn.extent
      case start_le => rw [hlock, he]; exact hn.start_le
    · exact hn.congr (setLock_lock_of_ne _ _ _ hkl) id fun _ => rfl
  case ungranted =>
    intro k hk
    rw [hnodes]
    exact (h.ungranted k hk).imp_right fun hap => ⟨(hnodes k).trans hap.node, hap.group, hap.not_mem⟩
  case nodup => exact h.nodup
  case fresh => exact fun k hk => ⟨(h.fresh k hk).1, (hnodes k).trans (h.fresh k hk).2⟩

/-- A new lock has an interval of its own. -/
theorem Inv.create (h : res.Inv trees) {extent : LdlmExtent} {lExport : Option ℕ}
    {noExpansion : Bool} (hrun : ldlmLockCreate res mode extent lExport noExpansion = some res') :
    res'.Inv trees := by
  obtain ⟨-, hrun⟩ := of_lassert hrun
  have hres' := Option.some.inj hrun
  have hlock : ∀ k, k ≠ res.created → res'.lock k = res.lock k := by
    intro k hk
    rw [← hres', setLock_lock_of_ne _ _ _ hk, setGroup_lock, setGroup_lock,
      setLock_lock_of_ne _ _ _ hk]
  have hnode : (res'.lock res.created).lTreeNode = some res.created := by
    rw [← hres', setLock_lock_self]
    rfl
  have hgroup : ∀ n, n ≠ res.created → res'.liGroup n = res.liGroup n := by
    intro n hn
    rw [← hres', setLock_liGroup, setGroup_liGroup_of_ne _ _ _ hn, setGroup_liGroup_of_ne _ _ _ hn,
      setLock_liGroup]
  have hown : res'.liGroup res.created = [res.created] := by
    rw [← hres', setLock_liGroup, setGroup_liGroup_self, setGroup_liGroup_self, nil_append]
  have htree : res'.lrItree = res.lrItree := by rw [← hres']; rfl
  have hgr : res'.lrGranted = res.lrGranted := by rw [← hres']; rfl
  have hcreated : res'.created = res.created + 1 := by rw [← hres']; rfl
  have hnew : ∀ mode, res.created ∉ ids (trees mode) := fun mode hin =>
    lt_irrefl _ (h.node_lt mode _ hin)
  have hne : ∀ mode, ∀ n ∈ ids (trees mode), n ≠ res.created := by
    rintro mode n hn rfl
    exact hnew mode hn
  constructor
  case owns => rw [htree]; exact h.owns
  case node_lt =>
    intro mode n hn
    rw [hcreated]
    exact Nat.lt_succ_of_lt (h.node_lt mode n hn)
  case group_ne =>
    intro mode n hn
    rw [hgroup n (hne mode n hn)]
    exact h.group_ne mode n hn
  case group_mode =>
    intro mode n hn k hk
    rw [hgroup n (hne mode n hn)] at hk
    have hkc : k ≠ res.created := by
      rintro rfl
      rw [h.attached, (h.fresh _ le_rfl).2] at hk
      cases hk
    rw [hlock k hkc]
    exact h.group_mode mode n hn k hk
  case attached =>
    intro k n
    by_cases hk : k = res.created <;> by_cases hn : n = res.created
    · rw [hk, hn, hown, hnode]
      simp
    · -- the new lock is in no other group
      have hno : k ∉ res.liGroup n := by
        rw [h.attached, hk, (h.fresh _ le_rfl).2]
        nofun
      rw [hk] at hno ⊢
      rw [hgroup n hn, hnode]
      exact iff_of_false hno fun heq => hn (Option.some.inj heq).symm
    · have hno : (res.lock k).lTreeNode ≠ some res.created := fun heq =>
        lt_irrefl _ (h.lt_of_node heq)
      rw [hn, hown, hlock k hk]
      exact iff_of_false (fun hin => hk (mem_singleton.mp hin)) hno
    · rw [hgroup n hn, hlock k hk]
      exact h.attached k n
  case granted =>
    intro k hk
    rw [hgr] at hk
    obtain ⟨n, hn⟩ := h.granted k hk
    have hkc : k ≠ res.created := fun heq => (h.fresh k heq.symm.le).1 hk
    exact ⟨n, hn.congr (hlock k hkc) id fun _ => by rw [htree]⟩
  case ungranted =>
    intro k hk
    rw [hgr] at hk
    by_cases hkc : k = res.created
    · rw [hkc]
      exact .inr ⟨hnode, hown, hnew⟩
    · rw [hlock k hkc]
      refine (h.ungranted k hk).imp_right fun hap => ⟨?_, ?_, hap.not_mem⟩
      · rw [hlock k hkc]
        exact hap.node
      · rw [hgroup k hkc]
        exact hap.group
  case nodup => rw [hgr]; exact h.nodup
  case fresh =>
    intro k hk
    rw [hgr, hlock k (by omega)]
    exact h.fresh k (by omega)

/-- What granting a lock does: it enters the group of a node with its extent, its own one or one
of the tree. -/
structure Enters (res res' : ExtentResource) (trees : LdlmMode → CellTree) (t' : CellTree) (l n : ℕ) :
    Prop where
  lock_ne : ∀ k, k ≠ l → res'.lock k = res.lock k
  lock : res'.lock l = (res.lock l).setTreeNode (some n)
  attached : ∀ k j, k ∈ res'.liGroup j ↔ (res'.lock k).lTreeNode = some j
  group : ∀ j, j ≠ l → j ≠ n → res'.liGroup j = res.liGroup j
  itree : ∀ mode, mode ≠ (res.lock l).lReqMode → res'.lrItree mode = res.lrItree mode
  owns : Owns (res'.lrItree (res.lock l).lReqMode).litRoot t'
  mem_ids : ∀ j, j ∈ ids t' ↔ j = n ∨ j ∈ ids (trees (res.lock l).lReqMode)
  own : n = l ∨ n ∈ ids (trees (res.lock l).lReqMode)
  extent_ne : ∀ j ∈ ids (trees (res.lock l).lReqMode),
    ((res'.lrItree (res.lock l).lReqMode).litRoot.node j).inExtent =
      ((res.lrItree (res.lock l).lReqMode).litRoot.node j).inExtent
  start_le : (res.lock l).lExtent.start ≤ (res.lock l).lExtent.stop
  extent : ((res'.lrItree (res.lock l).lReqMode).litRoot.node n).inExtent =
    (res.lock l).lExtent.interval
  granted : res'.lrGranted = res.lrGranted ++ [l]
  created : res'.created = res.created

theorem Inv.enter (h : res.Inv trees) (hl : l ∉ res.lrGranted) (hap : res.Apart trees l)
    (hmode : (res.lock l).lGrantedMode = (res.lock l).lReqMode)
    (hne : (res.lock l).lReqMode ≠ .minmode) (he : Enters res res' trees t' l n) :
    res'.Inv (update trees (res.lock l).lReqMode t') := by
  have hlt : l < res.created := h.lt_of_node hap.node
  -- in every tree there are the nodes that were there, and perhaps `n`
  have hids : ∀ mode j, j ∈ ids (update trees (res.lock l).lReqMode t' mode) ↔
      mode = (res.lock l).lReqMode ∧ j = n ∨ j ∈ ids (trees mode) := by
    intro mode j
    by_cases hm : mode = (res.lock l).lReqMode
    · rw [hm, update_self, he.mem_ids, eq_self, true_and]
    · rw [update_of_ne hm, eq_false hm, false_and, false_or]
  constructor
  case owns => exact h.owns_update he.itree he.owns
  case node_lt =>
    intro mode j hj
    rw [he.created]
    rcases (hids mode j).mp hj with ⟨-, rfl⟩ | hj
    · rcases he.own with rfl | hin
      · exact hlt
      · exact h.node_lt _ j hin
    · exact h.node_lt mode j hj
  case group_ne =>
    intro mode j hj
    rcases (hids mode j).mp hj with ⟨-, rfl⟩ | hin
    · refine ne_nil_of_mem ((he.attached l j).mpr ?_)
      rw [he.lock]
      rfl
    · -- some lock other than `l` was there, and still is
      obtain ⟨k, hk⟩ := exists_mem_of_ne_nil _ (h.group_ne mode j hin)
      have hkj := (h.attached k j).mp hk
      have hkl : k ≠ l := by
        rintro rfl
        cases hap.node.symm.trans hkj
        exact hap.not_mem mode hin
      refine ne_nil_of_mem ((he.attached k j).mpr ?_)
      rw [he.lock_ne k hkl]
      exact hkj
  case group_mode =>
    intro mode j hj k hk
    have hkj := (he.attached k j).mp hk
    by_cases hkl : k = l
    · subst hkl
      rw [he.lock] at hkj ⊢
      cases hkj
      rcases (hids mode n).mp hj with ⟨rfl, -⟩ | hin
      · rfl
      · rcases he.own with rfl | hin'
        · exact absurd hin (hap.not_mem mode)
        · exact h.mode_unique hin' hin
    · rw [he.lock_ne k hkl] at hkj ⊢
      have hin := (h.attached k j).mpr hkj
      rcases (hids mode j).mp hj with ⟨rfl, rfl⟩ | hj'
      · rcases he.own with rfl | hin'
        · rw [hap.group] at hin
          exact absurd (mem_singleton.mp hin) hkl
        · exact h.group_mode _ j hin' k hin
      · exact h.group_mode mode j hj' k hin
  case attached => exact he.attached
  case granted =>
    intro k hk
    rw [he.granted, mem_append, mem_singleton] at hk
    by_cases hkl : k = l
    · subst hkl
      have hlock := he.lock
      refine ⟨n, ?_⟩
      constructor
      case mode => rw [hlock]; exact hmode
      case mode_ne => rw [hlock]; exact hne
      case node => rw [hlock]; rfl
      case mem => rw [hlock]; exact (hids _ n).mpr (.inl ⟨rfl, rfl⟩)
      case extent => rw [hlock]; exact he.extent
      case start_le => rw [hlock]; exact he.start_le
    · obtain ⟨j, hj⟩ := h.granted k (hk.resolve_right hkl)
      refine ⟨j, hj.congr (he.lock_ne k hkl) (fun hin => (hids _ j).mpr (.inr hin)) fun hin => ?_⟩
      by_cases hm : (res.lock k).lReqMode = (res.lock l).lReqMode
      · rw [hm] at hin ⊢
        exact he.extent_ne j hin
      · rw [he.itree _ hm]
  case ungranted =>
    intro k hk
    rw [he.granted, mem_append, mem_singleton, not_or] at hk
    rw [he.lock_ne k hk.2]
    refine (h.ungranted k hk.1).imp_right fun hk' => ?_
    have hkn : k ≠ n := by
      rintro rfl
      rcases he.own with heq | hin
      · exact hk.2 heq
      · exact hk'.not_mem _ hin
    refine ⟨?_, ?_, fun mode hin => ?_⟩
    · rw [he.lock_ne k hk.2]
      exact hk'.node
    · rw [he.group k hk.2 hkn]
      exact hk'.group
    · exact hk'.not_mem mode (((hids mode k).mp hin).resolve_left fun heq => hkn heq.2)
  case nodup =>
    rw [he.granted]
    exact h.nodup.append (nodup_singleton l) (disjoint_singleton.mpr hl)
  case fresh =>
    intro k hk
    rw [he.created] at hk
    have hkl : k ≠ l := fun heq => not_lt.mpr hk (heq ▸ hlt)
    rw [he.granted, mem_append, mem_singleton, he.lock_ne k hkl]
    exact ⟨fun hin => (h.fresh k hk).1 (hin.resolve_right hkl), (h.fresh k hk).2⟩

theorem detach_eq (hn : (res.lock l).lTreeNode = some n) (hg : res.liGroup n ≠ []) :
    ldlmIntervalDetach res l = some (if (res.liGroup n).filter (· ≠ l) = [] then some n else none,
        (res.setLock l (·.setTreeNode none)).setGroup n ((res.liGroup n).filter (· ≠ l))) := by
  rw [ldlmIntervalDetach, hn]
  exact lassert_pos hg

/-- A lock whose extent is in the tree joins the group there. -/
structure Joins (res res' : ExtentResource) (l found : ℕ) : Prop where
  lock_ne : ∀ k, k ≠ l → res'.lock k = res.lock k
  lock : res'.lock l = (res.lock l).setTreeNode (some found)
  group_own : res'.liGroup l = []
  group_found : res'.liGroup found = res.liGroup found ++ [l]
  group_ne : ∀ j, j ≠ l → j ≠ found → res'.liGroup j = res.liGroup j
  itree : res'.lrItree = res.lrItree
  granted : res'.lrGranted = res.lrGranted
  created : res'.created = res.created

theorem joins_of_eq (hnode : (res.lock l).lTreeNode = some l) (hgroup : res.liGroup l = [l])
    {found : ℕ} (hfound : found ≠ l) (hrun : ldlmExtentJoin res l (some found) = some res') :
    Joins res res' l found := by
  have hempty : (res.liGroup l).filter (· ≠ l) = [] := by
    rw [hgroup]
    simp
  rw [ldlmExtentJoin, detach_eq hnode (by rw [hgroup]; simp), hempty, if_pos rfl] at hrun
  dsimp only [Option.bind_eq_bind, Option.bind_some] at hrun
  obtain ⟨res1, hfree, hrun⟩ := Option.bind_eq_some_iff.mp hrun
  obtain rfl := Option.some.inj (of_lassert (of_lassert hfree).2).2
  obtain ⟨-, hrun⟩ := of_lassert hrun
  rw [← Option.some.inj hrun]
  constructor
  case lock_ne =>
    intro k hk
    rw [setLock_lock_of_ne _ _ _ hk, setGroup_lock, setGroup_lock, setLock_lock_of_ne _ _ _ hk]
  case lock =>
    rw [setLock_lock_self, setGroup_lock, setGroup_lock, setLock_lock_self]
    rfl
  case group_own =>
    rw [setLock_liGroup, setGroup_liGroup_of_ne _ _ _ hfound.symm, setGroup_liGroup_self]
  case group_found =>
    rw [setLock_liGroup, setGroup_liGroup_self, setGroup_liGroup_of_ne _ _ _ hfound,
      setLock_liGroup]
  case group_ne =>
    intro j hj hjf
    rw [setLock_liGroup, setGroup_liGroup_of_ne _ _ _ hjf, setGroup_liGroup_of_ne _ _ _ hj,
      setLock_liGroup]
  case itree => rfl
  case granted => rfl
  case created => rfl

theorem Joins.attached {found : ℕ} (hj : Joins res res' l found)
    (hatt : ∀ k j, k ∈ res.liGroup j ↔ (res.lock k).lTreeNode = some j)
    (hgroup : res.liGroup l = [l]) (hfound : found ≠ l) (k j : ℕ) :
    k ∈ res'.liGroup j ↔ (res'.lock k).lTreeNode = some j := by
  have hnode : (res.lock l).lTreeNode = some l := (hatt l l).mp (by rw [hgroup]; simp)
  have hnode' : (res'.lock l).lTreeNode = some found := congrArg ExtentLock.lTreeNode hj.lock
  by_cases hjl : j = l
  · -- nobody is left in its own group
    rw [hjl, hj.group_own]
    refine iff_of_false not_mem_nil fun hk => ?_
    by_cases hkl : k = l
    · rw [hkl, hnode'] at hk
      exact hfound (Option.some.inj hk)
    · rw [hj.lock_ne k hkl] at hk
      have hin := (hatt k l).mpr hk
      rw [hgroup] at hin
      exact hkl (mem_singleton.mp hin)
  by_cases hkl : k = l
  · rw [hkl, hnode']
    by_cases hjf : j = found
    · rw [hjf, hj.group_found]
      simp
    · have hno : l ∉ res.liGroup j := by
        rw [hatt, hnode]
        exact fun heq => hjl (Option.some.inj heq).symm
      rw [hj.group_ne j hjl hjf]
      exact iff_of_false hno fun heq => hjf (Option.some.inj heq).symm
  · rw [hj.lock_ne k hkl, ← hatt]
    by_cases hjf : j = found
    · rw [hjf, hj.group_found, mem_append, mem_singleton]
      exact or_iff_left hkl
    · rw [hj.group_ne j hjl hjf]

/-- `ldlm_extent_add_lock` makes a lock that is not granted enter a tree. -/
theorem Inv.addLock (h : res.Inv trees) (hrun : ldlmExtentAddLock res l = some res') :
    ∃ n t', l ∉ res.lrGranted ∧ res.Apart trees l ∧
      (res.lock l).lGrantedMode = (res.lock l).lReqMode ∧ (res.lock l).lReqMode ≠ .minmode ∧
      Enters res res' trees t' l n := by
  obtain ⟨hmode, hrun⟩ := of_lassert hrun
  obtain ⟨n, hn, hrun⟩ := Option.bind_eq_some_iff.mp hrun
  obtain ⟨hout, hrun⟩ := of_lassert hrun
  obtain ⟨hne, hrun⟩ := of_lassert hrun
  obtain ⟨root, hset, hrun⟩ := Option.bind_eq_some_iff.mp hrun
  obtain ⟨⟨found, root'⟩, hins, hrun⟩ := Option.bind_eq_some_iff.mp hrun
  obtain ⟨res1, hjoin, hadd⟩ := Option.bind_eq_some_iff.mp hrun
  obtain ⟨-, hadd⟩ := of_lassert hadd
  have hres' := Option.some.inj hadd
  rw [hmode] at hout hne hset hjoin
  have hout' : n ∉ ids (trees (res.lock l).lReqMode) := by
    rw [← h.isIntree, hout]
    exact Bool.false_ne_true
  obtain ⟨hl, rfl, hap⟩ := h.apart hn hout'
  have hfuel := h.length_lt (res.lock n).lReqMode
  have hle := not_lt.mp (Option.ite_none_left_eq_some.mp hset).1
  obtain ⟨k, t', hfound, howns, hmem, hext, hsame⟩ := (h.owns _).setInsert res.fuel hout'
    (Nat.lt_of_succ_lt hfuel) hset hins
  refine ⟨k, t', hl, hap, hmode, hne, ?_⟩
  rcases hfound with ⟨rfl, rfl⟩ | ⟨rfl, hk⟩
  · -- its own interval is in the tree now
    cases hjoin
    rw [← hres']
    constructor
    case lock_ne => exact fun _ _ => rfl
    case lock => rw [← hap.node]; rfl
    case attached => exact h.attached
    case group => exact fun _ _ _ => rfl
    case itree => exact fun mode hm => setTree_lrItree_of_ne _ _ _ hm
    case owns => rw [setTree_lrItree_self]; exact howns
    case mem_ids => exact hmem
    case own => exact .inl rfl
    case extent_ne => rw [setTree_lrItree_self]; exact hsame
    case start_le => exact hle
    case extent => rw [setTree_lrItree_self]; exact hext
    case granted => rfl
    case created => rfl
  · -- it leaves its own interval for the one found
    have hkn : k ≠ n := fun heq => hout' (heq ▸ hk)
    have hj : Joins (res.setTree (res.lock n).lReqMode
        ⟨(res.lrItree (res.lock n).lReqMode).litSize + 1, root'⟩) res1 n k := by
      apply joins_of_eq _ _ hkn hjoin
      · exact hap.node
      · exact hap.group
    have htree := congrFun hj.itree (res.lock n).lReqMode
    rw [setTree_lrItree_self] at htree
    rw [← hres']
    constructor
    case lock_ne => exact hj.lock_ne
    case lock => exact hj.lock
    case attached => exact hj.attached h.attached hap.group hkn
    case group => exact hj.group_ne
    case itree =>
      intro mode hm
      exact (congrFun hj.itree mode).trans (setTree_lrItree_of_ne _ _ _ hm)
    case owns => rw [htree]; exact howns
    case mem_ids => exact hmem
    case own => exact .inr hk
    case extent_ne => rw [htree]; exact hsame
    case start_le => exact hle
    case extent => rw [htree]; exact hext
    case granted => exact congrArg (· ++ [n]) hj.granted
    case created => exact hj.created

/-- `ldlm_grant_lock` keeps the invariant. -/
theorem Inv.grant (h : res.Inv trees) (hrun : ldlmGrantLock res l = some res') :
    ∃ trees', res'.Inv trees' := by
  have h1 : (res.setLock l fun k => { k with lGrantedMode := k.lReqMode }).Inv trees := by
    refine h.setLock rfl rfl fun hl => ⟨?_, rfl⟩
    obtain ⟨n, hn⟩ := h.granted l hl
    exact hn.mode.symm
  obtain ⟨n, t', hl, hap, hmode, hne, he⟩ := h1.addLock hrun
  exact ⟨_, h1.enter hl hap hmode hne he⟩

/-- What unlinking a lock does: it leaves its group, and the last one takes the node with it. -/
structure Leaves (res res' : ExtentResource) (trees : LdlmMode → CellTree) (t' : CellTree) (l n : ℕ) :
    Prop where
  lock_ne : ∀ k, k ≠ l → res'.lock k = res.lock k
  lock : res'.lock l = (res.lock l).setTreeNode none
  group : res'.liGroup n = (res.liGroup n).filter (· ≠ l)
  group_ne : ∀ j, j ≠ n → res'.liGroup j = res.liGroup j
  itree : ∀ mode, mode ≠ (res.lock l).lReqMode → res'.lrItree mode = res.lrItree mode
  owns : Owns (res'.lrItree (res.lock l).lReqMode).litRoot t'
  /-- keeps its nodes, except one with an empty group -/
  mem_ids : ∀ j, j ∈ ids t' ↔ j ∈ ids (trees (res.lock l).lReqMode) ∧
    (j = n → (res.liGroup n).filter (· ≠ l) ≠ [])
  extent : ∀ j, ((res'.lrItree (res.lock l).lReqMode).litRoot.node j).inExtent =
    ((res.lrItree (res.lock l).lReqMode).litRoot.node j).inExtent
  granted : res'.lrGranted = res.lrGranted.filter (· ≠ l)
  created : res'.created = res.created

theorem Leaves.attached (hv : Leaves res res' trees t' l n)
    (hatt : ∀ k j, k ∈ res.liGroup j ↔ (res.lock k).lTreeNode = some j)
    (hnode : (res.lock l).lTreeNode = some n) (k j : ℕ) :
    k ∈ res'.liGroup j ↔ (res'.lock k).lTreeNode = some j := by
  have hnode' : (res'.lock l).lTreeNode = none := congrArg ExtentLock.lTreeNode hv.lock
  by_cases hkl : k = l
  · rw [hkl, hnode']
    refine iff_of_false (fun hin => ?_) nofun
    by_cases hjn : j = n
    · rw [hjn, hv.group] at hin
      simp at hin
    · rw [hv.group_ne j hjn, hatt, hnode] at hin
      exact hjn (Option.some.inj hin).symm
  · rw [hv.lock_ne k hkl, ← hatt]
    by_cases hjn : j = n
    · rw [hjn, hv.group, mem_filter, decide_eq_true_iff]
      exact and_iff_left hkl
    · rw [hv.group_ne j hjn]

section

variable (h : res.Inv trees)
include h

theorem Inv.leave (hin : res.InTree trees l n) (hv : Leaves res res' trees t' l n) :
    res'.Inv (update trees (res.lock l).lReqMode t') := by
  have hatt := hv.attached h.attached hin.node
  -- a node is still there if it has a lock
  have hids : ∀ mode j, j ∈ ids (update trees (res.lock l).lReqMode t' mode) ↔
      j ∈ ids (trees mode) ∧ (mode = (res.lock l).lReqMode → j = n → res'.liGroup n ≠ []) := by
    intro mode j
    by_cases hm : mode = (res.lock l).lReqMode
    · subst hm
      rw [update_self, hv.mem_ids, hv.group, eq_self, forall_true_left]
    · rw [update_of_ne hm]
      exact (and_iff_left fun heq => absurd heq hm).symm
  constructor
  case owns => exact h.owns_update hv.itree hv.owns
  case node_lt =>
    intro mode j hj
    rw [hv.created]
    exact h.node_lt mode j ((hids mode j).mp hj).1
  case group_ne =>
    intro mode j hj
    by_cases hjn : j = n
    · subst hjn
      by_cases hm : mode = (res.lock l).lReqMode
      · exact ((hids mode j).mp hj).2 hm rfl
      · exact absurd (h.mode_unique ((hids mode j).mp hj).1 hin.mem) hm
    · rw [hv.group_ne j hjn]
      exact h.group_ne mode j ((hids mode j).mp hj).1
  case group_mode =>
    intro mode j hj k hk
    have hkj := (hatt k j).mp hk
    have hkl : k ≠ l := by
      rintro rfl
      rw [hv.lock] at hkj
      cases hkj
    rw [hv.lock_ne k hkl] at hkj ⊢
    exact h.group_mode mode j ((hids mode j).mp hj).1 k ((h.attached k j).mpr hkj)
  case attached => exact hatt
  case granted =>
    intro k hk
    rw [hv.granted, mem_filter, decide_eq_true_iff] at hk
    obtain ⟨j, hj⟩ := h.granted k hk.1
    have hlock := hv.lock_ne k hk.2
    have hne : res'.liGroup j ≠ [] := by
      refine ne_nil_of_mem ((hatt k j).mpr ?_)
      rw [hlock]
      exact hj.node
    refine ⟨j, hj.congr hlock (fun hin => (hids _ j).mpr ⟨hin, ?_⟩) fun _ => ?_⟩
    · rintro - rfl
      exact hne
    by_cases hm : (res.lock k).lReqMode = (res.lock l).lReqMode
    · rw [hm]
      exact hv.extent j
    · rw [hv.itree _ hm]
  case ungranted =>
    intro k hk
    by_cases hkl : k = l
    · rw [hkl]
      exact .inl (congrArg ExtentLock.lTreeNode hv.lock)
    · rw [hv.granted, mem_filter, decide_eq_true_iff] at hk
      rw [hv.lock_ne k hkl]
      refine (h.ungranted k fun hin => hk ⟨hin, hkl⟩).imp_right fun hk' => ?_
      have hkn : k ≠ n := fun heq => hk'.not_mem _ (heq ▸ hin.mem)
      refine ⟨?_, ?_, fun mode hin => hk'.not_mem mode ((hids mode k).mp hin).1⟩
      · rw [hv.lock_ne k hkl]
        exact hk'.node
      · rw [hv.group_ne k hkn]
        exact hk'.group
  case nodup =>
    rw [hv.granted]
    exact h.nodup.filter _
  case fresh =>
    intro k hk
    rw [hv.created] at hk
    have hkl : k ≠ l := by
      rintro rfl
      have hnone := (h.fresh k hk).2
      rw [hin.node] at hnone
      cases hnone
    rw [hv.granted, mem_filter, hv.lock_ne k hkl]
    exact ⟨fun hin => (h.fresh k hk).1 hin.1, (h.fresh k hk).2⟩

/-- The trees do not depend on the waiting list. -/
theorem Inv.setWaiting (waiting : List ℕ) :
    { res with lrWaiting := waiting : ExtentResource }.Inv trees := by
  refine { h with granted := fun k hk => ?_, ungranted := fun k hk => ?_ }
  · obtain ⟨n, hn⟩ := h.granted k hk
    exact ⟨n, hn.congr rfl id fun _ => rfl⟩
  · exact (h.ungranted k hk).imp_right fun hap => { hap with }

/-- The lists may lose a lock that is not granted. -/
theorem Inv.unlinked (hl : l ∉ res.lrGranted) : { res with
      lrGranted := res.lrGranted.filter (· ≠ l)
      lrWaiting := res.lrWaiting.filter (· ≠ l) : ExtentResource }.Inv trees := by
  have hsame : res.lrGranted.filter (· ≠ l) = res.lrGranted := by
    refine filter_eq_self.mpr fun k hk => decide_eq_true ?_
    rintro rfl
    exact hl hk
  rw [hsame]
  exact h.setWaiting _

/-- Taking the node of an empty group out of its tree. -/
theorem Inv.drop (hn : n ∈ ids (trees mode)) {res1 : ExtentResource}
    (htree : (res1.lrItree mode).litRoot = (res.lrItree mode).litRoot)
    (hcreated : res1.created = res.created) (hrun : ldlmExtentDrop res1 mode (some n) = some res') :
    ∃ root' t', res' = res1.setTree mode ⟨(res1.lrItree mode).litSize, root'⟩ ∧ Owns root' t' ∧
      (∀ j, j ∈ ids t' ↔ j ∈ ids (trees mode) ∧ j ≠ n) ∧
      ∀ j, (root'.node j).inExtent = ((res.lrItree mode).litRoot.node j).inExtent := by
  have hfuel := h.length_lt mode
  have hnd := (h.owns mode).stored.placed.nodup
  rw [ctxIds, append_nil] at hnd
  obtain ⟨root', t', hcall, howns, hperm, hext⟩ := (h.owns mode).erase res.fuel hn hfuel
  have hnt : n ∉ ids t' := (nodup_cons.mp (hperm.nodup_iff.mp hnd)).1
  rw [ldlmExtentDrop, htree, fuel, hcreated, ← fuel, hcall] at hrun
  have hres' := Option.some.inj (of_lassert (of_lassert hrun).2).2
  refine ⟨root', t', hres'.symm, howns, fun j => ?_, hext⟩
  rw [hperm.mem_iff, mem_cons]
  constructor
  · intro hj
    exact ⟨.inr hj, fun heq => hnt (heq ▸ hj)⟩
  · rintro ⟨hj, hne⟩
    exact hj.resolve_left hne

/-- `ldlm_extent_unlink_lock` of a granted lock. -/
theorem Inv.unlinkLock (hin : res.InTree trees l n)
    (hrun : ldlmResourceUnlinkLock res l = some res') : ∃ t', Leaves res res' trees t' l n := by
  have hgroup : res.liGroup n ≠ [] := h.group_ne _ n hin.mem
  have hintree : ¬res.isIntree (res.lock l).lReqMode n = false := by
    rw [h.isIntree.mpr hin.mem]
    decide
  obtain ⟨res1, hrun, hlists⟩ := Option.bind_eq_some_iff.mp hrun
  have hres' := Option.some.inj hlists
  rw [ldlmExtentUnlinkLock, hin.node] at hrun
  dsimp only at hrun
  rw [if_neg hintree] at hrun
  obtain ⟨-, hrun⟩ := of_lassert hrun
  obtain ⟨-, hrun⟩ := of_lassert hrun
  have hdetach : ∀ tree, ldlmIntervalDetach (res.setTree (res.lock l).lGrantedMode tree) l =
      some (if (res.liGroup n).filter (· ≠ l) = [] then some n else none,
        ((res.setTree (res.lock l).lGrantedMode tree).setLock l (·.setTreeNode none)).setGroup n
          ((res.liGroup n).filter (· ≠ l))) := fun _ => detach_eq hin.node hgroup
  rw [hdetach, hin.mode] at hrun
  generalize hmid : setGroup _ n _ = mid at hrun
  have hlock : ∀ k, k ≠ l → mid.lock k = res.lock k := by
    intro k hk
    rw [← hmid, setGroup_lock, setLock_lock_of_ne _ _ _ hk, setTree_lock]
  have hlockl : mid.lock l = (res.lock l).setTreeNode none := by
    rw [← hmid, setGroup_lock, setLock_lock_self, setTree_lock]
  have hgroupn : mid.liGroup n = (res.liGroup n).filter (· ≠ l) := by
    rw [← hmid, setGroup_liGroup_self]
  have hgroupj : ∀ j, j ≠ n → mid.liGroup j = res.liGroup j := by
    intro j hj
    rw [← hmid, setGroup_liGroup_of_ne _ _ _ hj, setLock_liGroup, setTree_liGroup]
  have htree : (mid.lrItree (res.lock l).lReqMode).litRoot =
      (res.lrItree (res.lock l).lReqMode).litRoot := by
    rw [← hmid, setGroup_lrItree, setLock_lrItree, setTree_lrItree_self]
  have htreem : ∀ mode, mode ≠ (res.lock l).lReqMode → mid.lrItree mode = res.lrItree mode := by
    intro mode hm
    rw [← hmid, setGroup_lrItree, setLock_lrItree, setTree_lrItree_of_ne _ _ _ hm]
  have hgranted : mid.lrGranted = res.lrGranted := by rw [← hmid]; rfl
  have hcreated : mid.created = res.created := by rw [← hmid]; rfl
  by_cases hlast : (res.liGroup n).filter (· ≠ l) = []
  · -- the last lock of the group
    rw [if_pos hlast] at hrun
    obtain ⟨root', t', rfl, howns, hmem, hext⟩ := h.drop hin.mem htree hcreated hrun
    refine ⟨t', ?_⟩
    rw [← hres']
    constructor
    case lock_ne => exact hlock
    case lock => exact hlockl
    case group => exact hgroupn
    case group_ne => exact hgroupj
    case itree =>
      intro mode hm
      exact (setTree_lrItree_of_ne _ _ _ hm).trans (htreem mode hm)
    case owns => rw [setTree_lrItree_self]; exact howns
    case mem_ids =>
      intro j
      rw [hmem]
      exact and_congr_right fun _ => ⟨fun hne heq => absurd heq hne, fun hne heq => hne heq hlast⟩
    case extent => rw [setTree_lrItree_self]; exact hext
    case granted => exact congrArg (filter (· ≠ l)) hgranted
    case created => exact hcreated
  · rw [if_neg hlast] at hrun
    cases hrun
    refine ⟨trees (res.lock l).lReqMode, ?_⟩
    rw [← hres']
    constructor
    case lock_ne => exact hlock
    case lock => exact hlockl
    case group => exact hgroupn
    case group_ne => exact hgroupj
    case itree => exact htreem
    case owns => rw [htree]; exact h.owns _
    case mem_ids => exact fun j => ⟨fun hj => ⟨hj, fun _ => hlast⟩, fun hj => hj.1⟩
    case extent => rw [htree]; exact fun _ => rfl
    case granted => exact congrArg (filter (· ≠ l)) hgranted
    case created => exact hcreated

/-- `ldlm_resource_unlink_lock` keeps the invariant. -/
theorem Inv.unlink (hrun : ldlmResourceUnlinkLock res l = some res') :
    ∃ trees', res'.Inv trees' := by
  by_cases hl : l ∈ res.lrGranted
  · obtain ⟨n, hin⟩ := h.granted l hl
    obtain ⟨t', hv⟩ := h.unlinkLock hin hrun
    exact ⟨_, h.leave hin hv⟩
  · -- a lock that is not granted is in no tree
    refine ⟨trees, ?_⟩
    have hsame : ldlmExtentUnlinkLock res l = some res := by
      rcases h.ungranted l hl with hnone | hap
      · rw [ldlmExtentUnlinkLock, hnone]
      · have hout : res.isIntree (res.lock l).lReqMode l = false := by
          rw [← Bool.not_eq_true, h.isIntree]
          exact hap.not_mem _
        rw [ldlmExtentUnlinkLock, hap.node]
        exact if_pos hout
    rw [ldlmResourceUnlinkLock, hsame] at hrun
    rw [← Option.some.inj hrun]
    exact h.unlinked hl

end

end ExtentResource

theorem extentStep_inv (h : ∃ trees, res.Inv trees) {op : ExtentOp}
    (hrun : extentStep res op = some res') : ∃ trees, res'.Inv trees := by
  obtain ⟨trees, h⟩ := h
  cases op with
  | create mode extent lExport noExpansion => exact ⟨trees, h.create hrun⟩
  | wait l =>
    obtain ⟨-, hrun⟩ := of_lassert hrun
    cases hrun
    exact ⟨trees, h.setWaiting _⟩
  | grant l => exact h.grant hrun
  | unlink l => exact h.unlink hrun
  | setKmsIgnore l =>
    cases hrun
    exact ⟨trees, h.setLock rfl rfl fun _ => ⟨rfl, rfl⟩⟩

/-- **In every run the trees are the granted list.** -/
theorem extentRun_inv {ok : ExtentResource → ExtentOp → Prop}
    (h : Reach extentStep ok extentResourceNew res) : ∃ trees, res.Inv trees :=
  h.invariant (fun res => ∃ trees, res.Inv trees) ⟨_, ExtentResource.inv_new⟩
    fun _ _ _ hinv _ hstep => extentStep_inv hinv hstep

/-- **Searching a tree replaces scanning the granted list**: in every run `interval_search` goes
through different intervals whose locks are the granted locks of the mode that overlap. -/
theorem extentTree_finds (hrun : Reach extentStep (fun _ _ => True) extentResourceNew res)
    (mode : LdlmMode) (ext : IntervalExtent) : ∃ ns, Nodup ns ∧
      (∀ {σ : Type} (func : σ → ℕ → Option (σ × IntervalIter)) (data : σ),
        intervalSearch ext func res.fuel (res.lrItree mode).litRoot data = runIter func data ns) ∧
      ∀ l, (∃ n ∈ ns, l ∈ res.liGroup n) ↔ l ∈ res.lrGranted ∧ (res.lock l).lGrantedMode = mode ∧
        extentOverlapped ext (res.lock l).lExtent.interval = true := by
  obtain ⟨trees, h⟩ := extentRun_inv hrun
  have howns := h.owns mode
  have hfuel := Nat.lt_of_succ_lt (h.length_lt mode)
  refine ⟨_, howns.nodup_searchList ext, howns.search ext hfuel, fun l => ?_⟩
  constructor
  · rintro ⟨n, hn, hl⟩
    obtain ⟨hn, hov⟩ := (howns.mem_searchList ext).mp hn
    obtain ⟨hgr, rfl, hin⟩ := h.of_group hn hl
    exact ⟨hgr, hin.mode, hin.extent ▸ hov⟩
  · rintro ⟨hgr, rfl, hov⟩
    obtain ⟨n, hin⟩ := h.granted l hgr
    rw [← hin.extent, ← hin.mode] at hov
    have hn := (howns.mem_searchList ext).mpr ⟨hin.mode ▸ hin.mem, hov⟩
    exact ⟨n, hn, (h.attached l n).mpr hin.node⟩

/-- Two readers of one extent, one behind them and a writer: a search at 5 among the readers finds
the first two. -/
theorem extentTree_finds_two : ∃ res ns, Reach extentStep (fun _ _ => True) extentResourceNew res ∧
    res.lrGranted.length = 4 ∧ Nodup ns ∧
    (∀ {σ : Type} (func : σ → ℕ → Option (σ × IntervalIter)) (data : σ),
      intervalSearch ⟨5, 5⟩ func res.fuel (res.lrItree .pr).litRoot data = runIter func data ns) ∧
    ∀ l, (∃ n ∈ ns, l ∈ res.liGroup n) ↔ l = 0 ∨ l = 1 := by
  obtain ⟨res, hrun, hlen, hfound, h0, h1⟩ : ∃ res,
      Reach extentStep (fun _ _ => True) extentResourceNew res ∧ res.lrGranted.length = 4 ∧
      (∀ l ∈ res.lrGranted, (res.lock l).lGrantedMode = .pr →
        extentOverlapped ⟨5, 5⟩ (res.lock l).lExtent.interval = true → l = 0 ∨ l = 1) ∧
      (0 ∈ res.lrGranted ∧ (res.lock 0).lGrantedMode = .pr ∧
        extentOverlapped ⟨5, 5⟩ (res.lock 0).lExtent.interval = true) ∧
      1 ∈ res.lrGranted ∧ (res.lock 1).lGrantedMode = .pr ∧
        extentOverlapped ⟨5, 5⟩ (res.lock 1).lExtent.interval = true :=
    exists_reach [.create .pr ⟨0, 9, 0⟩ none false, .grant 0, .create .pr ⟨0, 9, 0⟩ none false,
      .grant 1, .create .pr ⟨20, 29, 0⟩ none false, .grant 2, .create .pw ⟨0, 9, 0⟩ none false,
      .grant 3] (by decide +kernel)
  obtain ⟨ns, hnd, hsearch, hl⟩ := extentTree_finds hrun .pr ⟨5, 5⟩
  refine ⟨res, ns, hrun, hlen, hnd, hsearch, fun l => (hl l).trans ⟨fun h => ?_, ?_⟩⟩
  · exact hfound l h.1 h.2.1 h.2.2
  · rintro (rfl | rfl)
    · exact h0
    · exact h1

end Inv

end Lustre
