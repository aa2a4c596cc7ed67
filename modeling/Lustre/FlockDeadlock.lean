import Lustre.FlockRecords

/-!
# Flock deadlock detection

The record of a blocker is made when a request is queued and never again: when a
scan of the waiting queue leaves a request waiting for somebody else, the record
is stale. A stale record hides cycles and shows cycles that are not there.

In the runs where no scan leaves a stale record behind, the records are part of
the real wait-for relation and have no cycle (`DeadlockInv`). It follows that no
deadlock is missed (`flock_noDeadlock`), and, when an owner does not unlock while
it waits itself, that none is reported which is not there
(`flock_deadlock_real`).
-/

namespace Lustre

open List FlockServer

open Relation
open Option (some_ne_none)
open TransGen (mono)

/-! ## One operation -/

variable (env : FlockEnv) (s : FlockServer) (op : FlockOp)

/-- The premises on an enqueue: a proper request of a live client, and an owner
has at most one blocked request. -/
structure FlockUse : Prop where
  /-- a proper request -/
  proper : op.Proper
  /-- the client is alive and can be told of deadlocks -/
  alive : env.Alive op.lExport
  /-- if the request is queued, its owner did not wait before -/
  single : ∀ out, flockEnqueue env s op = some out →
    (∃ w ∈ out.view.lrWaiting, w.id = s.nextId) →
    ∀ r, ∀ w ∈ s.lrWaiting r, w.key ≠ (op.req s.nextId).key

/-- When the scan reaches a request, nothing blocks it any more or the owner on
record still does. -/
def BlockerStays : Prop :=
  ∀ out, flockEnqueue env s op = some out → ∀ c ∈ out.calls,
    (∃ g ∈ c.view.lrGranted, Conflicts g c.req) →
    ∃ g ∈ c.view.lrGranted, Conflicts g c.req ∧ g.key = c.req.blockKey

/-- No other export with the nid of the requester's serves the same owner. -/
def NidApart : Prop :=
  ∀ e, Known s (op.owner, some e) →
    (env.obdExport e).nid = (env.obdExport op.lExport).nid → e = op.lExport

/-- The state between operations: the records are right and have no cycle. -/
structure DeadlockInv : Prop where
  /-- every waiting request is blocked by the owner on record -/
  settled : Settled OnRecord s
  /-- the hash is in order -/
  hash : HashInv env (Known s) s

/-- The owners known once the request has come. -/
def KnownWith (k : ℕ × Option ℕ) : Prop :=
  Known s k ∨ k = (op.req s.nextId).key

section Step

variable {env : FlockEnv} {s s' : FlockServer} {op : FlockOp} {out : FlockOut}

namespace DeadlockInv

section

variable (h : DeadlockInv env s)
include h

section

variable (halive : env.Alive op.lExport) (hnid : NidApart env s op)
include halive hnid

theorem knownOwners : KnownOwners env (KnownWith s op) where
  alive k hk := by
    rcases hk with hk | rfl
    · exact h.hash.owners.alive k hk
    · exact ⟨op.lExport, rfl, halive⟩
  apart o e e' hk hk' heq := by
    rcases hk with hk | hk
    · rcases hk' with hk' | hk'
      · exact h.hash.owners.apart o e e' hk hk' heq
      · obtain ⟨rfl, he⟩ := Prod.mk.inj hk'
        cases he
        exact hnid e hk heq
    · obtain ⟨rfl, he⟩ := Prod.mk.inj hk
      cases he
      rcases hk' with hk' | hk'
      · exact (hnid e' hk' heq.symm).symm
      · exact (Option.some.inj (Prod.mk.inj hk').2).symm

omit halive hnid in
theorem blockedBy {r : ℕ} {w : FlockLock}
    (hw : w ∈ s.lrWaiting r) : BlockedBy (s.lrGranted r) w w.blockKey := by
  obtain ⟨k, hk, hb⟩ := ((h.settled r).blocked w hw).resolve_left not_mem_nil
  exact hk ▸ hb

omit halive hnid in
/-- The hash as the walk for a new request finds it, the request included. -/
theorem walkable {req' : FlockLock}
    (hkey : req'.key = (op.req s.nextId).key) (hblock : Known s req'.blockKey) :
    Walkable (KnownWith s op) req'.key (req' :: s.flockHash) where
  keys := forall_mem_cons.mpr ⟨.inr hkey, fun w hw => .inl (h.hash.keys w hw)⟩
  blockers := forall_mem_cons.mpr ⟨.inl hblock, fun w hw => .inl (h.hash.blockers w hw)⟩
  single a ha b hb heq hne := by
    rcases mem_cons.mp ha with rfl | ha
    · exact absurd rfl hne
    · rcases mem_cons.mp hb with rfl | hb
      · exact absurd heq hne
      · exact h.hash.single a ha b hb heq

/-- What the walk for a new request says about the records without it. -/
theorem deadlock_iff {lock req' : FlockLock} {hash : List FlockLock} {b : Bool}
    (hmem : lock ∈ s.lrGranted op.rid) (hc : Conflicts lock (op.req s.nextId))
    (hlink : ldlmFlockBlockingLink s.flockHash (op.req s.nextId) lock = some (req', hash))
    (hdead : ldlmFlockDeadlock env hash req' lock = some b) :
    b = true ↔ TransGen (Records s.flockHash) lock.key (op.req s.nextId).key := by
  obtain ⟨rfl, -, hkey, hblock⟩ := ldlmFlockBlockingLink_some (some_ne_none _) hlink
  have hlock : Known s lock.key := .inl ⟨op.rid, lock, hmem, rfl⟩
  have hne : lock.key ≠ req'.key := hkey ▸ hc.key
  rw [ldlmFlockDeadlock_iff (h.knownOwners halive hnid) (h.walkable hkey (hblock ▸ hlock))
    (.inr hkey) (.inl hlock) hne hdead, ← hkey]
  constructor
  · -- before it reaches the requester the path does not use the new record
    exact mono (fun p q hpq => hpq.2.of_cons hpq.1) _ _
  · exact fun hpath => mono (fun p q hpq =>
      ⟨hpq.1, hpq.2.mono fun w hw => mem_cons_of_mem _ hw⟩) _ _ (transGen_avoid hpath hne)

/-- The walk for a new request returns: no assertion fails, it takes at most one turn for each
record and one for the request's own, and it says whether the records lead to the requester. -/
theorem deadlock_returns {lock : FlockLock} (hmem : lock ∈ s.lrGranted op.rid)
    (hc : Conflicts lock (op.req s.nextId)) : ∃ req' b blExp, lock.lExport = some blExp ∧
      ldlmFlockBlockingLink s.flockHash (op.req s.nextId) lock =
        some (req', req' :: s.flockHash) ∧
      ldlmFlockDeadlock env (req' :: s.flockHash) req' lock = some b ∧
      (∀ turns, s.flockHash.length < turns → ldlmFlockDeadlockLoop env (req' :: s.flockHash) req'
        op.lExport turns lock.flockOwner blExp = some b) ∧
      (b = true ↔ TransGen (Records s.flockHash) lock.key (op.req s.nextId).key) := by
  have hfresh : ∀ w ∈ s.flockHash, w.id ≠ s.nextId := fun w hw => Nat.ne_of_lt (h.hash.fresh w hw)
  have hnone : ¬ (s.flockHash.any fun l => l.id = (op.req s.nextId).id) = true := by
    rw [any_eq_true]
    rintro ⟨w, hw, hid⟩
    exact hfresh w hw (of_decide_eq_true hid)
  have hlink : ∃ p, ldlmFlockBlockingLink s.flockHash (op.req s.nextId) lock = some p := by
    have hexp : (op.req s.nextId).lExport ≠ none := some_ne_none _
    rw [ldlmFlockBlockingLink, if_neg hexp, if_neg hnone]
    exact ⟨_, rfl⟩
  obtain ⟨⟨req', hash⟩, hlink⟩ := hlink
  obtain ⟨rfl, hid, hkey, hblock⟩ := ldlmFlockBlockingLink_some (some_ne_none _) hlink
  have hlock : Known s lock.key := .inl ⟨op.rid, lock, hmem, rfl⟩
  have hself : ∀ w ∈ req' :: s.flockHash, w.id = req'.id → w.key = req'.key :=
    forall_mem_cons.mpr ⟨fun _ => rfl, fun w hw heq => absurd (heq.trans hid) (hfresh w hw)⟩
  have hac : Acyclic fun p q => p ≠ req'.key ∧ Records (req' :: s.flockHash) p q :=
    h.hash.acyclic.mono fun p q hpq => hpq.2.of_cons hpq.1
  obtain ⟨blExp, hbe, -⟩ := h.hash.owners.alive _ hlock
  obtain ⟨b, hb, hturns⟩ := ldlmFlockDeadlock_returns (h.knownOwners halive hnid)
    (h.walkable hkey (hblock ▸ hlock)) (.inr hkey) (.inl hlock) (hkey ▸ hc.key) mem_cons_self
    hself hac (congrArg Prod.snd hkey) hbe
  exact ⟨req', b, blExp, hbe, hlink, hb, hturns, h.deadlock_iff halive hnid hmem hc hlink hb⟩

end

/-- The request leaves, granted or not, and nobody is woken. -/
theorem leave (hK : KnownOwners env (KnownWith s op))
    {v : FlockView} (hgranted : ∀ g ∈ v.lrGranted, KnownWith s op g.key)
    (hwaiting : v.lrWaiting = (s.lrWaiting op.rid).filter fun l => l.id ≠ s.nextId)
    (hhash : ∀ w, w ∈ v.flockHash ↔ w ∈ s.flockHash ∧ w.id ≠ s.nextId)
    (hnext : s.nextId + 1 ≤ v.nextId) : HashInv env (KnownWith s op) (s.put op.rid v) :=
  (h.hash.more hK fun _ => .inl).remove
    (fun w hw hid => absurd hid (Nat.ne_of_lt (h.hash.fresh w hw))) hgranted hwaiting hhash
    (Nat.le_of_succ_le hnext)

theorem rescan {v1 : FlockView} (hinv : HashInv env (KnownWith s op) (s.put op.rid v1))
    (hg : Granted (s.viewAt op) (op.req s.nextId) v1) :
    Rescan env (KnownWith s op) s op.rid (op.req s.nextId).key v1 v1.lrWaiting := by
  have hold : ∀ w ∈ v1.lrWaiting, w ∈ s.lrWaiting op.rid := fun w hw =>
    mem_of_mem_filter (hg.waiting ▸ hw)
  have hsettled : Scanned OnRecord (s.viewAt op) [] := (h.settled op.rid).congr rfl rfl
  refine ⟨hsettled.unlock hg, hinv, fun _ hw => hw, put_waiting_self ▸ hinv.nodup op.rid,
    fun w hw => ?_, fun w hw => ?_⟩
  · rw [hg.hash, mem_ldlmFlockBlockingUnlink (some_ne_none _)] at hw
    exact hw.1
  · by_cases hu : w.blockKey = (op.req s.nextId).key
    · exact .inl hu
    · exact .inr ((hg.blockedBy_other hsettled.wf
        ((h.settled op.rid).waiter w (hold w hw)).request.ranged hu).mpr (h.blockedBy (hold w hw)))

end

end DeadlockInv

/-- What an operation leaves, what each call of its scan finds, and what its own
report means. -/
structure Enqueued (env : FlockEnv) (s : FlockServer) (op : FlockOp) (out : FlockOut) : Prop where
  inv : HashInv env (KnownWith s op) (s.put op.rid out.view)
  report : ∀ lock, out.deadlock = some lock → lock ∈ s.lrGranted op.rid ∧
    Conflicts lock (op.req s.nextId) ∧
    TransGen (Records s.flockHash) lock.key (op.req s.nextId).key
  calls : ∀ c ∈ out.calls, op.mode = .nl ∧ ∃ rest out',
    Rescan env (KnownWith s op) s op.rid (op.req s.nextId).key c.view (c.req :: rest) ∧
    c.deadlock = out'.deadlock ∧
    ldlmProcessFlockLock env (fun v => some ⟨v, [], []⟩) (op.alloc c.req.id) c.view c.req
      FlockFlags.zero .rescan = some out'

theorem DeadlockInv.enqueue (h : DeadlockInv env s) (huse : FlockUse env s op)
    (hspared : SparedBy OnRecord env s op) (hnid : NidApart env s op)
    (hout : flockEnqueue env s op = some out) : Enqueued env s op out := by
  have hK := h.knownOwners huse.alive hnid
  have hexp : (op.req s.nextId).lExport ≠ none := some_ne_none _
  have hwf : FlockWf (s.viewAt op).lrGranted := (h.settled op.rid).wf
  have hkeep : ∀ g ∈ s.lrGranted op.rid, KnownWith s op g.key := fun g hg =>
    .inl (h.hash.granted op.rid g hg)
  have hsame : ∀ w, w ∈ s.flockHash ↔ w ∈ s.flockHash ∧ w.id ≠ s.nextId := fun w =>
    ⟨fun hw => ⟨hw, Nat.ne_of_lt (h.hash.fresh w hw)⟩, And.left⟩
  have hgrant : ∀ v1, Granted (s.viewAt op) (op.req s.nextId) v1 →
      HashInv env (KnownWith s op) (s.put op.rid v1) := fun v1 hgr => by
    refine h.leave hK (fun g hg => ?_) hgr.waiting (fun w => ?_) hgr.next
    · rcases hgr.key hg with hk | ⟨g', hg', hk⟩
      · exact .inr hk
      · exact hk ▸ hkeep g' hg'
    · rw [hgr.hash]
      exact mem_ldlmFlockBlockingUnlink hexp
  have hsilent : out.deadlock = none → ∀ lock, out.deadlock = some lock →
      lock ∈ s.lrGranted op.rid ∧ Conflicts lock (op.req s.nextId) ∧
        TransGen (Records s.flockHash) lock.key (op.req s.nextId).key :=
    fun hd _ h' => absurd (hd.symm.trans h') (some_ne_none _).symm
  have hcase := flockProcess_cases hwf (huse.proper.req s.nextId) hout
  cases hcase with
  | rejected _ hd hcalls hdrop =>
    refine ⟨?_, hsilent hd, fun c hc => absurd (hcalls ▸ hc) not_mem_nil⟩
    refine h.leave hK (by rw [hdrop.granted]; exact hkeep) hdrop.waiting (fun w => ?_)
      hdrop.next.symm.le
    rcases hdrop.hash with hhash | hhash
    · rw [hhash]
      exact hsame w
    · rw [hhash]
      exact mem_ldlmFlockBlockingUnlink hexp
  | refused lock req' hash _ hd _ hcalls _ hmem hc hlink hdead hdrop hhash =>
    have hreport := (h.deadlock_iff huse.alive hnid hmem hc hlink hdead).mp rfl
    obtain ⟨rfl, hid, hkey, -⟩ := ldlmFlockBlockingLink_some hexp hlink
    have hexp' : req'.lExport ≠ none := (Prod.mk.inj hkey).2 ▸ hexp
    have hid' : req'.id = s.nextId := hid
    refine ⟨?_, fun lock' h' => ?_, fun c hc => absurd (hcalls ▸ hc) not_mem_nil⟩
    · refine h.leave hK (by rw [hdrop.granted]; exact hkeep) (hid' ▸ hdrop.waiting) (fun w => ?_)
        hdrop.next.symm.le
      rw [hhash, mem_ldlmFlockBlockingUnlink hexp', mem_cons, hid']
      constructor
      · rintro ⟨rfl | hw, hne⟩
        · exact absurd hid' hne
        · exact ⟨hw, hne⟩
      · exact fun hw => ⟨.inr hw.1, hw.2⟩
    · cases hd.symm.trans h'
      exact ⟨hmem, hc, hreport⟩
  | queued lock req' hash _ hd hcalls _ hmem hc hlink hdead hview =>
    have hpath := (h.deadlock_iff huse.alive hnid hmem hc hlink hdead).not.mp Bool.false_ne_true
    obtain ⟨rfl, hid, hkey, hblock⟩ := ldlmFlockBlockingLink_some hexp hlink
    refine ⟨?_, hsilent hd, fun c hc => absurd (hcalls ▸ hc) not_mem_nil⟩
    have hnew := huse.single out hout ⟨_, by
      rw [hview]
      exact mem_append_right _ (mem_singleton.mpr rfl), hid⟩
    refine (h.hash.more hK fun _ => .inl).add (.inr hkey) (hblock ▸ hkeep lock hmem)
      (by rw [hblock, hkey]; exact hc.key) (fun w hw => ?_) hid (by rw [hblock, hkey]; exact hpath)
      (by rw [hview]; rfl) (by rw [hview]; rfl) (by rw [hview]; rfl)
      (by rw [hview]; exact le_rfl)
    obtain ⟨r, hw⟩ := (h.hash.mem w).mp hw
    exact hkey ▸ hnew r w hw
  | stillBlocked _ _ _ _ _ hint | cancelled _ _ _ _ _ hint => exact absurd rfl hint
  | granted _ hd _ _ hend =>
    cases hend with
    | quiet hgr hcalls _ =>
      exact ⟨hgrant _ hgr, hsilent hd, fun c hc => absurd (hcalls ▸ hc) not_mem_nil⟩
    | rescan v1 r hgr _ hnl hrep hview hcalls =>
      obtain ⟨-, hgood⟩ := hspared out hout
      obtain ⟨hend, hall⟩ := ldlmReprocessQueue_rule
        (Rescan env (KnownWith s op) s op.rid (op.req s.nextId).key)
        (SparedCall OnRecord op.alloc)
        (fun v w queue out hP hgood hrun => hP.call hgood hrun) v1.lrWaiting v1 r
        (h.rescan (hgrant v1 hgr) hgr) hrep (hcalls ▸ hgood)
      exact ⟨hview ▸ hend.inv, hsilent hd, fun c hc => ⟨hnl, hall c (hcalls ▸ hc)⟩⟩

/-- A spared operation whose scan leaves no stale record. -/
theorem FlockSpared.onRecord (hspared : FlockSpared env s op) (hstays : BlockerStays env s op) :
    SparedBy OnRecord env s op := by
  intro out hout
  obtain ⟨hkeeps, hcalls⟩ := hspared out hout
  refine ⟨hkeeps, fun c hc => ⟨(hcalls c hc).1, (hcalls c hc).2, fun hb => ?_⟩⟩
  obtain ⟨_, g, hg, hcon, -⟩ := hb
  obtain ⟨g', hg', hcon', hk⟩ := hstays out hout c hc ⟨g, hg, hcon⟩
  exact ⟨_, rfl, g', hg', hcon', hk⟩

theorem DeadlockInv.step (h : DeadlockInv env s) (huse : FlockUse env s op)
    (hspared : FlockSpared env s op) (hstays : BlockerStays env s op) (hnid : NidApart env s op)
    (hstep : flockStep env s op = some s') : DeadlockInv env s' := by
  have hby := hspared.onRecord hstays
  refine ⟨h.settled.step huse.proper hby (fun hash lock req' hash' hlink => ?_) hstep, ?_⟩
  · exact (ldlmFlockBlockingLink_some (some_ne_none _) hlink).2.2.2.symm
  · obtain ⟨out, hout, rfl⟩ := Option.map_eq_some_iff.mp hstep
    exact (h.enqueue huse hby hnid hout).inv.known

theorem deadlockInv_start (env : FlockEnv) : DeadlockInv env .start := by
  have hgranted : ∀ r g, g ∉ start.lrGranted r := fun _ _ => not_mem_nil
  have hwait : ∀ r w, w ∉ start.lrWaiting r := fun _ _ => not_mem_nil
  have hhash : ∀ w, w ∉ start.flockHash := fun _ => not_mem_nil
  have hknown : ∀ k, ¬ Known .start k := by
    rintro k (⟨r, g, hg, -⟩ | ⟨w, hw, -⟩)
    · exact hgranted r g hg
    · exact hhash w hw
  exact ⟨settled_start _, {
    owners := ⟨fun k hk => absurd hk (hknown k), fun o e _ hk => absurd hk (hknown _)⟩
    granted := fun r g hg => absurd hg (hgranted r g)
    keys := fun w hw => absurd hw (hhash w)
    blockers := fun w hw => absurd hw (hhash w)
    mem := fun w => ⟨fun hw => absurd hw (hhash w), fun ⟨r, hw⟩ => absurd hw (hwait r w)⟩
    place := fun r _ w hw => absurd hw (hwait r w)
    single := fun a ha => absurd ha (hhash a)
    ids := fun a ha => absurd ha (hhash a)
    fresh := fun a ha => absurd ha (hhash a)
    nodup := fun _ => List.Pairwise.nil
    acyclic := fun k hk => by
      obtain ⟨_, ⟨w, hw, -⟩, -⟩ := TransGen.head'_iff.mp hk
      exact hhash w hw }⟩

end Step

/-! ## Missed deadlocks -/

/-- The owner `k` has a waiting request that only locks of `k'` block. -/
def OnlyWaitsFor (k k' : ℕ × Option ℕ) : Prop :=
  ∃ r, ∃ w ∈ s.lrWaiting r, w.key = k ∧ ∀ g ∈ s.lrGranted r, Conflicts g w → g.key = k'

/-- A cycle of owners each of which waits for the next only. -/
def Deadlocked : Prop := ∃ k, TransGen (OnlyWaitsFor s) k k

variable {s : FlockServer} {env : FlockEnv}

theorem DeadlockInv.not_deadlocked (h : DeadlockInv env s) : ¬ Deadlocked s := by
  rintro ⟨k, hk⟩
  -- the only owner that blocks a request is the one on record
  refine h.hash.acyclic k (mono (fun p q hpq => ?_) k k hk)
  obtain ⟨r, w, hw, rfl, honly⟩ := hpq
  obtain ⟨g, hg, hc, hgk⟩ := h.blockedBy hw
  exact ⟨w, (h.hash.mem w).mpr ⟨r, hw⟩, rfl, hgk.symm.trans (honly g hg hc)⟩

/-- What the operations of a run must meet for the records to stay right. -/
structure FlockFollowed (env : FlockEnv) (s : FlockServer) (op : FlockOp) : Prop where
  /-- nobody loses a wake-up -/
  spared : FlockSpared env s op
  /-- no scan leaves a stale record -/
  stays : BlockerStays env s op
  /-- nids tell owners apart -/
  nid : NidApart env s op

theorem deadlockInv_of_reach
    (h : Reach (flockStep env) (fun s op => FlockUse env s op ∧ FlockFollowed env s op) .start s) :
    DeadlockInv env s :=
  h.invariant (DeadlockInv env) (deadlockInv_start env) fun _ _ _ ht hok hstep =>
    ht.step hok.1 hok.2.spared hok.2.stays hok.2.nid hstep

/-! ### Executing runs -/

/-- Nobody waits outside the resources `R`. -/
def QuietOutside (R : List ℕ) (s : FlockServer) : Prop := ∀ r, r ∉ R → s.lrWaiting r = []

/-- A check of `FlockUse` for servers that are quiet outside `R`. -/
def flockUseCheck (env : FlockEnv) (R : List ℕ) (s : FlockServer) (op : FlockOp) : Bool :=
  op.rid ∈ R && op.mode ∈ [LdlmMode.pr, .pw, .nl] && (op.req 0).Ranged &&
    !op.flags.isWaitNoreproc && op.lExport ∈ env.obdNidHash &&
    (env.obdExport op.lExport).hasFlockHash && !(env.obdExport op.lExport).failed &&
    (env.obdExport op.lExport).flockDead &&
    R.all fun r => (s.lrWaiting r).all fun w => w.key ≠ (op.req s.nextId).key

variable {R : List ℕ}

theorem flockUse_of_check {op : FlockOp}
    (hq : QuietOutside R s) (h : flockUseCheck env R s op = true) : FlockUse env s op := by
  simp only [flockUseCheck, Bool.and_eq_true, decide_eq_true_eq, Bool.not_eq_true',
    all_eq_true] at h
  obtain ⟨⟨⟨⟨⟨⟨⟨⟨-, hmode⟩, hrange⟩, hserver⟩, hlisted⟩, hhash⟩, hfailed⟩, hdead⟩, hidle⟩ := h
  refine ⟨⟨⟨hrange, ?_⟩, hserver⟩, ⟨hlisted, hhash, hfailed, hdead⟩, fun _ _ _ r w hw => ?_⟩
  · simpa [FlockOp.req, newFlock] using hmode
  · by_cases hr : r ∈ R
    · exact hidle r hr w hw
    · rw [hq r hr] at hw
      exact absurd hw not_mem_nil

theorem QuietOutside.step {s s' : FlockServer} {op : FlockOp}
    (hq : QuietOutside R s) (h : flockUseCheck env R s op = true)
    (hstep : flockStep env s op = some s') : QuietOutside R s' := by
  simp only [flockUseCheck, Bool.and_eq_true, decide_eq_true_eq] at h
  obtain ⟨out, -, rfl⟩ := Option.map_eq_some_iff.mp hstep
  intro r hr
  have hne : r ≠ op.rid := fun heq => hr (heq ▸ h.1.1.1.1.1.1.1.1)
  rw [put_waiting_other hne]
  exact hq r hr

theorem reach_of_flockUseCheck (env : FlockEnv) (R : List ℕ) (ops : List FlockOp)
    (h : runChecked (flockStep env) (flockUseCheck env R) .start ops = some s) :
    Reach (flockStep env) (FlockUse env) .start s ∧ QuietOutside R s :=
  reach_of_runChecked (QuietOutside R) (fun _ _ hq hcheck => flockUse_of_check hq hcheck)
    (fun _ _ _ hq hcheck hstep => hq.step hcheck hstep) ops (fun _ _ => rfl) .start h

/-- The check of a run without readers in which no unlock finds anybody waiting. -/
def flockCalmCheck (env : FlockEnv) (R : List ℕ) (s : FlockServer) (op : FlockOp) : Bool :=
  flockUseCheck env R s op && op.mode ≠ .pr && (flockEnqueue env s op).all fun out => out.calls = []

theorem nidApart_liveClients (n : ℕ) (s : FlockServer) (op : FlockOp) :
    NidApart (liveClients n) s op := fun _ _ hnid => hnid

theorem flockFollowed_of_check {n : ℕ} {op : FlockOp}
    (h : flockCalmCheck (liveClients n) R s op = true) : FlockFollowed (liveClients n) s op := by
  simp only [flockCalmCheck, Bool.and_eq_true, decide_eq_true_eq, ne_eq] at h
  obtain ⟨⟨-, hmode⟩, hcalls⟩ := h
  have hnot : ∀ {out c}, flockEnqueue (liveClients n) s op = some out → c ∉ out.calls := by
    intro out c hout
    have hnil : out.calls = [] := by simpa [hout] using hcalls
    rw [hnil]
    exact not_mem_nil
  exact ⟨fun out hout => ⟨fun _ hpr => absurd hpr hmode, fun c hc => absurd hc (hnot hout)⟩,
    fun out hout c hc => absurd hc (hnot hout), nidApart_liveClients n s op⟩

theorem reach_of_flockCalmCheck {n : ℕ} (R : List ℕ) (ops : List FlockOp)
    (h : runChecked (flockStep (liveClients n)) (flockCalmCheck (liveClients n) R) .start ops =
      some s) : Reach (flockStep (liveClients n)) (fun s op =>
      FlockUse (liveClients n) s op ∧ FlockFollowed (liveClients n) s op) .start s ∧
      QuietOutside R s :=
  have hboth : ∀ t op, flockCalmCheck (liveClients n) R t op = true →
      flockUseCheck (liveClients n) R t op = true := fun _ _ hc =>
    (Bool.and_eq_true_iff.mp (Bool.and_eq_true_iff.mp hc).1).1
  reach_of_runChecked (QuietOutside R)
    (fun t op hq hc => ⟨flockUse_of_check hq (hboth t op hc), flockFollowed_of_check hc⟩)
    (fun _ op _ hq hc hstep => hq.step (hboth _ op hc) hstep) ops (fun _ _ => rfl) .start h

/-- Owner 1 holds file 0 and waits for owner 2 on file 1. The walk for a wait of owner 2 on file 0
follows the record of that wait, within two turns, and reports the deadlock. -/
theorem deadlock_returns_two : ∃ s req' lock,
    Reach (flockStep (liveClients 2)) (fun s op =>
      FlockUse (liveClients 2) s op ∧ FlockFollowed (liveClients 2) s op) .start s ∧
    s.flockHash.map (fun w => (w.key, w.blockKey)) = [((1, some 0), (2, some 1))] ∧
    ldlmFlockDeadlock (liveClients 2) (req' :: s.flockHash) req' lock = some true ∧
    ldlmFlockDeadlockLoop (liveClients 2) (req' :: s.flockHash) req' 1 2 1 0 = some true := by
  have hrun := reach_of_flockCalmCheck (n := 2) [0, 1] [.plain 0 0 1 .pw 0 9,
    .plain 1 1 2 .pw 0 9, .plain 1 0 1 .pw 0 9] rfl
  obtain ⟨req', b, _, he, -, hb, hturns, hiff⟩ := (deadlockInv_of_reach hrun.1).deadlock_returns
    ⟨by decide, rfl, rfl, rfl⟩ (nidApart_liveClients 2 _ (.plain 0 1 2 .pw 0 9)) mem_cons_self
    ⟨by decide, rfl, rfl⟩
  cases he
  have hpath := hiff.mpr (.single ⟨_, mem_cons_self, rfl, rfl⟩)
  cases hpath
  exact ⟨_, req', _, hrun.1, rfl, hb, hturns 2 (by decide)⟩

/-! ### The results -/

/-- No state of a run whose scans leave no stale record holds a deadlock. -/
theorem flock_noDeadlock (env : FlockEnv) (s : FlockServer)
    (h : Reach (flockStep env) (fun s op => FlockUse env s op ∧ FlockFollowed env s op) .start s) :
    ¬ Deadlocked s :=
  (deadlockInv_of_reach h).not_deadlocked

/-- Two owners that lock two files crosswise: the second wait is refused. -/
theorem flock_noDeadlock_crosswise : ∃ s, Reach (flockStep (liveClients 2)) (fun s op =>
        FlockUse (liveClients 2) s op ∧ FlockFollowed (liveClients 2) s op) .start s ∧
      (s.lrWaiting 1).map FlockLock.key = [(1, some 0)] ∧ s.lrWaiting 0 = [] ∧ ¬ Deadlocked s := by
  have hrun := reach_of_flockCalmCheck (n := 2) [0, 1] [.plain 0 0 1 .pw 0 9,
    .plain 1 1 2 .pw 0 9, .plain 1 0 1 .pw 0 9, .plain 0 1 2 .pw 0 9] rfl
  exact ⟨_, hrun.1, by decide, by decide, flock_noDeadlock (liveClients 2) _ hrun.1⟩

/-- Owner 2 waits for owners 3 and 1 and has 3 on record. When 3 unlocks, 2 goes on
waiting for 1, and the record stays: the wait of 1 for 2 is let through. -/
theorem flock_deadlock_missed : ¬ ∀ (env : FlockEnv) (s : FlockServer),
      Reach (flockStep env) (FlockUse env) .start s → ¬ Deadlocked s := by
  intro hall
  have hrun := reach_of_flockUseCheck (liveClients 4) [0, 1] [.plain 0 2 3 .pw 0 0,
    .plain 0 0 1 .pw 1 1, .plain 1 1 2 .pw 0 0, .plain 0 1 2 .pw 0 1, .plain 0 2 3 .nl 0 0,
    .plain 1 0 1 .pw 0 0] rfl
  refine hall _ _ hrun.1 ⟨(1, some 0), .tail (b := (2, some 1)) (.single ⟨1, ?_⟩) ⟨0, ?_⟩⟩
  · decide
  · decide

/-! ## False reports -/

/-- The owner `k` has a waiting request that a lock of `k'` blocks. -/
def WaitsFor (s : FlockServer) (k k' : ℕ × Option ℕ) : Prop :=
  ∃ r, ∃ w ∈ s.lrWaiting r, w.key = k ∧ BlockedBy (s.lrGranted r) w k'

/-- A report about `req` blocked by `lock` on the resource `r` is right: they
conflict, and the owner of `lock` waits, over others perhaps, for the owner of
`req`. -/
structure RealDeadlock (s : FlockServer) (r : ℕ) (req lock : FlockLock) : Prop where
  /-- the lock is granted -/
  granted : lock ∈ s.lrGranted r
  /-- and blocks the request -/
  conflict : Conflicts lock req
  /-- the chain back to the requester -/
  chain : TransGen (WaitsFor s) lock.key req.key

/-- Every report of the operation is right, at the moment it is made: its own and
those of the scan that it starts. -/
def ReportsReal (env : FlockEnv) (s : FlockServer) (op : FlockOp) : Prop :=
  ∀ out, flockEnqueue env s op = some out →
    (∀ lock, out.deadlock = some lock → RealDeadlock s op.rid (op.req s.nextId) lock) ∧
    ∀ c ∈ out.calls, ∀ lock, c.deadlock = some lock →
      RealDeadlock (s.put op.rid c.view) op.rid c.req lock

/-- An owner does not unlock while it waits itself. -/
def UnlockerIdle (s : FlockServer) (op : FlockOp) : Prop :=
  op.mode = .nl → ∀ r, ∀ w ∈ s.lrWaiting r, w.key ≠ (op.req s.nextId).key

theorem DeadlockInv.waitsFor (h : DeadlockInv env s)
    {k k' : ℕ × Option ℕ} (hrec : Records s.flockHash k k') : WaitsFor s k k' := by
  obtain ⟨w, hw, rfl, rfl⟩ := hrec
  obtain ⟨r, hw⟩ := (h.hash.mem w).mp hw
  exact ⟨r, w, hw, rfl, h.blockedBy hw⟩

section

variable {K : ℕ × Option ℕ → Prop} {r : ℕ} {u : ℕ × Option ℕ} {v : FlockView}
  {queue : List FlockLock} (h : DeadlockInv env s)
include h

/-- In the middle of a scan a record is right or names the unlocking owner. -/
theorem Rescan.waitsFor (hscan : Rescan env K s r u v queue) {k k' : ℕ × Option ℕ}
    (hrec : Records v.flockHash k k') (hu : k' ≠ u) : WaitsFor (s.put r v) k k' := by
  obtain ⟨w, hw, rfl, rfl⟩ := hrec
  obtain ⟨r', hw⟩ := (hscan.inv.mem w).mp hw
  refine ⟨r', w, hw, rfl, ?_⟩
  by_cases hr : r' = r
  · subst hr
    rw [put_waiting_self] at hw
    rw [put_granted_self]
    exact (hscan.edges w hw).resolve_left hu
  · rw [put_waiting_other hr] at hw
    rw [put_granted_other hr]
    exact h.blockedBy hw

/-- A report of a scan is right when the unlocking owner does not wait. -/
theorem Rescan.realDeadlock {w lock : FlockLock} (hscan : Rescan env K s r u v (w :: queue))
    (hidle : ∀ x ∈ s.flockHash, x.key ≠ u) (hmem : lock ∈ v.lrGranted) (hc : Conflicts lock w)
    (hdead : ldlmFlockDeadlock env v.flockHash w lock = some true) :
    RealDeadlock (s.put r v) r w lock := by
  have hw := hscan.mem_hash (hscan.waiting w mem_cons_self)
  have hpath := (ldlmFlockDeadlock_iff hscan.inv.owners (hscan.inv.walkable w.key)
    (hscan.inv.keys w hw) (hscan.granted_known lock hmem) hc.key hdead).mp rfl
  refine ⟨put_granted_self ▸ hmem, hc, transGen_onward hpath fun p q hpq hon => ?_⟩
  refine waitsFor h hscan hpq.2 fun hq => ?_
  -- nobody on the way is the unlocking owner
  rcases hon with rfl | ⟨z, -, x, hx, hxk, -⟩
  · exact hidle w (hscan.sub w hw) hq
  · exact hidle x (hscan.sub x hx) (hxk.trans hq)

end

/-- In a run whose scans leave no stale record, every deadlock that an operation
of an owner that does not unlock while it waits reports is real. -/
theorem flock_deadlock_real (env : FlockEnv) (s : FlockServer) (op : FlockOp)
    (h : Reach (flockStep env) (fun s op => FlockUse env s op ∧ FlockFollowed env s op) .start s)
    (huse : FlockUse env s op) (hfollowed : FlockFollowed env s op) (hidle : UnlockerIdle s op) :
    ReportsReal env s op := by
  intro out hout
  have hinv := deadlockInv_of_reach h
  have henq := hinv.enqueue huse (hfollowed.spared.onRecord hfollowed.stays) hfollowed.nid hout
  refine ⟨fun lock hd => ?_, fun c hc lock hd => ?_⟩
  · obtain ⟨hmem, hcon, hpath⟩ := henq.report lock hd
    exact ⟨hmem, hcon, mono (fun p q => hinv.waitsFor) _ _ hpath⟩
  · obtain ⟨hnl, rest, out', hscan, hdeq, hrun⟩ := henq.calls c hc
    obtain ⟨hmem, hcon, hdead⟩ := (flockRescan_cases hscan.scanned.wf
      (hscan.scanned.pending c.req mem_cons_self).request
      ((hfollowed.spared out hout).2 c hc).1 hrun).2.2 lock (hdeq ▸ hd)
    refine hscan.realDeadlock hinv (fun x hx => ?_) hmem hcon hdead
    obtain ⟨r, hx⟩ := (hinv.hash.mem x).mp hx
    exact hidle hnl r x hx

/-- Two owners that lock two files crosswise: the report is right. -/
theorem flock_deadlock_real_crosswise : ∃ s out, Reach (flockStep (liveClients 2)) (fun s op =>
        FlockUse (liveClients 2) s op ∧ FlockFollowed (liveClients 2) s op) .start s ∧
      flockEnqueue (liveClients 2) s (.plain 0 1 2 .pw 0 9) = some out ∧
      out.deadlock.isSome = true ∧ ReportsReal (liveClients 2) s (.plain 0 1 2 .pw 0 9) := by
  have hrun := reach_of_flockCalmCheck (n := 2) [0, 1] [.plain 0 0 1 .pw 0 9,
    .plain 1 1 2 .pw 0 9, .plain 1 0 1 .pw 0 9] rfl
  refine ⟨_, _, hrun.1, rfl, by decide, flock_deadlock_real (liveClients 2) _ _ hrun.1
    (flockUse_of_check hrun.2 (by decide)) (flockFollowed_of_check (R := [0, 1]) (by decide)) ?_⟩
  exact fun hnl => absurd hnl (by decide)

/-- Where `k` waits for `a` and nobody else waits, no chain leads from `k` to
anybody but `a`. -/
theorem not_transGen_waitsFor {k a c : ℕ × Option ℕ} (hq : QuietOutside R s)
    (honly : ∀ r ∈ R, ∀ w ∈ s.lrWaiting r, ∀ g ∈ s.lrGranted r, Conflicts g w →
      w.key = k ∧ g.key = a) (hka : a ≠ k) (hca : c ≠ a) : ¬ TransGen (WaitsFor s) k c := by
  have hwaits : ∀ p q, WaitsFor s p q → p = k ∧ q = a := by
    rintro p q ⟨r, w, hw, rfl, g, hg, hc, rfl⟩
    by_cases hr : r ∈ R
    · exact honly r hr w hw g hg hc
    · exact absurd (hq r hr ▸ hw) not_mem_nil
  intro hchain
  rcases transGen_of_unique hchain fun q hq => (hwaits _ q hq).2 with hend | hpath
  · exact hca hend
  · obtain ⟨q, hq, -⟩ := TransGen.head'_iff.mp hpath
    exact hka (hwaits _ q hq).1

/-- Owner 2 waits for owner 1 only, with owner 3, which has unlocked, still on
record. A request of 3 for a lock of 2 is refused as a deadlock. -/
theorem flock_deadlock_false : ¬ ∀ (env : FlockEnv) (s : FlockServer) (op : FlockOp),
      Reach (flockStep env) (FlockUse env) .start s → FlockUse env s op → ReportsReal env s op := by
  intro hall
  have hrun := reach_of_flockUseCheck (liveClients 4) [0, 1] [.plain 0 2 3 .pw 0 0,
    .plain 0 0 1 .pw 1 1, .plain 1 1 2 .pw 0 0, .plain 0 1 2 .pw 0 1, .plain 0 2 3 .nl 0 0] rfl
  obtain ⟨hreal, -⟩ := hall _ _ (.plain 1 2 3 .pw 0 0) hrun.1
    (flockUse_of_check hrun.2 (by decide)) _ rfl
  have hchain := (hreal _ rfl).chain
  exact not_transGen_waitsFor hrun.2 (a := (1, some 0)) (by decide) (by decide) (by decide) hchain

end Lustre
