import Lustre.FlockServer
import Lustre.WaitGraph
import Mathlib.Data.List.Perm.Subperm

/-!
# The records of blocked flocks

A request that has to wait records one owner that blocks it, and
`ldlm_flock_deadlock` follows these records (`Records`) from the owner of the
conflicting lock. Where exports are alive and nids tell owners apart, the walk
finds out whether the records lead back to the requester
(`ldlmFlockDeadlock_iff`), and without a cycle it returns
(`ldlmFlockDeadlock_returns`).

The second half follows the hash of blocked requests through the scan of a
waiting queue (`HashInv`, `Rescan`).
-/

namespace Lustre

open List Relation

/-! ## The walk -/

/-- The owner that a waiting request has on record as its blocker. -/
def FlockLock.blockKey (l : FlockLock) : ℕ × Option ℕ := (l.blockingOwner, l.blockingExport)

/-- The recorded wait-for relation. -/
def Records (hash : List FlockLock) (k k' : ℕ × Option ℕ) : Prop :=
  ∃ w ∈ hash, w.key = k ∧ w.blockKey = k'

namespace Records

variable {hash hash' : List FlockLock} {w : FlockLock} {k k' : ℕ × Option ℕ}

theorem mono (hsub : ∀ w ∈ hash, w ∈ hash') (h : Records hash k k') : Records hash' k k' := by
  obtain ⟨w, hw, hk⟩ := h
  exact ⟨w, hsub w hw, hk⟩

theorem of_cons (h : Records (w :: hash) k k') (hne : k ≠ w.key) : Records hash k k' := by
  obtain ⟨x, hx, rfl, hk⟩ := h
  exact ⟨x, (mem_cons.mp hx).resolve_left fun heq => hne (congrArg _ heq), rfl, hk⟩

end Records

/-- An export that the deadlock check can follow. -/
structure FlockEnv.Alive (env : FlockEnv) (e : ℕ) : Prop where
  /-- it is found by its nid -/
  listed : e ∈ env.obdNidHash
  /-- it has a hash for blocked requests -/
  hash : (env.obdExport e).hasFlockHash = true
  /-- it has not failed -/
  failed : (env.obdExport e).failed = false
  /-- its client can be told of a deadlock -/
  dead : (env.obdExport e).flockDead = true

/-- Owners that the walk can tell apart: it compares nids, not exports. -/
structure KnownOwners (env : FlockEnv) (K : ℕ × Option ℕ → Prop) : Prop where
  /-- their exports are alive -/
  alive : ∀ k, K k → ∃ e, k.2 = some e ∧ env.Alive e
  /-- the owner and the nid determine the export -/
  apart : ∀ o e e', K (o, some e) → K (o, some e') →
    (env.obdExport e).nid = (env.obdExport e').nid → e = e'

theorem KnownOwners.mono {env : FlockEnv} {K K' : ℕ × Option ℕ → Prop} (h : KnownOwners env K)
    (himp : ∀ k, K' k → K k) : KnownOwners env K' :=
  ⟨fun k hk => h.alive k (himp k hk), fun o e e' hk hk' =>
    h.apart o e e' (himp _ hk) (himp _ hk')⟩

section Walk

variable {env : FlockEnv} {K : ℕ × Option ℕ → Prop} {hash : List FlockLock}
  {req lock w : FlockLock} {o e reqExp : ℕ}

/-- What is found belongs to the owner looked for. -/
theorem ldlmFlockLookup_some (hK : KnownOwners env K) (hkeys : ∀ w ∈ hash, K w.key)
    (hk : K (o, some e)) (h : ldlmFlockLookup env hash o (env.obdExport e).nid = some w) :
    w ∈ hash ∧ w.key = (o, some e) := by
  obtain ⟨e', he', hfind⟩ := exists_of_findSome?_eq_some h
  have hmem := mem_of_find?_eq_some hfind
  have hw := find?_some hfind
  simp only [Bool.and_eq_true, decide_eq_true_eq] at hw
  have hnid := of_decide_eq_true (mem_filter.mp he').2
  have hkey : w.key = (o, some e') := by rw [FlockLock.key, hw.1, hw.2]
  refine ⟨hmem, ?_⟩
  rw [hkey, hK.apart o e' e (hkey ▸ hkeys w hmem) hk hnid]

/-- When nothing is found, the owner waits for nothing. -/
theorem ldlmFlockLookup_none (halive : env.Alive e)
    (h : ldlmFlockLookup env hash o (env.obdExport e).nid = none) :
    ∀ w ∈ hash, w.key ≠ (o, some e) := by
  intro w hw hkey
  have hlisted : e ∈ env.obdNidHash.filter fun e' =>
      (env.obdExport e').nid = (env.obdExport e).nid :=
    mem_filter.mpr ⟨halive.listed, decide_eq_true rfl⟩
  have hfind := findSome?_eq_none_iff.mp h e hlisted
  have hno := find?_eq_none.mp hfind w hw
  obtain ⟨ho, he⟩ := Prod.mk.inj hkey
  simp [ho, he] at hno

/-- The blocked requests as the walk for `rk` needs them: their owners and
blockers are known, and nobody but `rk` waits twice. -/
structure Walkable (K : ℕ × Option ℕ → Prop) (rk : ℕ × Option ℕ) (hash : List FlockLock) :
    Prop where
  keys : ∀ w ∈ hash, K w.key
  blockers : ∀ w ∈ hash, K w.blockKey
  single : ∀ a ∈ hash, ∀ b ∈ hash, a.key = b.key → a.key ≠ rk → a = b

section

variable (hK : KnownOwners env K) (hhash : Walkable K req.key hash) (hreq : K req.key)
include hK hhash hreq

section

variable (hre : req.lExport = some reqExp) (hk : K (o, some e))
include hre hk

/-- One turn of the walk: the owner waits for nothing, for the requester, or for an owner at which
the walk goes on. -/
theorem ldlmFlockDeadlockLoop_turn (fuel : ℕ) :
    (∀ w ∈ hash, w.key ≠ (o, some e)) ∧
        ldlmFlockDeadlockLoop env hash req reqExp (fuel + 1) o e = some false ∨
      ∃ w ∈ hash, w.key = (o, some e) ∧ ∃ o' e', w.blockKey = (o', some e') ∧
        ldlmFlockDeadlockLoop env hash req reqExp (fuel + 1) o e =
          if w.id = req.id then none else if (o', some e') = req.key then some true
          else ldlmFlockDeadlockLoop env hash req reqExp fuel o' e' := by
  obtain ⟨_, he, halive⟩ := hK.alive _ hk
  cases he
  rw [ldlmFlockDeadlockLoop, if_neg (not_not.mpr halive.hash)]
  split
  · next hlook => exact .inl ⟨ldlmFlockLookup_none halive hlook, rfl⟩
  · next w hlook =>
    obtain ⟨hw, hkey⟩ := ldlmFlockLookup_some hK hhash.keys hk hlook
    have hblock := hhash.blockers w hw
    obtain ⟨e', he', halive'⟩ := hK.alive _ hblock
    have he' : w.blockingExport = some e' := he'
    rw [FlockLock.blockKey, he'] at hblock
    refine .inr ⟨w, hw, hkey, _, e', congrArg _ he', ?_⟩
    rw [he']
    dsimp only
    rw [if_neg (Bool.eq_false_iff.mp halive'.failed)]
    rw [FlockLock.key, hre] at hreq ⊢
    refine if_congr Iff.rfl rfl (if_congr ?_ rfl rfl)
    rw [Prod.mk.injEq, Option.some_inj]
    refine and_congr_right fun ho => ⟨fun hnid => ?_, fun heq => by rw [heq]⟩
    exact hK.apart _ _ _ (ho ▸ hblock) hreq hnid

/-- The walk finds out whether the records lead from the owner to the requester. -/
theorem ldlmFlockDeadlockLoop_iff (hne : (o, some e) ≠ req.key) {fuel : ℕ} {b : Bool}
    (h : ldlmFlockDeadlockLoop env hash req reqExp fuel o e = some b) :
    b = true ↔ TransGen (fun p q => p ≠ req.key ∧ Records hash p q) (o, some e) req.key := by
  induction fuel generalizing o e with
  | zero => cases h
  | succ fuel ih =>
    obtain ⟨hnone, hturn⟩ | ⟨w, hw, hkey, o', e', hbk, hturn⟩ :=
      ldlmFlockDeadlockLoop_turn hK hhash hreq hre hk fuel
    · rw [hturn] at h
      cases h
      refine ⟨nofun, fun hpath => ?_⟩
      obtain ⟨_, ⟨-, w, hw, hkey, -⟩, -⟩ := TransGen.head'_iff.mp hpath
      exact absurd hkey (hnone w hw)
    · have hedge : Records hash (o, some e) (o', some e') := ⟨w, hw, hkey, hbk⟩
      rw [hturn] at h
      split at h
      · cases h
      · split at h
        · next heq =>
          cases h
          exact ⟨fun _ => .single ⟨hne, heq ▸ hedge⟩, fun _ => rfl⟩
        · next hne' =>
          rw [ih (hbk ▸ hhash.blockers w hw) hne' h]
          refine ⟨fun hpath => .head ⟨hne, hedge⟩ hpath, fun hpath => ?_⟩
          -- the records of one owner are one record
          refine (transGen_of_unique hpath ?_).resolve_left (Ne.symm hne')
          rintro q ⟨-, w', hw', hkey', rfl⟩
          rw [hhash.single w' hw' w hw (hkey'.trans hkey.symm) (hkey' ▸ hne), hbk]

/-- Without a cycle in the records the walk ends: the requests that it has visited
are different ones and not the requester's own, so that the fuel outlasts them. -/
theorem ldlmFlockDeadlockLoop_returns (hmem : req ∈ hash)
    (hid : ∀ w ∈ hash, w.id = req.id → w.key = req.key)
    (hac : Acyclic fun p q => p ≠ req.key ∧ Records hash p q) (hne : (o, some e) ≠ req.key)
    {fuel : ℕ} (visited : List FlockLock) (hnd : visited.Nodup)
    (hlen : hash.length ≤ visited.length + fuel) (hvis : ∀ x ∈ visited, x ∈ hash ∧
      TransGen (fun p q => p ≠ req.key ∧ Records hash p q) x.key (o, some e)) :
    ∃ b, ldlmFlockDeadlockLoop env hash req reqExp fuel o e = some b := by
  induction fuel generalizing o e visited with
  | zero =>
    have hnew : req ∉ visited := fun hin => by
      obtain ⟨_, ⟨hkey, -⟩, -⟩ := TransGen.head'_iff.mp (hvis req hin).2
      exact hkey rfl
    have := ((nodup_cons.mpr ⟨hnew, hnd⟩).subperm
      (forall_mem_cons.mpr ⟨hmem, fun x hx => (hvis x hx).1⟩)).length_le
    rw [length_cons] at this
    omega
  | succ fuel ih =>
    obtain ⟨-, hturn⟩ | ⟨w, hw, hkey, o', e', hbk, hturn⟩ :=
      ldlmFlockDeadlockLoop_turn hK hhash hreq hre hk fuel
    · exact ⟨_, hturn⟩
    · rw [hturn, if_neg fun heq => hne (hkey ▸ hid w hw heq)]
      split
      · exact ⟨_, rfl⟩
      · next hne' =>
        have hedge : (fun p q => p ≠ req.key ∧ Records hash p q) (o, some e) (o', some e') :=
          ⟨hne, w, hw, hkey, hbk⟩
        refine ih (hbk ▸ hhash.blockers w hw) hne' (w :: visited)
          (nodup_cons.mpr ⟨fun hin => ?_, hnd⟩) (by rw [length_cons]; omega)
          (forall_mem_cons.mpr ⟨⟨hw, hkey ▸ .single hedge⟩,
            fun x hx => ⟨(hvis x hx).1, (hvis x hx).2.tail hedge⟩⟩)
        exact hac _ (hkey ▸ (hvis w hin).2)

end

variable (hlock : K lock.key) (hne : lock.key ≠ req.key)
include hlock hne

/-- `ldlm_flock_deadlock` finds out whether the records lead from the blocking
owner to the requester. -/
theorem ldlmFlockDeadlock_iff {b : Bool} (h : ldlmFlockDeadlock env hash req lock = some b) :
    b = true ↔ TransGen (fun p q => p ≠ req.key ∧ Records hash p q) lock.key req.key := by
  obtain ⟨reqExp, hre, -⟩ := hK.alive _ hreq
  obtain ⟨blExp, hbe, -⟩ := hK.alive _ hlock
  have hlockKey : lock.key = (lock.flockOwner, some blExp) := congrArg _ hbe
  rw [ldlmFlockDeadlock, show req.lExport = _ from hre, show lock.lExport = _ from hbe] at h
  rw [hlockKey] at hlock hne ⊢
  exact ldlmFlockDeadlockLoop_iff hK hhash hreq hre hlock hne h

/-- The walk returns, after at most as many turns as there are records. -/
theorem ldlmFlockDeadlock_returns (hmem : req ∈ hash)
    (hid : ∀ w ∈ hash, w.id = req.id → w.key = req.key)
    (hac : Acyclic fun p q => p ≠ req.key ∧ Records hash p q)
    (hre : req.lExport = some reqExp) (hbe : lock.lExport = some blExp) :
    ∃ b, ldlmFlockDeadlock env hash req lock = some b ∧ ∀ turns, hash.length ≤ turns →
      ldlmFlockDeadlockLoop env hash req reqExp turns lock.flockOwner blExp = some b := by
  have hlockKey : lock.key = (lock.flockOwner, some blExp) := congrArg _ hbe
  rw [hlockKey] at hlock hne
  have hreturns : ∀ turns, hash.length ≤ turns →
      ∃ b, ldlmFlockDeadlockLoop env hash req reqExp turns lock.flockOwner blExp = some b :=
    fun turns hturns => ldlmFlockDeadlockLoop_returns hK hhash hreq hre hlock hmem hid hac hne []
      nodup_nil (by rwa [length_nil, Nat.zero_add]) (forall_mem_nil _)
  obtain ⟨b, hb⟩ := hreturns _ (Nat.le_succ _)
  refine ⟨b, ?_, fun turns hturns => ?_⟩
  · rw [ldlmFlockDeadlock, hre, hbe]
    exact hb
  · -- with more turns the answer is the same, as it says where the records lead
    obtain ⟨b', hb'⟩ := hreturns turns hturns
    rw [hb', Bool.eq_iff_iff.mpr ((ldlmFlockDeadlockLoop_iff hK hhash hreq hre hlock hne hb').trans
      (ldlmFlockDeadlockLoop_iff hK hhash hreq hre hlock hne hb).symm)]

end

end Walk

/-! ## The records and the waiting lists -/

/-- The owners that locks and records mention. -/
def Known (s : FlockServer) (k : ℕ × Option ℕ) : Prop :=
  (∃ r, ∃ g ∈ s.lrGranted r, g.key = k) ∨ ∃ w ∈ s.flockHash, w.key = k ∨ w.blockKey = k

/-- The hash holds the waiting requests of all resources, one for each owner, and
the records have no cycle. -/
structure HashInv (env : FlockEnv) (K : ℕ × Option ℕ → Prop) (s : FlockServer) : Prop where
  /-- the owners can be told apart -/
  owners : KnownOwners env K
  /-- the owners of granted locks -/
  granted : ∀ r, ∀ g ∈ s.lrGranted r, K g.key
  /-- the owners that wait -/
  keys : ∀ w ∈ s.flockHash, K w.key
  /-- the owners waited for -/
  blockers : ∀ w ∈ s.flockHash, K w.blockKey
  /-- who is in the hash waits -/
  mem : ∀ w, w ∈ s.flockHash ↔ ∃ r, w ∈ s.lrWaiting r
  /-- and waits for one resource -/
  place : ∀ r r' w, w ∈ s.lrWaiting r → w ∈ s.lrWaiting r' → r = r'
  /-- one request for each owner -/
  single : ∀ a ∈ s.flockHash, ∀ b ∈ s.flockHash, a.key = b.key → a = b
  /-- identities are unique -/
  ids : ∀ a ∈ s.flockHash, ∀ b ∈ s.flockHash, a.id = b.id → a = b
  /-- the next identity is unused -/
  fresh : ∀ a ∈ s.flockHash, a.id < s.nextId
  /-- nobody waits twice -/
  nodup : ∀ r, (s.lrWaiting r).Pairwise fun a b => a.id ≠ b.id
  /-- no recorded cycle -/
  acyclic : Acyclic (Records s.flockHash)

open FlockServer

section HashInv

variable {env : FlockEnv} {K : ℕ × Option ℕ → Prop} {s : FlockServer} {r : ℕ} {v : FlockView}

section

variable (h : HashInv env K s)
include h

theorem HashInv.known : HashInv env (Known s) s :=
  { h with
    owners := h.owners.mono fun k hk => by
      rcases hk with ⟨r, g, hg, rfl⟩ | ⟨w, hw, rfl | rfl⟩
      · exact h.granted r g hg
      · exact h.keys w hw
      · exact h.blockers w hw
    granted := fun r g hg => .inl ⟨r, g, hg, rfl⟩
    keys := fun w hw => .inr ⟨w, hw, .inl rfl⟩
    blockers := fun w hw => .inr ⟨w, hw, .inr rfl⟩ }

theorem HashInv.more {K' : ℕ × Option ℕ → Prop} (hK : KnownOwners env K') (himp : ∀ k, K k → K' k) :
    HashInv env K' s :=
  { h with
    owners := hK
    granted := fun r g hg => himp _ (h.granted r g hg)
    keys := fun w hw => himp _ (h.keys w hw)
    blockers := fun w hw => himp _ (h.blockers w hw) }

theorem HashInv.walkable (rk : ℕ × Option ℕ) : Walkable K rk s.flockHash :=
  ⟨h.keys, h.blockers, fun a ha b hb heq _ => h.single a ha b hb heq⟩

/-- The request with the identity `i` leaves the resource `r` and the hash; what
is granted may change between known owners. -/
theorem HashInv.remove {i : ℕ} (hi : ∀ w ∈ s.flockHash, w.id = i → w ∈ s.lrWaiting r)
    (hgranted : ∀ g ∈ v.lrGranted, K g.key)
    (hwaiting : v.lrWaiting = (s.lrWaiting r).filter fun l => l.id ≠ i)
    (hhash : ∀ w, w ∈ v.flockHash ↔ w ∈ s.flockHash ∧ w.id ≠ i) (hnext : s.nextId ≤ v.nextId) :
    HashInv env K (s.put r v) := by
  have hsub : ∀ w ∈ v.flockHash, w ∈ s.flockHash := fun w hw => ((hhash w).mp hw).1
  have hwait : ∀ r' w, w ∈ (s.put r v).lrWaiting r' → w ∈ s.lrWaiting r' ∧ (r' = r → w.id ≠ i) := by
    intro r' w hw
    by_cases hr : r' = r
    · subst hr
      rw [put_waiting_self, hwaiting, mem_filter] at hw
      exact ⟨hw.1, fun _ => of_decide_eq_true hw.2⟩
    · rw [put_waiting_other hr] at hw
      exact ⟨hw, fun heq => absurd heq hr⟩
  refine ⟨h.owners, fun r' g hg => ?_, fun w hw => h.keys w (hsub w hw),
    fun w hw => h.blockers w (hsub w hw), fun w => ⟨fun hw => ?_, fun hw => ?_⟩,
    fun r1 r2 w h1 h2 => h.place r1 r2 w (hwait r1 w h1).1 (hwait r2 w h2).1,
    fun a ha b hb => h.single a (hsub a ha) b (hsub b hb),
    fun a ha b hb => h.ids a (hsub a ha) b (hsub b hb),
    fun a ha => lt_of_lt_of_le (h.fresh a (hsub a ha)) hnext, fun r' => ?_,
    h.acyclic.mono fun p q => Records.mono hsub⟩
  · by_cases hr : r' = r
    · subst hr
      rw [put_granted_self] at hg
      exact hgranted g hg
    · rw [put_granted_other hr] at hg
      exact h.granted r' g hg
  · obtain ⟨hold, hne⟩ := (hhash w).mp hw
    obtain ⟨r', hin⟩ := (h.mem w).mp hold
    refine ⟨r', ?_⟩
    by_cases hr : r' = r
    · subst hr
      rw [put_waiting_self, hwaiting]
      exact mem_filter.mpr ⟨hin, decide_eq_true hne⟩
    · rw [put_waiting_other hr]
      exact hin
  · obtain ⟨r', hw⟩ := hw
    obtain ⟨hw, hne⟩ := hwait r' w hw
    have hin := (h.mem w).mpr ⟨r', hw⟩
    -- a request of another resource has another identity
    exact (hhash w).mpr ⟨hin, fun heq => hne (h.place r' r w hw (hi w hin heq)) heq⟩
  · by_cases hr : r' = r
    · subst hr
      rw [put_waiting_self, hwaiting]
      exact (h.nodup r').filter _
    · rw [put_waiting_other hr]
      exact h.nodup r'

/-- A request is queued, after the walk has not led back to it. -/
theorem HashInv.add {req : FlockLock} (hkey : K req.key) (hblock : K req.blockKey)
    (hne : req.blockKey ≠ req.key) (hnew : ∀ w ∈ s.flockHash, w.key ≠ req.key)
    (hid : req.id = s.nextId) (hpath : ¬ TransGen (Records s.flockHash) req.blockKey req.key)
    (hgranted : v.lrGranted = s.lrGranted r) (hwaiting : v.lrWaiting = s.lrWaiting r ++ [req])
    (hhash : v.flockHash = req :: s.flockHash) (hnext : s.nextId + 1 ≤ v.nextId) :
    HashInv env K (s.put r v) := by
  have hfresh : ∀ w ∈ s.flockHash, w.id ≠ req.id := fun w hw heq => by
    have := h.fresh w hw
    omega
  have hwait : ∀ r' w, w ∈ (s.put r v).lrWaiting r' ↔ w ∈ s.lrWaiting r' ∨ (r' = r ∧ w = req) := by
    intro r' w
    by_cases hr : r' = r
    · subst hr
      rw [put_waiting_self, hwaiting, mem_append, mem_singleton]
      simp only [true_and]
    · rw [put_waiting_other hr]
      simp only [hr, false_and, or_false]
  have hnot : ∀ r', req ∉ s.lrWaiting r' := fun r' hin =>
    hfresh req ((h.mem req).mpr ⟨r', hin⟩) rfl
  have hmem : ∀ w, w ∈ (s.put r v).flockHash ↔ w = req ∨ w ∈ s.flockHash := fun w => by
    rw [put, hhash, mem_cons]
  have hall : ∀ P : FlockLock → Prop, P req → (∀ w ∈ s.flockHash, P w) →
      ∀ w ∈ (s.put r v).flockHash, P w := fun P hreq hold w hw =>
    ((hmem w).mp hw).elim (fun heq => heq ▸ hreq) (hold w)
  refine ⟨h.owners, fun r' g hg => ?_, hall _ hkey h.keys, hall _ hblock h.blockers,
    fun w => ?_, fun r1 r2 w h1 h2 => ?_, ?_, ?_, ?_, fun r' => ?_, ?_⟩
  · by_cases hr : r' = r
    · subst hr
      rw [put_granted_self, hgranted] at hg
      exact h.granted r' g hg
    · rw [put_granted_other hr] at hg
      exact h.granted r' g hg
  · rw [hmem]
    constructor
    · rintro (rfl | hw)
      · exact ⟨r, (hwait r w).mpr (.inr ⟨rfl, rfl⟩)⟩
      · obtain ⟨r', hw⟩ := (h.mem w).mp hw
        exact ⟨r', (hwait r' w).mpr (.inl hw)⟩
    · rintro ⟨r', hw⟩
      rcases (hwait r' w).mp hw with hw | ⟨-, rfl⟩
      · exact .inr ((h.mem w).mpr ⟨r', hw⟩)
      · exact .inl rfl
  · rcases (hwait r1 w).mp h1 with h1 | ⟨rfl, rfl⟩
    · rcases (hwait r2 w).mp h2 with h2 | ⟨-, rfl⟩
      · exact h.place r1 r2 w h1 h2
      · exact absurd h1 (hnot r1)
    · rcases (hwait r2 w).mp h2 with h2 | ⟨rfl, -⟩
      · exact absurd h2 (hnot r2)
      · rfl
  · exact hall _ (hall _ (fun _ => rfl) fun w hw heq => absurd heq.symm (hnew w hw))
      fun a ha => hall _ (fun heq => absurd heq (hnew a ha)) fun b hb => h.single a ha b hb
  · exact hall _ (hall _ (fun _ => rfl) fun w hw heq => absurd heq.symm (hfresh w hw))
      fun a ha => hall _ (fun heq => absurd heq (hfresh a ha)) fun b hb => h.ids a ha b hb
  · exact hall _ (by rw [hid]; exact hnext) fun a ha =>
      lt_of_lt_of_le (Nat.lt_succ_of_lt (h.fresh a ha)) hnext
  · by_cases hr : r' = r
    · subst hr
      rw [put_waiting_self, hwaiting]
      refine pairwise_append.mpr ⟨h.nodup r', pairwise_singleton _ _, fun a ha b hb => ?_⟩
      rw [mem_singleton.mp hb]
      exact hfresh a ((h.mem a).mpr ⟨r', ha⟩)
    · rw [put_waiting_other hr]
      exact h.nodup r'
  · refine (h.acyclic.insert hne hpath).mono fun p q hpq => ?_
    obtain ⟨w, hw, hp, hq⟩ := hpq
    rcases (hmem w).mp hw with rfl | hw
    · exact .inr ⟨hp.symm, hq.symm⟩
    · exact .inl ⟨w, hw, hp, hq⟩

end

end HashInv

/-! ## Requests and records -/

theorem mem_ldlmFlockBlockingUnlink {hash : List FlockLock} {req w : FlockLock}
    (h : req.lExport ≠ none) : w ∈ ldlmFlockBlockingUnlink hash req ↔ w ∈ hash ∧ w.id ≠ req.id := by
  rw [ldlmFlockBlockingUnlink, if_neg h, mem_filter, decide_eq_true_eq]

theorem ldlmFlockBlockingLink_some {hash hash' : List FlockLock} {req req' lock : FlockLock}
    (hexp : req.lExport ≠ none) (h : ldlmFlockBlockingLink hash req lock = some (req', hash')) :
    hash' = req' :: hash ∧ req'.id = req.id ∧ req'.key = req.key ∧ req'.blockKey = lock.key := by
  rw [ldlmFlockBlockingLink, if_neg hexp] at h
  split at h
  · cases h
  · cases h
    exact ⟨rfl, rfl, rfl, rfl⟩

/-- A grant gives locks to nobody new but the requester. -/
theorem Granted.key {v v1 : FlockView} {req g : FlockLock} (h : Granted v req v1)
    (hg : g ∈ v1.lrGranted) : g.key = req.key ∨ ∃ g' ∈ v.lrGranted, g'.key = g.key := by
  have hstart : g.Covers g.flockStart := ⟨le_rfl, (h.wf.valid g hg).ranged.1⟩
  have hheld := h.wf.heldAt_of_mem hg hstart
  rw [h.held, posixWrite] at hheld
  split at hheld
  · next hin => exact .inl hin.1
  · obtain ⟨g', hg', hk, -⟩ := mem_of_heldAt hheld
    exact .inr ⟨g', hg', hk⟩

/-- The blocker on record. -/
def OnRecord (w : FlockLock) (k : ℕ × Option ℕ) : Prop := k = w.blockKey

/-- The server in the middle of a scan of the resource `r` that an unlock of the
owner `u` has started. -/
structure Rescan (env : FlockEnv) (K : ℕ × Option ℕ → Prop) (s : FlockServer) (r : ℕ)
    (u : ℕ × Option ℕ) (v : FlockView) (queue : List FlockLock) : Prop where
  /-- who has been scanned is blocked by the owner on record -/
  scanned : Scanned OnRecord v queue
  inv : HashInv env K (s.put r v)
  waiting : ∀ w ∈ queue, w ∈ v.lrWaiting
  nodup : queue.Pairwise fun a b => a.id ≠ b.id
  sub : ∀ w ∈ v.flockHash, w ∈ s.flockHash
  edges : ∀ w ∈ v.lrWaiting, w.blockKey = u ∨ BlockedBy v.lrGranted w w.blockKey

section Scan

variable {env : FlockEnv} {K : ℕ × Option ℕ → Prop} {s : FlockServer} {r : ℕ}
  {u : ℕ × Option ℕ} {v v' : FlockView} {w : FlockLock} {queue : List FlockLock}

theorem Rescan.mem_hash (h : Rescan env K s r u v queue) (hw : w ∈ v.lrWaiting) : w ∈ v.flockHash :=
  (h.inv.mem w).mpr ⟨r, put_waiting_self ▸ hw⟩

theorem Rescan.lExport (h : Rescan env K s r u v queue) (hw : w ∈ v.lrWaiting) :
    w.lExport ≠ none := by
  obtain ⟨e, he, -⟩ := h.inv.owners.alive _ (h.inv.keys w (h.mem_hash hw))
  have he : w.lExport = some e := he
  rw [he]
  exact Option.some_ne_none e

/-- The request leaves the waiting list and the hash. -/
theorem Rescan.remove (h : Rescan env K s r u v (w :: queue)) (hscan : Scanned OnRecord v' queue)
    (hwaiting : v'.lrWaiting = v.lrWaiting.filter fun l => l.id ≠ w.id)
    (hhash : v'.flockHash = ldlmFlockBlockingUnlink v.flockHash w) (hnext : v.nextId ≤ v'.nextId)
    (hgranted : ∀ g ∈ v'.lrGranted, K g.key)
    (hkeep : ∀ x ∈ v.lrWaiting, ∀ k, BlockedBy v.lrGranted x k → BlockedBy v'.lrGranted x k) :
    Rescan env K s r u v' queue := by
  have hw := h.waiting w mem_cons_self
  obtain ⟨hfirst, hnd⟩ := pairwise_cons.mp h.nodup
  have hmem : ∀ x, x ∈ v'.flockHash ↔ x ∈ v.flockHash ∧ x.id ≠ w.id := fun x => by
    rw [hhash]
    exact mem_ldlmFlockBlockingUnlink (h.lExport hw)
  have hold : ∀ x ∈ v'.lrWaiting, x ∈ v.lrWaiting := fun x hx =>
    mem_of_mem_filter (hwaiting ▸ hx)
  refine ⟨hscan, ?_, fun x hx => ?_, hnd, fun x hx => h.sub x ((hmem x).mp hx).1, fun x hx => ?_⟩
  · have hrem := h.inv.remove (r := r) (v := v') (i := w.id) (fun x hx hid => ?_) hgranted
      (by rw [put_waiting_self]; exact hwaiting) hmem hnext
    · exact put_put ▸ hrem
    · rw [h.inv.ids x hx w (h.mem_hash hw) hid]
      exact put_waiting_self ▸ hw
  · rw [hwaiting]
    exact mem_filter.mpr ⟨h.waiting x (mem_cons_of_mem _ hx),
      decide_eq_true (Ne.symm (hfirst x hx))⟩
  · exact (h.edges x (hold x hx)).imp_right (hkeep x (hold x hx) _)

theorem Rescan.granted_known (h : Rescan env K s r u v queue) : ∀ g ∈ v.lrGranted, K g.key :=
  fun g hg => h.inv.granted r g (put_granted_self ▸ hg)

theorem Rescan.call {alloc : ℕ → Bool} {out : FlockOut} (h : Rescan env K s r u v (w :: queue))
    (hgood : SparedCall OnRecord alloc ⟨v, w, out.granted, out.deadlock⟩)
    (hout : ldlmProcessFlockLock env (fun v => some ⟨v, [], []⟩) (alloc w.id) v w FlockFlags.zero
      .rescan = some out) : out.rc = .continue ∧ Rescan env K s r u out.view queue := by
  have hwaiter := h.scanned.pending w mem_cons_self
  obtain ⟨hrc, hcase, -⟩ := flockRescan_cases h.scanned.wf hwaiter.request hgood.alloc hout
  have hscan := h.scanned.call hgood hcase
  refine ⟨hrc, ?_⟩
  cases hcase with
  | stays _ _ _ hview =>
    rw [hview] at hscan ⊢
    exact ⟨hscan, h.inv, (forall_mem_cons.mp h.waiting).2,
      (pairwise_cons.mp h.nodup).2, h.sub, h.edges⟩
  | dropped hdrop hhash =>
    refine h.remove hscan hdrop.waiting hhash hdrop.next.symm.le ?_ ?_
    · rw [hdrop.granted]
      exact h.granted_known
    · rw [hdrop.granted]
      exact fun _ _ _ hb => hb
  | granted hg hgr =>
    refine h.remove hscan hgr.waiting hgr.hash hgr.next (fun g hg => ?_) fun x hx k hb => ?_
    · rcases hgr.key hg with hk | ⟨g', hg', hk⟩
      · exact hk ▸ h.inv.keys w (h.mem_hash (h.waiting w mem_cons_self))
      · exact hk ▸ h.granted_known g' hg'
    · exact hgr.blockedBy h.scanned.wf hwaiter (hgood.keeps hg) hx (h.scanned.waiter x hx) hb

end Scan

end Lustre
