import Lustre.FlockMerge

/-!
# Granting a flock has POSIX meaning

The granted list of a resource is made of one block for each owner (`FlockWf`);
it stands for the mode that each owner holds at each byte (`heldAt`). This
module lifts the merge loop to the whole list and inverts
`ldlm_process_flock_lock`: `flockProcess_cases` says everything that a call can
do, and the results about runs use nothing else.

A granted request writes its mode over its range for its owner and changes
nothing else (`posixWrite`). When the request is an unlock that frees something,
the call goes on to grant waiting requests, one after the other, in the same way
(`flock_posix`).
-/

namespace Lustre

open Option (bind_eq_some_iff map_eq_some_iff some_or)
open Prod (fst snd)
open FlockFlags

/-! ## The granted list -/

/-- The mode that the owner `k` holds at the byte `b`. -/
def heldAt (l : List FlockLock) (k : ℕ × Option ℕ) (b : ℕ) : Option LdlmMode :=
  modeAt (l.filter fun f => f.key = k) b

/-- The granted list is well formed: the locks of each owner stand together,
sorted, disjoint, and no two neighbours of one mode touch. -/
def FlockWf (l : List FlockLock) : Prop :=
  ∃ blocks : List ((ℕ × Option ℕ) × List FlockLock), l = blocks.flatMap snd ∧
    (blocks.map fst).Nodup ∧ ∀ block ∈ blocks, OwnList block.1 block.2

/-- The request is written over what is held: its owner holds its mode in its
range, and nothing else changes. -/
def posixWrite (held : ℕ × Option ℕ → ℕ → Option LdlmMode) (req : FlockLock)
    (k : ℕ × Option ℕ) (b : ℕ) : Option LdlmMode :=
  if k = req.key ∧ req.Covers b then heldMode req.lReqMode else held k b

/-- The block `own` of the owner `k` in the list. -/
structure Focus (k : ℕ × Option ℕ) (l pre own post : List FlockLock) : Prop where
  split : l = pre ++ own ++ post
  ownList : OwnList k own
  before : ∀ f ∈ pre, f.key ≠ k
  after : ∀ f ∈ post, f.key ≠ k
  fresh : own = [] → post = []
  replace : ∀ own', OwnList k own' → FlockWf (pre ++ own' ++ post)

open List

theorem flockWf_nil : FlockWf [] := ⟨[], rfl, nodup_nil, nofun⟩

theorem flockWf_singleton {f : FlockLock} (h : f.Valid) : FlockWf [f] := by
  refine ⟨[(f.key, [f])], rfl, nodup_cons.mpr ⟨not_mem_nil, nodup_nil⟩, fun b hb => ?_⟩
  rw [mem_singleton.mp hb]
  exact ownList_cons.mpr ⟨rfl, h, forall_mem_nil _, ownList_nil _⟩

variable {l : List FlockLock}

theorem FlockWf.valid (h : FlockWf l) : ∀ f ∈ l, f.Valid := by
  obtain ⟨blocks, rfl, -, hown⟩ := h
  intro f hf
  obtain ⟨block, hb, hf⟩ := mem_flatMap.mp hf
  exact (hown block hb).valid f hf

variable {k : ℕ × Option ℕ}

section

variable {blocks : List ((ℕ × Option ℕ) × List FlockLock)}

/-- Locks of other blocks have other owners. -/
theorem key_ne_of_blocks (hk : k ∉ blocks.map fst)
    (hown : ∀ block ∈ blocks, OwnList block.1 block.2) :
    ∀ f ∈ blocks.flatMap snd, f.key ≠ k := by
  intro f hf heq
  obtain ⟨block, hb, hf⟩ := mem_flatMap.mp hf
  have hkey := (hown block hb).key f hf
  exact hk (heq ▸ hkey ▸ mem_map_of_mem hb)

/-- Without a block of its own, the owner gets one at the end. -/
theorem focus_end (hnd : (blocks.map fst).Nodup)
    (hown : ∀ block ∈ blocks, OwnList block.1 block.2) (hk : k ∉ blocks.map fst) :
    Focus k (blocks.flatMap snd) (blocks.flatMap snd) [] [] := by
  refine ⟨by simp, ownList_nil k, key_ne_of_blocks hk hown, forall_mem_nil _, fun _ => rfl,
    fun own' hown' => ⟨blocks ++ [(k, own')], by simp, ?_,
      forall_mem_append.mpr ⟨hown, forall_mem_singleton.mpr hown'⟩⟩⟩
  · rw [map_append]
    refine nodup_append.mpr ⟨hnd, nodup_cons.mpr ⟨not_mem_nil, nodup_nil⟩, fun x hx y hy heq => ?_⟩
    obtain rfl : y = k := mem_singleton.mp hy
    exact hk (heq ▸ hx)

end

theorem FlockWf.focus (h : FlockWf l) (k : ℕ × Option ℕ) :
    ∃ pre own post, Focus k l pre own post := by
  obtain ⟨blocks, rfl, hnd, hown⟩ := h
  by_cases hk : k ∈ blocks.map fst
  · obtain ⟨⟨k', own⟩, hb, rfl⟩ := mem_map.mp hk
    obtain ⟨front, back, rfl⟩ := append_of_mem hb
    rw [map_append, map_cons] at hnd
    obtain ⟨hnf, hnb, hfb⟩ := nodup_append.mp hnd
    obtain ⟨hkb, hnb'⟩ := nodup_cons.mp hnb
    have hkf : k' ∉ front.map fst := fun hin =>
      hfb k' hin k' mem_cons_self rfl
    have hfront : ∀ block ∈ front, OwnList block.1 block.2 := fun block hb =>
      hown block (mem_append_left _ hb)
    have hback : ∀ block ∈ back, OwnList block.1 block.2 := fun block hb =>
      hown block (mem_append_right _ (mem_cons_of_mem _ hb))
    cases own with
    | nil =>
      -- an empty block does not count
      have hnd' : ((front ++ back).map fst).Nodup := by
        rw [map_append]
        exact nodup_append.mpr ⟨hnf, hnb', fun x hx y hy =>
          hfb x hx y (mem_cons_of_mem _ hy)⟩
      have hk' : k' ∉ (front ++ back).map fst := by
        rw [map_append, mem_append]
        exact fun hin => hin.elim hkf hkb
      have hfocus := focus_end hnd' (fun block hb => (mem_append.mp hb).elim
        (hfront block) (hback block)) hk'
      have hlist : (front ++ (k', []) :: back).flatMap snd =
          (front ++ back).flatMap snd := by simp
      rw [hlist]
      exact ⟨_, _, _, hfocus⟩
    | cons f own =>
      refine ⟨front.flatMap snd, f :: own, back.flatMap snd, by simp,
        hown _ hb, key_ne_of_blocks hkf hfront, key_ne_of_blocks hkb hback, nofun,
        fun own' hown' => ⟨front ++ (k', own') :: back, by simp, ?_,
          forall_mem_append.mpr ⟨hfront, forall_mem_cons.mpr ⟨hown', hback⟩⟩⟩⟩
      rw [map_append, map_cons]
      exact hnd
  · exact ⟨_, _, _, focus_end hnd hown hk⟩

variable {own' : List FlockLock} {req : FlockLock}

section Focus

variable {k : ℕ × Option ℕ} {l pre own post : List FlockLock}

theorem filter_key_eq_nil (h : ∀ f ∈ l, f.key ≠ k) : (l.filter fun f => f.key = k) = [] :=
  filter_eq_nil_iff.mpr fun f hf => by simpa using h f hf

theorem filter_key_eq_self (h : ∀ f ∈ l, f.key = k) : (l.filter fun f => f.key = k) = l :=
  filter_eq_self.mpr fun f hf => by simpa using h f hf

/-- The owner's modes are those of its block. -/
theorem Focus.heldAt_self (h : Focus k l pre own post)
    (hown' : OwnList k own') (b : ℕ) : heldAt (pre ++ own' ++ post) k b = modeAt own' b := by
  rw [heldAt, filter_append, filter_append, filter_key_eq_nil h.before,
    filter_key_eq_nil h.after, filter_key_eq_self hown'.key, nil_append, append_nil]

/-- Other owners' modes do not depend on the block. -/
theorem Focus.heldAt_other (hown : OwnList k own) (hown' : OwnList k own')
    {k' : ℕ × Option ℕ} (hne : k' ≠ k) (b : ℕ) :
    heldAt (pre ++ own' ++ post) k' b = heldAt (pre ++ own ++ post) k' b := by
  have hnil : ∀ x, OwnList k x → (x.filter fun f => f.key = k') = [] := fun x hx =>
    filter_key_eq_nil fun f hf heq => hne (heq.symm.trans (hx.key f hf))
  simp only [heldAt, filter_append, hnil own hown, hnil own' hown']

/-- Writing a request over the block writes it over the list. -/
theorem Focus.write (h : Focus req.key l pre own post) (hm : Merged req own own') :
    FlockWf (pre ++ own' ++ post) ∧ heldAt (pre ++ own' ++ post) = posixWrite (heldAt l) req := by
  refine ⟨h.replace own' hm.ownList, funext fun k => funext fun b => ?_⟩
  rw [posixWrite, h.split]
  by_cases hk : k = req.key
  · subst hk
    rw [h.heldAt_self hm.ownList, h.heldAt_self h.ownList, hm.located]
    simp only [true_and]
  · rw [if_neg fun hc => hk hc.1]
    exact heldAt_other h.ownList hm.ownList hk b

end Focus

/-! ## The conflict scan -/

/-- `lock` keeps `req` from being granted: another owner, an incompatible mode, a
byte in common. -/
structure Conflicts (lock req : FlockLock) : Prop where
  /-- the owner -/
  key : lock.key ≠ req.key
  /-- the mode -/
  mode : lockmodeCompat lock.lGrantedMode req.lReqMode = false
  /-- the range -/
  overlap : ldlmFlocksOverlap lock req = true

instance (lock req : FlockLock) : Decidable (Conflicts lock req) :=
  decidable_of_iff (lock.key ≠ req.key ∧ lockmodeCompat lock.lGrantedMode req.lReqMode = false ∧
    ldlmFlocksOverlap lock req = true) ⟨fun h => ⟨h.1, h.2.1, h.2.2⟩, fun h => ⟨h.1, h.2, h.3⟩⟩

/-- What the result of a scan over `l` from index `i` means. -/
def FlockScan.Means (env : FlockEnv) (hash : List FlockLock) (req : FlockLock)
    (intention : LdlmProcessIntention) (i : ℕ) (ownlocks : Option ℕ) (reprocessFailed : Bool)
    (l : List FlockLock) : FlockScan → Prop
  | .clear ownlocks' =>
    reprocessFailed = false ∧ (∀ lock ∈ l, ¬ Conflicts lock req) ∧
      ownlocks' = ownlocks.or ((l.findIdx? fun lock => ldlmSameFlockOwner lock req).map (· + i))
  | .blocked lock => intention = .enqueue ∧ lock ∈ l ∧ Conflicts lock req
  | .stillBlocked =>
    (intention ≠ .enqueue ∧ ∃ lock ∈ l, Conflicts lock req) ∨ reprocessFailed = true
  | .deadlock lock =>
    intention ≠ .enqueue ∧ lock ∈ l ∧ Conflicts lock req ∧
      ldlmFlockDeadlock env hash req lock = some true

variable {ownlocks : Option ℕ}

/-- A lock that does not conflict changes nothing but perhaps the first position. -/
theorem FlockScan.Means.skip {env : FlockEnv} {hash : List FlockLock} {req lock : FlockLock}
    {intention : LdlmProcessIntention} {i : ℕ} {failed : Bool} {r : FlockScan} {own : Option ℕ}
    (hno : ¬ Conflicts lock req)
    (hown : own.or ((l.findIdx? fun lock => ldlmSameFlockOwner lock req).map (· + (i + 1))) =
      ownlocks.or (((lock :: l).findIdx? fun lock => ldlmSameFlockOwner lock req).map (· + i)))
    (h : r.Means env hash req intention (i + 1) own failed l) :
    r.Means env hash req intention i ownlocks failed (lock :: l) := by
  cases r with
  | clear ownlocks' => exact ⟨h.1, forall_mem_cons.mpr ⟨hno, h.2.1⟩, h.2.2.trans hown⟩
  | blocked x | deadlock x => exact ⟨h.1, mem_cons_of_mem _ h.2.1, h.2.2⟩
  | stillBlocked =>
    rcases h with ⟨hi, x, hx, hc⟩ | h
    · exact .inl ⟨hi, x, mem_cons_of_mem _ hx, hc⟩
    · exact .inr h

theorem flockConflictScan_means (env : FlockEnv) (hash : List FlockLock) (req : FlockLock)
    (intention : LdlmProcessIntention) (l : List FlockLock) : ∀ i ownlocks failed r,
      flockConflictScan env hash req intention i ownlocks failed l = some r →
      r.Means env hash req intention i ownlocks failed l := by
  induction l with
  | nil =>
    intro i ownlocks failed r h
    cases h
    cases failed with
    | true => exact .inr rfl
    | false => exact ⟨rfl, nofun, by cases ownlocks <;> rfl⟩
  | cons lock l ih =>
    intro i ownlocks failed r h
    rw [flockConflictScan] at h
    split at h
    · next hsame =>
      have hno : ¬ Conflicts lock req := fun hc => hc.key (ldlmSameFlockOwner_iff.mp hsame)
      refine (ih _ _ _ r h).skip hno ?_
      -- the first position is settled here
      rw [findIdx?_cons, hsame]
      cases ownlocks <;> simp
    · next hsame =>
      rw [Bool.not_eq_true] at hsame
      have hown : ownlocks.or ((l.findIdx? fun lock => ldlmSameFlockOwner lock req).map
            (· + (i + 1))) = ownlocks.or
          (((lock :: l).findIdx? fun lock => ldlmSameFlockOwner lock req).map (· + i)) := by
        rw [findIdx?_cons, hsame]
        cases l.findIdx? fun lock => ldlmSameFlockOwner lock req with
        | none => rfl
        | some n => simp [add_assoc, add_comm 1 i]
      split at h
      · next hmode =>
        exact (ih _ _ _ r h).skip (fun hc => by rw [hc.mode] at hmode; cases hmode) hown
      · next hmode =>
        rw [Bool.not_eq_true] at hmode
        split at h
        · next hov => exact (ih _ _ _ r h).skip (fun hc => hov hc.overlap) hown
        · next hov =>
          have hkey : lock.key ≠ req.key := fun heq => by
            rw [ldlmSameFlockOwner_iff.mpr heq] at hsame
            cases hsame
          have hc : Conflicts lock req := ⟨hkey, hmode, not_not.mp hov⟩
          split at h
          · next hint =>
            cases h
            exact ⟨hint, mem_cons_self, hc⟩
          · next hint =>
            split at h
            · cases h
            · next hdead =>
              cases h
              exact ⟨hint, mem_cons_self, hc, hdead⟩
            · have hr := ih _ _ _ r h
              cases r with
              | clear ownlocks' => exact absurd hr.1 (by decide)
              | blocked x | deadlock x => exact ⟨hr.1, mem_cons_of_mem _ hr.2.1, hr.2.2⟩
              | stillBlocked => exact .inl ⟨hint, lock, mem_cons_self, hc⟩

/-- The position found is that of the owner's block. -/
theorem Focus.findIdx {l pre own post : List FlockLock} (h : Focus req.key l pre own post) :
    (l.findIdx? fun lock => ldlmSameFlockOwner lock req) =
      if own = [] then none else some pre.length := by
  have hpre : ∀ f ∈ pre, ldlmSameFlockOwner f req = false := fun f hf => by
    rw [Bool.eq_false_iff, ne_eq, ldlmSameFlockOwner_iff]
    exact h.before f hf
  rw [h.split]
  cases own with
  | nil =>
    rw [h.fresh rfl, append_nil, append_nil, if_pos rfl]
    exact findIdx?_eq_none_iff.mpr hpre
  | cons f own =>
    have hf : ldlmSameFlockOwner f req = true :=
      ldlmSameFlockOwner_iff.mpr (h.ownList.key f mem_cons_self)
    rw [append_assoc, findIdx?_append, findIdx?_eq_none_iff.mpr hpre]
    simp [findIdx?_cons, hf]

/-! ## Granting -/

/-- `v1` is `v` with the request granted: written over what is held, and off the
waiting list and the hash. -/
structure Granted (v : FlockView) (req : FlockLock) (v1 : FlockView) : Prop where
  wf : FlockWf v1.lrGranted
  held : heldAt v1.lrGranted = posixWrite (heldAt v.lrGranted) req
  waiting : v1.lrWaiting = v.lrWaiting.filter fun l => l.id ≠ req.id
  hash : v1.flockHash = ldlmFlockBlockingUnlink v.flockHash req
  next : v.nextId ≤ v1.nextId

/-- How a call ends that grants the request. -/
inductive GrantEnd (reprocess : FlockView → Option FlockRescan) (v : FlockView) (req : FlockLock)
    (flags : FlockFlags) (intention : LdlmProcessIntention) (out : FlockOut) : Prop where
  /-- nothing more happens; an unlock on the server that ends so freed nothing -/
  | quiet : Granted v req out.view → out.calls = [] →
      (intention = .enqueue → req.lReqMode = .nl → flags.isWaitNoreproc = false →
        heldAt out.view.lrGranted = heldAt v.lrGranted) →
      GrantEnd reprocess v req flags intention out
  /-- an unlock goes on to scan the waiting queue -/
  | rescan (v1 : FlockView) (r : FlockRescan) : Granted v req v1 → intention = .enqueue →
      req.lReqMode = .nl → reprocess v1 = some r → out.view = r.view → out.calls = r.calls →
      GrantEnd reprocess v req flags intention out

variable {r : FlockOut ⊕ ℕ} {lock : FlockLock}

open FlockMerge (granted passed overlap init)

section Grant

variable {reprocess : FlockView → Option FlockRescan} {v : FlockView} {req : FlockLock}
  {flags : FlockFlags} {intention : LdlmProcessIntention} {out : FlockOut}
  {pre own post : List FlockLock}

variable (reprocess v req flags intention out) in
/-- The call has granted the request. -/
abbrev GrantOut : Prop := out.granted = true ∧ out.deadlock = none ∧ out.rc = .continue ∧
  GrantEnd reprocess v req flags intention out

/-- The end of the call, given what the merge loop has left. -/
theorem flockGrant_spec {st : FlockMerge} {new2 rest own' pre' : List FlockLock}
    (hfocus : Focus req.key v.lrGranted pre own post) (hm : Merged req own own')
    (hlist : pre' ++ st.granted st.req.grant new2 rest = pre ++ own' ++ post)
    (hid : st.req.id = req.id) (hmode : st.req.lReqMode = req.lReqMode)
    (hidle : req.lReqMode = .nl → st.overlaps = 0 → ∀ b, modeAt own' b = modeAt own b)
    (h : flockGrant reprocess { v with flockHash := ldlmFlockBlockingUnlink v.flockHash req }
      flags intention pre' st new2 rest = some out) :
    GrantOut reprocess v req flags intention out := by
  obtain ⟨hwf, hheld⟩ := hfocus.write hm
  have hgranted : Granted v req ({ v with
      flockHash := ldlmFlockBlockingUnlink v.flockHash req
      lrGranted := pre' ++ st.granted st.req.grant new2 rest }.unlinkWaiting st.req) := by
    refine ⟨?_, ?_, ?_, rfl, le_rfl⟩
    · exact hlist ▸ hwf
    · exact hlist ▸ hheld
    · exact hid ▸ rfl
  -- without an overlap an unlock leaves every byte as it was
  have hsame : req.lReqMode = .nl → st.overlaps = 0 →
      heldAt (pre' ++ st.granted st.req.grant new2 rest) = heldAt v.lrGranted := by
    intro hnl h0
    rw [hlist, hfocus.split]
    funext k b
    by_cases hk : k = req.key
    · rw [hk, hfocus.heldAt_self hm.ownList, hfocus.heldAt_self hfocus.ownList, hidle hnl h0]
    · exact Focus.heldAt_other hfocus.ownList hm.ownList hk b
  simp only [flockGrant, bind, bind_eq_some_iff] at h
  obtain ⟨-, -, h⟩ := h
  split at h
  · next hwait =>
    cases h
    exact ⟨rfl, rfl, rfl, .quiet hgranted rfl fun _ _ hw => by rw [hwait] at hw; cases hw⟩
  · split at h
    · next hint =>
      split at h
      · next hnl =>
        obtain ⟨r, hr, h⟩ := bind_eq_some_iff.mp h
        cases h
        exact ⟨rfl, rfl, rfl, .rescan _ r hgranted hint (hmode ▸ hnl.1) hr rfl rfl⟩
      · next hnl =>
        cases h
        refine ⟨rfl, rfl, rfl, .quiet hgranted rfl fun _ hreq _ => hsame hreq ?_⟩
        by_contra h0
        exact hnl ⟨hmode.trans hreq, h0⟩
    · next hint =>
      cases h
      exact ⟨rfl, rfl, rfl, .quiet hgranted rfl fun he => absurd he hint⟩

/-- A lock of the owner's block has to be split, and the locks before it are passed. -/
structure NeedsSplit (req : FlockLock) (own a : List FlockLock) (lock : FlockLock)
    (b : List FlockLock) : Prop where
  split : own = a ++ lock :: b
  before : ∀ f ∈ a, Before req.lReqMode f req
  splits : Splits req lock

theorem Focus.take_drop
    (h : Focus k l pre own post) : l.take pre.length = pre ∧ l.drop pre.length = own ++ post := by
  rw [h.split, append_assoc]
  exact ⟨take_left .., drop_left ..⟩

/-- The loop at the lock that has to be split. -/
theorem NeedsSplit.loop {a b : List FlockLock}
    (h : NeedsSplit req own a lock b) (hreq : req.Request) (hown : OwnList req.key own)
    (left rest : List FlockLock) :
    flockMergeLoop req.lReqMode none (passedState req left) (lock :: rest) =
        .needNew2 (passedState req left).overlap (lock :: rest) ∧
      ∀ id, flockMergeLoop req.lReqMode (some id) (passedState req left) (lock :: rest) =
        .splitted (passedState req left).overlap (flockNew2 id req lock)
          (lock.setRange (req.flockEnd + 1) lock.flockEnd :: rest) := by
  obtain ⟨-, hl, -⟩ := ownList_append.mp (h.split ▸ hown)
  obtain ⟨hkey, hvalid, -, -⟩ := ownList_cons.mp hl
  obtain ⟨hmode, hs, hout⟩ := h.splits
  have heof : obdObjectEof = 2 ^ 64 - 1 := rfl
  obtain ⟨hn1, hn2⟩ := hreq.ranged
  obtain ⟨-, hl2⟩ := hvalid.ranged
  generalize hst : passedState req left = st
  obtain rfl : st.new = req := hst ▸ rfl
  simp only [flockMergeLoop, ldlmSameFlockOwner_iff.mpr hkey, not_true_eq_false, if_false]
  rw [if_neg hmode, if_neg (by omega), if_neg (by omega), if_neg (by omega), if_neg (by omega)]
  refine ⟨rfl, fun id => ?_⟩
  rw [if_neg hmode, if_neg (by omega), if_neg (by omega), if_neg (by omega), if_neg (by omega),
    u64_of_lt (by omega)]

/-- Granting with a split, whether the passed locks were passed by this run of
the loop or skipped. -/
theorem NeedsSplit.grant {a b left pre' : List FlockLock} {id : ℕ}
    (h : NeedsSplit req own a lock b) (hreq : req.Request)
    (hfocus : Focus req.key v.lrGranted pre own post) (hleft : pre' ++ left = pre ++ a)
    (hout : flockGrant reprocess { v with flockHash := ldlmFlockBlockingUnlink v.flockHash req }
      flags intention pre' (passedState req left).overlap [flockNew2 id req lock]
      (lock.setRange (req.flockEnd + 1) lock.flockEnd :: (b ++ post)) = some out) :
    GrantOut reprocess v req flags intention out := by
  have hm := merged_split hreq (h.split ▸ hfocus.ownList) h.before h.splits id
  rw [← h.split] at hm
  refine flockGrant_spec hfocus hm ?_ rfl rfl (fun _ h0 => absurd h0 (Nat.succ_ne_zero _)) hout
  simp only [granted, passed, overlap, passedState,
    init, decide_eq_true_eq, Bool.false_eq_true, if_false, append_nil]
  simp only [← append_assoc, hleft]
  simp only [append_assoc, cons_append]

/-- Merging from the first lock of the owner on. -/
theorem flockMergeAndGrant_spec {new2 ownlocks : Option ℕ}
    (hreq : req.Request) (hfocus : Focus req.key v.lrGranted pre own post)
    (hown : ownlocks.getD v.lrGranted.length = pre.length)
    (h : flockMergeAndGrant reprocess v req flags intention new2 ownlocks = some r) :
    (∃ out, r = .inl out ∧ GrantOut reprocess v req flags intention out) ∨
    new2 = none ∧ ∃ a lock b, NeedsSplit req own a lock b ∧ r = .inr (pre.length + a.length) := by
  obtain ⟨htake, hdrop⟩ := hfocus.take_drop
  simp only [flockMergeAndGrant, hown, htake, hdrop] at h
  rcases flockMergeLoop_spec hreq (fun f hf => hfocus.after f (mem_of_mem_head? hf)) hfocus.ownList with
    ⟨st, l, hrun, hspec⟩ | ⟨a, lock, b, rfl, hbefore, hsplits⟩
  · rw [hrun] at h
    obtain ⟨out, hout, rfl⟩ := map_eq_some_iff.mp h
    refine .inl ⟨out, rfl, flockGrant_spec hfocus hspec.merged ?_ hspec.id hspec.mode
      hspec.idle hout⟩
    simp [granted]
  · have hneed : NeedsSplit req (a ++ lock :: b) a lock b := ⟨rfl, hbefore, hsplits⟩
    obtain ⟨ha, hl, -⟩ := ownList_append.mp hfocus.ownList
    have hpass := flockMergeLoop_pass hreq.ranged new2 (lock :: (b ++ post)) a [] ha hbefore
    rw [nil_append] at hpass
    rw [append_assoc, cons_append, show init req = passedState req [] from rfl, hpass] at h
    obtain ⟨hnone, hsome⟩ := hneed.loop hreq hfocus.ownList a (b ++ post)
    cases new2 with
    | none =>
      rw [hnone] at h
      refine .inr ⟨rfl, a, lock, b, hneed, ?_⟩
      rw [← Option.some.inj h]
      simp [passed, overlap, passedState, init]
    | some id =>
      rw [hsome] at h
      obtain ⟨out, hout, rfl⟩ := map_eq_some_iff.mp h
      exact .inl ⟨out, rfl, hneed.grant hreq hfocus rfl hout⟩

end Grant

/-! ## Everything a call can do -/

/-- The request goes: off the waiting list, and perhaps off the hash. -/
structure Dropped (v : FlockView) (req : FlockLock) (v' : FlockView) : Prop where
  granted : v'.lrGranted = v.lrGranted
  waiting : v'.lrWaiting = v.lrWaiting.filter fun l => l.id ≠ req.id
  hash : v'.flockHash = v.flockHash ∨ v'.flockHash = ldlmFlockBlockingUnlink v.flockHash req
  next : v'.nextId = v.nextId

/-- What a call of `ldlm_process_flock_lock` can do. -/
inductive FlockCase (env : FlockEnv) (reprocess : FlockView → Option FlockRescan) (alloc : Bool)
    (v : FlockView) (req : FlockLock) (flags : FlockFlags) (intention : LdlmProcessIntention)
    (out : FlockOut) : Prop where
  /-- the request is refused or only tested, or a split finds no memory -/
  | rejected : out.granted = false → out.deadlock = none → out.calls = [] → Dropped v req out.view →
      (alloc = false ∧ out.err = errNomem ∧ out.rc = .stop) ∨
        flags.blockNowait = true ∨ flags.testLock = true →
      FlockCase env reprocess alloc v req flags intention out
  /-- a new request would close a cycle -/
  | refused (lock req' : FlockLock) (hash : List FlockLock) : out.granted = false →
      out.deadlock = some lock → out.err = errDeadlk → out.calls = [] → intention = .enqueue →
      lock ∈ v.lrGranted → Conflicts lock req →
      ldlmFlockBlockingLink v.flockHash req lock = some (req', hash) →
      ldlmFlockDeadlock env hash req' lock = some true →
      Dropped { v with flockHash := hash } req' out.view →
      out.view.flockHash = ldlmFlockBlockingUnlink hash req' →
      FlockCase env reprocess alloc v req flags intention out
  /-- a new request has to wait -/
  | queued (lock req' : FlockLock) (hash : List FlockLock) : out.granted = false →
      out.deadlock = none → out.calls = [] → intention = .enqueue →
      lock ∈ v.lrGranted → Conflicts lock req →
      ldlmFlockBlockingLink v.flockHash req lock = some (req', hash) →
      ldlmFlockDeadlock env hash req' lock = some false →
      out.view = { v with flockHash := hash, lrWaiting := v.lrWaiting ++ [req'] } →
      FlockCase env reprocess alloc v req flags intention out
  /-- a waiting request goes on waiting -/
  | stillBlocked (lock : FlockLock) : out.granted = false → out.deadlock = none →
      out.calls = [] → out.rc = .continue → intention ≠ .enqueue → lock ∈ v.lrGranted →
      Conflicts lock req → out.view = v → FlockCase env reprocess alloc v req flags intention out
  /-- waiting any longer would be a deadlock -/
  | cancelled (lock : FlockLock) : out.granted = false → out.deadlock = some lock →
      out.calls = [] → out.rc = .continue → intention ≠ .enqueue → lock ∈ v.lrGranted →
      Conflicts lock req → ldlmFlockDeadlock env v.flockHash req lock = some true →
      (Dropped v req out.view ∧ out.view.flockHash = ldlmFlockBlockingUnlink v.flockHash req) ∨
        (out.view = v ∧ (req.lExport.map fun e => (env.obdExport e).flockDead) ≠ some true) →
      FlockCase env reprocess alloc v req flags intention out
  /-- the request is granted -/
  | granted : out.granted = true → out.deadlock = none → out.rc = .continue →
      (req.lReqMode ≠ .nl → flags.isWaitNoreproc = false →
        ∀ lock ∈ v.lrGranted, ¬ Conflicts lock req) → GrantEnd reprocess v req flags intention out →
      FlockCase env reprocess alloc v req flags intention out

variable {pre own post : List FlockLock}

section Cases

variable {env : FlockEnv} {reprocess : FlockView → Option FlockRescan} {alloc : Bool}
  {v : FlockView} {req : FlockLock} {flags : FlockFlags} {intention : LdlmProcessIntention}
  {out : FlockOut}

theorem flockReject_eq {err : ℤ} (h : flockReject v req flags err = some out) :
    out = { rc := .stop, err := err, flags := flags, req := req, view := v.unlinkWaiting req
            granted := false, deadlock := none, work := [], calls := [] } := by
  simp only [flockReject, bind, bind_eq_some_iff] at h
  obtain ⟨-, -, h⟩ := h
  exact (Option.some.inj h).symm

/-- A new request meets a conflicting lock. -/
theorem flockBlocked_case (hint : intention = .enqueue)
    (hmem : lock ∈ v.lrGranted) (hc : Conflicts lock req)
    (h : flockBlocked env v req flags lock = some out) :
    FlockCase env reprocess alloc v req flags intention out := by
  rw [flockBlocked] at h
  split at h
  · next hnowait =>
    rw [flockReject_eq h]
    exact .rejected rfl rfl rfl ⟨rfl, rfl, .inl rfl, rfl⟩ (.inr (.inl hnowait))
  · split at h
    · next htest =>
      rw [flockReject_eq h]
      exact .rejected rfl rfl rfl ⟨rfl, rfl, .inl rfl, rfl⟩ (.inr (.inr htest))
    · simp only [bind, bind_eq_some_iff] at h
      obtain ⟨⟨req', hash⟩, hlink, dead, hdead, h⟩ := h
      cases dead with
      | true =>
        obtain ⟨out', hout', h⟩ := bind_eq_some_iff.mp h
        cases h
        rw [flockReject_eq hout']
        exact .refused lock req' hash rfl rfl rfl rfl hint hmem hc hlink hdead
          ⟨rfl, rfl, .inr rfl, rfl⟩ rfl
      | false =>
        cases h
        exact .queued lock req' hash rfl rfl rfl hint hmem hc hlink hdead rfl

/-- The owner's first position, as both scans find it. -/
theorem Focus.getD_findIdx (h : Focus req.key v.lrGranted pre own post) :
    ((v.lrGranted.findIdx? fun lock => ldlmSameFlockOwner lock req)).getD v.lrGranted.length =
      pre.length := by
  rw [h.findIdx]
  split
  · next hnil => rw [h.split, hnil, h.fresh hnil]; simp
  · rfl

/-- What the first pass comes to: a case of the call, or the need for a split. -/
def FirstPass (env : FlockEnv) (reprocess : FlockView → Option FlockRescan) (alloc : Bool)
    (v : FlockView) (req : FlockLock) (flags : FlockFlags) (intention : LdlmProcessIntention)
    (pre own : List FlockLock) (r : FlockOut ⊕ ℕ) : Prop :=
  (∃ out, r = .inl out ∧ FlockCase env reprocess alloc v req flags intention out) ∨
  (flags.testLock = false ∧ (req.lReqMode ≠ .nl → flags.isWaitNoreproc = false →
      ∀ lock ∈ v.lrGranted, ¬ Conflicts lock req) ∧
    ∃ a lock b, NeedsSplit req own a lock b ∧ r = .inr (pre.length + a.length))

section

variable (hreq : req.Request) (hfocus : Focus req.key v.lrGranted pre own post)
include hreq hfocus

/-- Once nothing conflicts, the request is tested, granted or in need of a split. -/
theorem firstPass_clear (hown : ownlocks.getD v.lrGranted.length = pre.length)
    (hclear : req.lReqMode ≠ .nl → flags.isWaitNoreproc = false →
      ∀ lock ∈ v.lrGranted, ¬ Conflicts lock req) (h : (if flags.testLock = true then
        (flockReject v { req with lReqMode := .nl } { flags with lockChanged := true } 0).map .inl
      else flockMergeAndGrant reprocess v req flags intention none ownlocks) = some r) :
    FirstPass env reprocess alloc v req flags intention pre own r := by
  split at h
  · next htest =>
    obtain ⟨out, hout, rfl⟩ := map_eq_some_iff.mp h
    refine .inl ⟨out, rfl, ?_⟩
    rw [flockReject_eq hout]
    exact .rejected rfl rfl rfl ⟨rfl, rfl, .inl rfl, rfl⟩ (.inr (.inr htest))
  · next htest =>
    rcases flockMergeAndGrant_spec hreq hfocus hown h with
      ⟨out, rfl, hg, hd, hrc, hend⟩ | ⟨-, a, lock, b, hneed, rfl⟩
    · exact .inl ⟨out, rfl, .granted hg hd hrc hclear hend⟩
    · exact .inr ⟨Bool.not_eq_true _ ▸ htest, hclear, a, lock, b, hneed, rfl⟩

/-- The first pass, from the label `reprocess` on. -/
theorem flockReprocess_first (alloc : Bool)
    (h : flockReprocess env reprocess v req flags intention none none = some r) :
    FirstPass env reprocess alloc v req flags intention pre own r := by
  simp only [flockReprocess] at h
  split at h
  · next hskip =>
    refine firstPass_clear hreq hfocus ?_ (fun hnl hwait => ?_) h
    · rw [flockOwnScan, Option.or_none]
      exact hfocus.getD_findIdx
    · rcases hskip with hskip | hskip
      · rw [hskip] at hwait
        cases hwait
      · exact absurd hskip hnl
  · split at h
    · cases h
    · obtain ⟨scan, hscan, h⟩ := bind_eq_some_iff.mp h
      have hmeans := flockConflictScan_means env v.flockHash req intention _ _ _ _ _ hscan
      cases scan with
      | clear ownlocks =>
        obtain ⟨-, hno, hown⟩ := hmeans
        refine firstPass_clear hreq hfocus ?_ (fun _ _ => hno) h
        rw [hown, Option.none_or]
        simpa using hfocus.getD_findIdx
      | blocked lock =>
        obtain ⟨hint, hmem, hc⟩ := hmeans
        obtain ⟨out, hout, rfl⟩ := map_eq_some_iff.mp h
        exact .inl ⟨out, rfl, flockBlocked_case hint hmem hc hout⟩
      | stillBlocked =>
        obtain ⟨hint, lock, hmem, hc⟩ := hmeans.resolve_right Bool.false_ne_true
        cases h
        exact .inl ⟨_, rfl, .stillBlocked lock rfl rfl rfl rfl hint hmem hc rfl⟩
      | deadlock lock =>
        obtain ⟨hint, hmem, hc, hdead⟩ := hmeans
        cases h
        refine .inl ⟨_, rfl, ?_⟩
        rw [ldlmFlockCancelOnDeadlock]
        split
        · exact .cancelled lock rfl rfl rfl rfl hint hmem hc hdead
            (.inl ⟨⟨rfl, rfl, .inr rfl, rfl⟩, rfl⟩)
        · next hsup => exact .cancelled lock rfl rfl rfl rfl hint hmem hc hdead (.inr ⟨rfl, hsup⟩)

/-- The second pass, with a lock for the split. -/
theorem NeedsSplit.secondPass {a b : List FlockLock} {id : ℕ} (hneed : NeedsSplit req own a lock b)
    (htest : flags.testLock = false)
    (hclear : req.lReqMode ≠ .nl → flags.isWaitNoreproc = false →
      ∀ lock ∈ v.lrGranted, ¬ Conflicts lock req)
    (h : flockReprocess env reprocess v req flags intention (some id)
      (some (pre.length + a.length)) = some r) :
    ∃ out, r = .inl out ∧ GrantOut reprocess v req flags intention out := by
  simp only [flockReprocess, htest, Bool.false_eq_true, if_false] at h
  split at h
  · -- the scan finds the owner's first lock again
    have hne : own ≠ [] := by
      rw [hneed.split]
      simp
    rw [flockOwnScan, hfocus.findIdx, if_neg hne, some_or] at h
    rcases flockMergeAndGrant_spec hreq hfocus rfl h with hout | ⟨hnone, -⟩
    · exact hout
    · cases hnone
  · next hskip =>
    rw [not_or] at hskip
    split at h
    · cases h
    · obtain ⟨scan, hscan, h⟩ := bind_eq_some_iff.mp h
      have hno := hclear hskip.2 (Bool.not_eq_true _ ▸ hskip.1)
      have hmeans := flockConflictScan_means env v.flockHash req intention _ _ _ _ _ hscan
      cases scan with
      | clear ownlocks =>
        rw [hmeans.2.2, some_or] at h
        -- merging goes on from the lock that has to be split
        have hlist : v.lrGranted = (pre ++ a) ++ (lock :: (b ++ post)) := by
          rw [hfocus.split, hneed.split]
          simp
        have hlen : pre.length + a.length = (pre ++ a).length := length_append.symm
        have htake : v.lrGranted.take (pre.length + a.length) = pre ++ a := by
          rw [hlist, hlen]
          exact take_left ..
        have hdrop : v.lrGranted.drop (pre.length + a.length) = lock :: (b ++ post) := by
          rw [hlist, hlen]
          exact drop_left ..
        have hrun := (hneed.loop hreq hfocus.ownList [] (b ++ post)).2 id
        rw [show passedState req [] = init req from rfl] at hrun
        simp only [flockMergeAndGrant, Option.getD_some, htake, hdrop, hrun] at h
        obtain ⟨out, hout, rfl⟩ := map_eq_some_iff.mp h
        exact ⟨out, rfl, hneed.grant hreq hfocus (append_nil _) hout⟩
      | blocked lock' => exact absurd hmeans.2.2 (hno lock' hmeans.2.1)
      | stillBlocked =>
        obtain ⟨-, lock', hmem, hc⟩ := hmeans.resolve_right Bool.false_ne_true
        exact absurd hc (hno lock' hmem)
      | deadlock lock' => exact absurd hmeans.2.2.1 (hno lock' hmeans.2.1)

end

/-- What is granted from a view off whose hash the request has been taken, and
that has handed out an identity, is granted from the view before. -/
theorem Granted.weaken {v1 : FlockView} (h : Granted { v with
      flockHash := ldlmFlockBlockingUnlink v.flockHash req, nextId := v.nextId + 1 } req v1) :
    Granted v req v1 := by
  refine ⟨h.wf, h.held, h.waiting, h.hash.trans ?_, Nat.le_of_succ_le h.next⟩
  simp only [ldlmFlockBlockingUnlink]
  split
  · rfl
  · simp

theorem flockProcess_cases (hwf : FlockWf v.lrGranted) (hreq : req.Request)
    (h : ldlmProcessFlockLock env reprocess alloc v req flags intention = some out) :
    FlockCase env reprocess alloc v req flags intention out := by
  obtain ⟨pre, own, post, hfocus⟩ := hwf.focus req.key
  obtain ⟨r, hr, h⟩ := bind_eq_some_iff.mp h
  rcases flockReprocess_first hreq hfocus alloc hr with
    ⟨out', rfl, hcase⟩ | ⟨htest, hclear, a, lock, b, hneed, rfl⟩
  · exact Option.some.inj h ▸ hcase
  · -- a split: the second pass needs a new lock
    dsimp only at h
    split at h
    · next halloc =>
      rw [flockReject_eq h]
      exact .rejected rfl rfl rfl ⟨rfl, rfl, .inr rfl, rfl⟩
        (.inl ⟨Bool.not_eq_true _ ▸ halloc, rfl, rfl⟩)
    · obtain ⟨r', hr', h⟩ := bind_eq_some_iff.mp h
      obtain ⟨out', rfl, hg, hd, hrc, hend⟩ := hneed.secondPass (v := { v with
        flockHash := ldlmFlockBlockingUnlink v.flockHash req
        nextId := v.nextId + 1 }) hreq hfocus htest hclear hr'
      cases h
      refine .granted hg hd hrc hclear ?_
      cases hend with
      | quiet hgr hcalls hidle => exact .quiet hgr.weaken hcalls hidle
      | rescan v1 r hgr hint hnl hrep hview hcalls =>
        exact .rescan v1 r hgr.weaken hint hnl hrep hview hcalls

end Cases

/-! ## The waiting queue -/

/-- The requests granted by the calls of a scan, in order. -/
def grantedBy (calls : List FlockCall) : List FlockLock :=
  (calls.filter fun c => c.granted).map FlockCall.req

/-- A call of the scan and the requests it grants. -/
theorem grantedBy_cons (c : FlockCall) (calls : List FlockCall) :
    grantedBy (c :: calls) = (if c.granted then [c.req] else []) ++ grantedBy calls := by
  rw [grantedBy, filter_cons]
  split <;> rfl

/-- A scan grants requests of the queue one after the other, each with POSIX
meaning. -/
theorem ldlmReprocessQueue_posix (env : FlockEnv) (alloc : ℕ → Bool) (queue : List FlockLock) :
    ∀ v r, FlockWf v.lrGranted → (∀ w ∈ queue, w.Request) →
      ldlmReprocessQueue env alloc v queue = some r → FlockWf r.view.lrGranted ∧
        heldAt r.view.lrGranted = (grantedBy r.calls).foldl posixWrite (heldAt v.lrGranted) ∧
        (grantedBy r.calls).Sublist queue := by
  induction queue with
  | nil =>
    intro v r hwf _ h
    cases h
    exact ⟨hwf, rfl, List.Sublist.refl _⟩
  | cons w queue ih =>
    intro v r hwf hreq h
    rw [ldlmReprocessQueue] at h
    obtain ⟨out, hout, h⟩ := bind_eq_some_iff.mp h
    -- the request is written over what is held, or nothing is granted
    obtain ⟨hwf', hheld⟩ : FlockWf out.view.lrGranted ∧ heldAt out.view.lrGranted =
        (if out.granted then [w] else []).foldl posixWrite (heldAt v.lrGranted) := by
      cases flockProcess_cases hwf (hreq w mem_cons_self) hout with
      | rejected hg _ _ hdrop => rw [hg, hdrop.granted]; exact ⟨hwf, rfl⟩
      | refused _ _ _ _ _ _ _ hint | queued _ _ _ _ _ _ hint => cases hint
      | stillBlocked _ hg _ _ _ _ _ _ hview => rw [hg, hview]; exact ⟨hwf, rfl⟩
      | cancelled _ hg _ _ _ _ _ _ _ hdrop =>
        rw [hg]
        rcases hdrop with ⟨hdrop, -⟩ | ⟨hview, -⟩
        · rw [hdrop.granted]
          exact ⟨hwf, rfl⟩
        · rw [hview]
          exact ⟨hwf, rfl⟩
      | granted hg _ _ _ hend =>
        rw [hg]
        cases hend with
        | quiet hgr => exact ⟨hgr.wf, hgr.held⟩
        | rescan _ _ _ hint => cases hint
    have hsub : (if out.granted then [w] else []).Sublist [w] := by
      split
      · exact List.Sublist.refl _
      · exact nil_sublist _
    split at h
    · obtain ⟨r', hr', h⟩ := bind_eq_some_iff.mp h
      cases h
      obtain ⟨hwf'', hheld'', hsub''⟩ := ih out.view r' hwf'
        (forall_mem_cons.mp hreq).2 hr'
      rw [grantedBy_cons, foldl_append]
      exact ⟨hwf'', hheld ▸ hheld'', hsub.append hsub''⟩
    · cases h
      rw [grantedBy_cons, foldl_append]
      exact ⟨hwf', hheld, hsub.append (nil_sublist _)⟩

/-! ## The meaning of a granted request -/

/-- A call that grants its request leaves a well-formed list, which means what it
meant before with the request written over it, and over that the waiting
requests that an unlock lets the call grant. -/
theorem flock_posix (env : FlockEnv) (alloc : ℕ → Bool) (v : FlockView) (req : FlockLock)
    (flags : FlockFlags) (intention : LdlmProcessIntention) (out : FlockOut)
    (hwf : FlockWf v.lrGranted) (hwaiting : ∀ w ∈ v.lrWaiting, w.Request) (hreq : req.Request)
    (h : ldlmProcessFlockLock env (fun v => ldlmReprocessQueue env alloc v v.lrWaiting)
      (alloc req.id) v req flags intention = some out) (hgranted : out.granted = true) :
    FlockWf out.view.lrGranted ∧ heldAt out.view.lrGranted =
        (grantedBy out.calls).foldl posixWrite (posixWrite (heldAt v.lrGranted) req) ∧
      (grantedBy out.calls).Sublist v.lrWaiting ∧
      (req.lReqMode ≠ .nl ∨ intention ≠ .enqueue → out.calls = []) := by
  have hcase := flockProcess_cases hwf hreq h
  cases hcase with
  | rejected hg | refused _ _ _ hg | queued _ _ _ hg | stillBlocked _ hg | cancelled _ hg =>
    rw [hg] at hgranted
    cases hgranted
  | granted _ _ _ _ hend =>
    cases hend with
    | quiet hgr hcalls _ =>
      rw [hcalls]
      exact ⟨hgr.wf, hgr.held, nil_sublist _, fun _ => rfl⟩
    | rescan v1 r hgr hint hnl hrep hview hcalls =>
      have hsub : v1.lrWaiting.Sublist v.lrWaiting := by
        rw [hgr.waiting]
        exact filter_sublist
      obtain ⟨hwf', hheld, hsub'⟩ := ldlmReprocessQueue_posix env alloc v1.lrWaiting v1 r hgr.wf
        (fun w hw => hwaiting w (hsub.subset hw)) hrep
      rw [hview, hcalls]
      exact ⟨hwf', hgr.held ▸ hheld, hsub'.trans hsub,
        fun hno => hno.elim (fun hm => absurd hnl hm) fun hi => absurd hint hi⟩

/-- A read lock inside the owner's write lock splits it. -/
theorem flock_posix_split : ∃ out, ldlmProcessFlockLock (liveClients 2)
        (fun v => ldlmReprocessQueue (liveClients 2) (fun _ => true) v v.lrWaiting) true
        ⟨[(newFlock 0 0 7 7 .pw 0 9).grant], [], [], 2⟩ (newFlock 1 0 7 7 .pr 3 5) zero
        .enqueue = some out ∧
      out.view.lrGranted.map (fun l => (l.lGrantedMode, l.flockStart, l.flockEnd)) =
        [(.pw, 0, 2), (.pr, 3, 5), (.pw, 6, 9)] ∧ FlockWf out.view.lrGranted := by
  have hwf : FlockWf [(newFlock 0 0 7 7 .pw 0 9).grant] :=
    flockWf_singleton ⟨by decide, .inr rfl⟩
  exact ⟨_, rfl, by decide, (flock_posix (liveClients 2) (fun _ => true)
    ⟨[(newFlock 0 0 7 7 .pw 0 9).grant], [], [], 2⟩ (newFlock 1 0 7 7 .pr 3 5) zero
    .enqueue _ hwf (forall_mem_nil _) ⟨by decide, .inl rfl⟩ rfl (by decide)).1⟩

/-- An unlock for which somebody waits changes more than its own range: when the
call returns, the waiting owner holds the lock. -/
theorem flock_posix_wakes :
    ¬ ∀ (env : FlockEnv) (alloc : ℕ → Bool) (v : FlockView) (req : FlockLock)
      (flags : FlockFlags) (intention : LdlmProcessIntention) (out : FlockOut),
      FlockWf v.lrGranted → (∀ w ∈ v.lrWaiting, w.Request) → req.Request →
      ldlmProcessFlockLock env (fun v => ldlmReprocessQueue env alloc v v.lrWaiting)
        (alloc req.id) v req flags intention = some out → out.granted = true →
      FlockWf out.view.lrGranted ∧
        heldAt out.view.lrGranted = posixWrite (heldAt v.lrGranted) req := by
  intro hall
  have hwf : FlockWf [(newFlock 0 0 7 7 .pw 0 9).grant] :=
    flockWf_singleton ⟨by decide, .inr rfl⟩
  let waiter : FlockLock :=
    { newFlock 1 1 8 8 .pw 0 9 with blockingOwner := 7, blockingExport := some 0 }
  have hreq : waiter.Request := ⟨by decide, .inr (.inl rfl)⟩
  obtain ⟨-, hheld⟩ := hall (liveClients 2) (fun _ => true)
    ⟨[(newFlock 0 0 7 7 .pw 0 9).grant], [waiter], [waiter], 3⟩
    (newFlock 2 0 7 7 .nl 0 9) zero .enqueue _ hwf
    (fun w hw => mem_singleton.mp hw ▸ hreq) ⟨by decide, .inr (.inr rfl)⟩ rfl (by decide)
  have hbyte := congrFun (congrFun hheld (8, some 1)) 4
  revert hbyte
  decide

end Lustre
