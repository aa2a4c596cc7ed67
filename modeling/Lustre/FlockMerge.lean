import Lustre.FlockOwn

/-!
# Merging a request with the owner's locks

The merge loop of `ldlm_process_flock_lock` writes the requested mode over the
requested range of the owner's list and leaves such a list again
(`flockMergeLoop_spec`), unless it meets a lock that has to be split, for which
`merged_split` says the same.

The loop has two phases. First it passes the locks that end before the request
(`flockMergeLoop_pass`). From the first lock that does not, every lock starts
at the request's start or later, except that this first one may have to absorb
the request, to be cut or to be split; the rest is `flockMergeLoop_sweep`.
-/

namespace Lustre

/-! ## The sweep -/

/-- The loop stands before `l`, with `left` behind it, and every lock of `l`
starts where `new` starts or later. -/
structure Sweep (k : ℕ × Option ℕ) (m : LdlmMode) (new : FlockLock) (left l : List FlockLock) :
    Prop where
  newKey : new.key = k
  ranged : new.Ranged
  leftOwn : OwnList k left
  restOwn : OwnList k l
  leftNew : ∀ f ∈ left, Before m f new
  leftRest : ∀ f ∈ left, ∀ g ∈ l, Fits f g
  starts : ∀ g ∈ l, new.flockStart ≤ g.flockStart

/-- What the bytes of `new` and of the locks behind it hold; the bytes of `new`
hold `e`. -/
def overlay (e : Option LdlmMode) (new : FlockLock) (l : List FlockLock) (b : ℕ) :
    Option LdlmMode :=
  if new.Covers b then e else modeAt l b

/-- The state of the loop is consistent: it has absorbed the request into a lock
of the right mode, or has not; an unlock never does. -/
structure FlockMerge.Consistent (st : FlockMerge) (m : LdlmMode) : Prop where
  /-- nothing stands between the absorbing lock and the loop -/
  mid : st.mid = []
  /-- the absorbing lock has the mode of the request, which is no unlock -/
  linked : st.linked = true → st.new.lGrantedMode = m ∧ m ≠ .nl
  /-- the request need not be linked if it is absorbed or an unlock -/
  added : st.added = (st.linked || decide (m = .nl))
  isReq : st.linked = false → st.req = st.new

/-- What the mode of the request means for its bytes. -/
def heldMode (m : LdlmMode) : Option LdlmMode := if m = .nl then none else some m

/-- The outcome of a sweep that started in `st` before `l`. -/
structure SweepEnd (k : ℕ × Option ℕ) (m : LdlmMode) (st : FlockMerge) (l : List FlockLock)
    (st' : FlockMerge) (l' : List FlockLock) : Prop where
  sweep : Sweep k m st'.new st.left l'
  swept : ∀ g ∈ l', Behind m g st'.new
  consistent : st'.Consistent m
  left : st'.left = st.left
  located : ∀ b, overlay (heldMode m) st'.new l' b = overlay (heldMode m) st.new l b
  unlinked : st'.linked = false → st'.new = st.new ∧ st.linked = false
  counted : st.overlaps ≤ st'.overlaps
  /-- an unlock that overlaps nothing changes nothing -/
  overlaps : m = .nl → st'.overlaps = 0 → l' = l
  /-- the request keeps its identity, owner and mode -/
  req : st'.req.id = st.req.id ∧ st'.req.lReqMode = st.req.lReqMode

variable {l l' : List FlockLock} {new lock : FlockLock} {st st' : FlockMerge}

open List FlockMerge

section Sweep

variable {k : ℕ × Option ℕ} {m : LdlmMode} {left other : List FlockLock}

theorem Sweep.tail (h : Sweep k m new left (lock :: l)) : Sweep k m new left l where
  __ := h
  restOwn := (ownList_cons.mp h.restOwn).2.2.2
  leftRest f hf g hg := h.leftRest f hf g (mem_cons_of_mem _ hg)
  starts g hg := h.starts g (mem_cons_of_mem _ hg)

theorem sweepEnd_refl (h : Sweep k m st.new st.left l)
    (hc : st.Consistent m) (hs : ∀ g ∈ l, Behind m g st.new) : SweepEnd k m st l st l :=
  ⟨h, hs, hc, rfl, fun _ => rfl, fun hl => ⟨rfl, hl⟩, le_rfl, fun _ _ => rfl, rfl, rfl⟩

/-- `new` grows over a lock of its mode that it overlaps or touches. -/
theorem Sweep.grow (h : Sweep k m new left (lock :: l)) {lock' : FlockLock} (hkey : lock'.key = k) :
    Sweep k m (lock'.setRange new.flockStart (max new.flockEnd lock.flockEnd)) left l := by
  obtain ⟨hr1, hr2⟩ := h.ranged
  obtain ⟨-, hl2⟩ := (h.restOwn.valid lock mem_cons_self).ranged
  exact ⟨hkey, ⟨Nat.le_trans hr1 (Nat.le_max_left ..), Nat.max_le.mpr ⟨hr2, hl2⟩⟩, h.leftOwn,
    h.tail.restOwn, h.leftNew, h.tail.leftRest, h.tail.starts⟩

/-- The bytes of the grown lock are those of the two it came from. -/
theorem overlay_grow
    (h : Sweep k m new left (lock :: l)) (hmode : lock.lGrantedMode = m) (hm : m ≠ .nl)
    (htouch : lock.flockStart ≤ new.flockEnd + 1) (lock' : FlockLock) (b : ℕ) :
    overlay (heldMode m) (lock'.setRange new.flockStart (max new.flockEnd lock.flockEnd)) l b =
      overlay (heldMode m) new (lock :: l) b := by
  have hle := h.starts lock mem_cons_self
  have hheld : heldMode m = some m := if_neg hm
  simp only [overlay, FlockLock.Covers, FlockLock.setRange, modeAt_cons, hmode, hheld]
  split
  · split
    · rfl
    · rw [if_pos (by omega)]
  · rw [if_neg (by omega), if_neg (by omega)]

/-- Whatever lock is allocated, the loop ends behind the locks `l` of the owner, and `P` holds of the
state and the locks that are left of them. -/
def LoopEnds (m : LdlmMode) (other : List FlockLock) (P : FlockMerge → List FlockLock → Prop)
    (st : FlockMerge) (l : List FlockLock) : Prop :=
  ∃ st' l', (∀ new2, flockMergeLoop m new2 st (l ++ other) = .done st' (l' ++ other)) ∧ P st' l'

/-- A turn of the loop, and the rest of it. -/
theorem LoopEnds.step {P Q : FlockMerge → List FlockLock → Prop} {st1 : FlockMerge}
    {l1 : List FlockLock} (h : LoopEnds m other P st1 l1) (hstep : ∀ new2,
      flockMergeLoop m new2 st (l ++ other) = flockMergeLoop m new2 st1 (l1 ++ other))
    (hpq : ∀ st' l', P st' l' → Q st' l') : LoopEnds m other Q st l := by
  obtain ⟨st', l', hrun, hend⟩ := h
  exact ⟨st', l', fun new2 => (hstep new2).trans (hrun new2), hpq st' l' hend⟩

/-- The loop stops at a lock of another owner. -/
theorem flockMergeLoop_other (hkey : st.new.key = k)
    (hother : ∀ f, other.head? = some f → f.key ≠ k) (new2 : Option ℕ) :
    flockMergeLoop m new2 st other = .done st other := by
  cases other with
  | nil => rfl
  | cons f other =>
    have hne : ¬ ldlmSameFlockOwner f st.new = true := by
      rw [ldlmSameFlockOwner_iff, hkey]
      exact hother f rfl
    rw [flockMergeLoop, if_pos hne]

/-- One lock further, `new` having absorbed `lock`. -/
theorem SweepEnd.absorb {st st1 st' : FlockMerge}
    (h : SweepEnd k m st1 l st' l') (hm : m ≠ .nl) (hleft : st1.left = st.left)
    (hlinked : st1.linked = true) (hover : st1.overlaps = st.overlaps)
    (hreq : st1.req.id = st.req.id ∧ st1.req.lReqMode = st.req.lReqMode)
    (hloc : ∀ b, overlay (heldMode m) st1.new l b = overlay (heldMode m) st.new (lock :: l) b) :
    SweepEnd k m st (lock :: l) st' l' where
  __ := h
  sweep := hleft ▸ h.sweep
  left := h.left.trans hleft
  located b := (h.located b).trans (hloc b)
  unlinked hl := absurd ((h.unlinked hl).2.symm.trans hlinked) Bool.false_ne_true
  counted := hover ▸ h.counted
  overlaps hnl := absurd hnl hm
  req := ⟨h.req.1.trans hreq.1, h.req.2.trans hreq.2⟩

/-- The lock at the head sticks out behind `new` and keeps what sticks out. -/
theorem sweepEnd_trim (h : Sweep k m st.new st.left (lock :: l)) (hc : st.Consistent m)
    (hmode : lock.lGrantedMode ≠ m) (hov : lock.flockStart ≤ st.new.flockEnd)
    (hout : st.new.flockEnd < lock.flockEnd) : SweepEnd k m st (lock :: l) st.overlap
      (lock.setRange (st.new.flockEnd + 1) lock.flockEnd :: l) := by
  obtain ⟨hkey, hvalid, hfits, hl⟩ := ownList_cons.mp h.restOwn
  obtain ⟨hr1, hr2⟩ := h.ranged
  obtain ⟨hv1, hv2⟩ := hvalid.ranged
  have hle := h.starts lock mem_cons_self
  refine ⟨⟨h.newKey, h.ranged, h.leftOwn, ?_, h.leftNew, fun f hf => forall_mem_cons.mpr
      ⟨?_, (forall_mem_cons.mp (h.leftRest f hf)).2⟩,
      forall_mem_cons.mpr ⟨Nat.le_succ_of_le hr1, (forall_mem_cons.mp h.starts).2⟩⟩,
    forall_mem_cons.mpr ⟨⟨Nat.lt_succ_self _, fun heq => absurd heq hmode⟩, fun g hg => ?_⟩,
    { hc with }, rfl, fun b => ?_,
    fun hl => ⟨rfl, hl⟩, Nat.le_succ _, fun _ h0 => absurd h0 (Nat.succ_ne_zero _), rfl, rfl⟩
  · exact ownList_cons.mpr ⟨hkey, ⟨⟨hout, hv2⟩, hvalid.mode⟩, hfits, hl⟩
  · have hf' := (h.leftNew f hf).1
    refine ⟨?_, fun _ => ?_⟩
    · change f.flockEnd < st.new.flockEnd + 1
      omega
    · change f.flockEnd + 1 < st.new.flockEnd + 1
      omega
  · have := (hfits g hg).1
    exact ⟨Nat.lt_trans hout this, fun _ => Nat.lt_of_le_of_lt hout this⟩
  · change overlay (heldMode m) st.new _ b = _
    simp only [overlay, modeAt_cons]
    by_cases hb : st.new.Covers b
    · rw [if_pos hb, if_pos hb]
    · rw [if_neg hb, if_neg hb]
      refine if_congr ?_ rfl rfl
      simp only [FlockLock.Covers, FlockLock.setRange] at hb ⊢
      omega

/-- One lock further, `lock` having been destroyed under `new`. -/
theorem SweepEnd.cover (h : SweepEnd k m (st.overlap.destroy lock) l st' l')
    (hs : Sweep k m st.new st.left (lock :: l)) (hcov : lock.flockEnd ≤ st.new.flockEnd) :
    SweepEnd k m st (lock :: l) st' l' where
  __ := h
  located b := by
    have hle := hs.starts lock mem_cons_self
    refine (h.located b).trans ?_
    change overlay (heldMode m) st.new l b = _
    simp only [overlay, modeAt_cons]
    by_cases hb : st.new.Covers b
    · rw [if_pos hb, if_pos hb]
    · have hlock : ¬ lock.Covers b := by
        simp only [FlockLock.Covers] at hb ⊢
        omega
      rw [if_neg hb, if_neg hb, if_neg hlock]
  counted := le_trans (Nat.le_succ _) h.counted
  overlaps _ h0 := by
    have hcount : st.overlaps + 1 ≤ st'.overlaps := h.counted
    omega

/-- The rest of the loop, once every lock starts where the request starts or
later. The induction is on the locks of the owner that are left. -/
theorem flockMergeLoop_sweep (hother : ∀ f, other.head? = some f → f.key ≠ k)
    (l : List FlockLock) : ∀ st : FlockMerge, Sweep k m st.new st.left l → st.Consistent m →
      LoopEnds m other (SweepEnd k m st l) st l := by
  induction l with
  | nil =>
    intro st h hc
    exact ⟨st, [], fun new2 => flockMergeLoop_other h.newKey hother new2,
      sweepEnd_refl h hc (forall_mem_nil _)⟩
  | cons lock l ih =>
    intro st h hc
    obtain ⟨hkey, hvalid, hfits, hl⟩ := ownList_cons.mp h.restOwn
    have hle := h.starts lock mem_cons_self
    obtain ⟨hr1, hr2⟩ := hvalid.ranged
    have hkey' : lock.key = st.new.key := hkey.trans h.newKey.symm
    by_cases hbehind : Behind m lock st.new
    · refine ⟨st, lock :: l, fun new2 =>
        flockMergeLoop_behind hkey' h.ranged hvalid.ranged hbehind,
        sweepEnd_refl h hc (forall_mem_cons.mpr ⟨hbehind, fun g hg => ?_⟩)⟩
      have hgt := (hfits g hg).1
      have hlt := hbehind.1
      exact ⟨by omega, fun _ => by omega⟩
    by_cases hmode : lock.lGrantedMode = m
    · -- the lock and `new` become one
      have hm : m ≠ .nl := hmode ▸ hvalid.mode_ne_nl
      have htouch : lock.flockStart ≤ st.new.flockEnd + 1 := by
        by_contra hfar
        exact hbehind ⟨by omega, fun _ => by omega⟩
      have hadd := hc.added
      rw [decide_eq_false hm, Bool.or_false] at hadd
      have hstep : ∀ new2, flockMergeLoop m new2 st (lock :: l ++ other) = _ := fun new2 =>
        flockMergeLoop_join hkey' h.ranged hvalid.ranged hmode (by omega) htouch
      rw [hadd, Nat.min_eq_left hle] at hstep
      cases hlinked : st.linked with
      | true =>
        simp only [hlinked, if_true] at hstep
        refine (ih ((st.extend st.new.flockStart (max st.new.flockEnd lock.flockEnd)).destroy lock)
          (h.grow h.newKey) { hc with isReq := fun hf => by cases hlinked.symm.trans hf }).step hstep
          fun st' l' hend => ?_
        exact hend.absorb hm rfl hlinked rfl ⟨rfl, rfl⟩ (overlay_grow h hmode hm htouch _)
      | false =>
        simp only [hlinked, Bool.false_eq_true, if_false] at hstep
        have hreq := hc.isReq hlinked
        refine (ih (st.link lock st.new.flockStart (max st.new.flockEnd lock.flockEnd))
          (h.grow hkey) ⟨hc.mid, fun _ => ⟨hmode, hm⟩, rfl, nofun⟩).step hstep fun st' l' hend => ?_
        exact hend.absorb hm rfl rfl rfl ⟨by rw [hreq]; rfl, by rw [hreq]; rfl⟩
          (overlay_grow h hmode hm htouch _)
    · have hov : lock.flockStart ≤ st.new.flockEnd := by
        by_contra hlt
        exact hbehind ⟨by omega, fun heq => absurd heq hmode⟩
      by_cases hout : st.new.flockEnd < lock.flockEnd
      · exact ⟨_, _, fun new2 => flockMergeLoop_trim hkey' hvalid.ranged hmode hle hov hout,
          sweepEnd_trim h hc hmode hov hout⟩
      · exact (ih (st.overlap.destroy lock) h.tail { hc with }).step
          (fun new2 => flockMergeLoop_cover hkey' hvalid.ranged hmode hle (by omega))
          fun st' l' hend => hend.cover h (by omega)

/-- The list that a finished sweep leaves, with the request linked if it has to be. -/
theorem SweepEnd.ownList (req : FlockLock)
    (h : SweepEnd k m st l st' l') (hm : m = .pr ∨ m = .pw ∨ m = .nl) (hmode : req.lGrantedMode = m)
    (hreq : st'.linked = false → req.key = k ∧ req.flockStart = st'.new.flockStart ∧
      req.flockEnd = st'.new.flockEnd) : OwnList k (st'.granted req [] l') ∧
      ∀ b, modeAt (st'.granted req [] l') b =
        (modeAt st.left b).or (overlay (heldMode m) st.new l b) := by
  -- a lock with the range of `new` and the mode of the request fits between `left` and `l'`
  have hfit : ∀ x : FlockLock, x.key = k → x.flockStart = st'.new.flockStart →
      x.flockEnd = st'.new.flockEnd → x.lGrantedMode = m → m ≠ .nl →
      OwnList k (st.left ++ x :: l') ∧ ∀ b, modeAt (st.left ++ x :: l') b =
        (modeAt st.left b).or (overlay (heldMode m) st.new l b) := by
    intro x hkey hs he hx hnl
    have hvalid : x.Valid := by
      refine ⟨?_, ?_⟩
      · rw [FlockLock.Ranged, hs, he]
        exact h.sweep.ranged
      · rw [hx]
        rcases hm with hm | hm | hm
        · exact .inl hm
        · exact .inr hm
        · exact absurd hm hnl
    refine ⟨ownList_insert (ownList_append.mpr
      ⟨h.sweep.leftOwn, h.sweep.restOwn, h.sweep.leftRest⟩) hkey hvalid (fun f hf => ?_)
      fun g hg => ?_, fun b => ?_⟩
    · rw [Before, hs, hx]
      exact h.sweep.leftNew f hf
    · rw [Behind, he, hx]
      exact h.swept g hg
    · rw [modeAt_append, ← h.located, modeAt_cons, overlay, hx, heldMode, if_neg hnl]
      congr 1
      exact if_congr (by rw [FlockLock.Covers, FlockLock.Covers, hs, he]) rfl rfl
  obtain ⟨hmid, hlinked, hadded, -⟩ := h.consistent
  rw [granted, passed, h.left, hmid, append_nil]
  cases hl : st'.linked with
  | true =>
    obtain ⟨hmode', hnl⟩ := hlinked hl
    rw [hadded, hl, if_pos rfl, Bool.true_or, if_pos rfl, append_nil, append_assoc]
    exact hfit st'.new h.sweep.newKey rfl rfl hmode' hnl
  | false =>
    rw [hadded, hl, if_neg Bool.false_ne_true, Bool.false_or, append_nil]
    by_cases hnl : m = .nl
    · rw [decide_eq_true hnl, if_pos rfl, append_nil]
      refine ⟨ownList_append.mpr ⟨h.sweep.leftOwn, h.sweep.restOwn, h.sweep.leftRest⟩, fun b => ?_⟩
      rw [modeAt_append, ← h.located, overlay, heldMode, if_pos hnl]
      by_cases hb : st'.new.Covers b
      · -- nothing behind the range reaches into it
        have hnone : modeAt l' b = none := modeAt_eq_none fun g hg hg' => by
          have := (h.swept g hg).1
          simp only [FlockLock.Covers] at hb hg'
          omega
        rw [if_pos hb, hnone]
      · rw [if_neg hb]
    · rw [decide_eq_false hnl, if_neg Bool.false_ne_true, append_assoc]
      obtain ⟨hkey, hs, he⟩ := hreq hl
      exact hfit req hkey hs he hmode hnl

end Sweep

/-! ## The whole loop -/

/-- A request as it comes from a client: a range, and the mode of a read lock, a
write lock or an unlock. -/
structure FlockLock.Request (req : FlockLock) : Prop where
  /-- the range -/
  ranged : req.Ranged
  /-- the mode -/
  mode : req.lReqMode = .pr ∨ req.lReqMode = .pw ∨ req.lReqMode = .nl

/-- The request as a granted lock. -/
def FlockLock.grant (req : FlockLock) : FlockLock := { req with lGrantedMode := req.lReqMode }

/-- `own'` is the owner's list `own` with the request written over it. -/
structure Merged (req : FlockLock) (own own' : List FlockLock) : Prop where
  ownList : OwnList req.key own'
  /-- the requested range holds the requested mode, other bytes what they held -/
  located : ∀ b, modeAt own' b = if req.Covers b then heldMode req.lReqMode else modeAt own b

/-- The request lies strictly inside a lock of another mode, which has to be split. -/
def Splits (req lock : FlockLock) : Prop :=
  lock.lGrantedMode ≠ req.lReqMode ∧ lock.flockStart < req.flockStart ∧ req.flockEnd < lock.flockEnd

/-- A state of the loop that has only passed locks. -/
def passedState (req : FlockLock) (left : List FlockLock) : FlockMerge :=
  { init req with left := left }

variable {a l : List FlockLock}

section Merge

variable {req : FlockLock} {other : List FlockLock}

/-- The first phase: the locks that end before the request are passed. -/
theorem flockMergeLoop_pass (hr : req.Ranged) (new2 : Option ℕ) (rest a : List FlockLock) :
    ∀ left, OwnList req.key a → (∀ f ∈ a, Before req.lReqMode f req) →
      flockMergeLoop req.lReqMode new2 (passedState req left) (a ++ rest) =
        flockMergeLoop req.lReqMode new2 (passedState req (left ++ a)) rest := by
  induction a with
  | nil => intro left _ _; rw [append_nil]; rfl
  | cons lock a ih =>
    intro left hown hpass
    obtain ⟨hkey, hvalid, -, hown'⟩ := ownList_cons.mp hown
    have hstep : flockMergeLoop req.lReqMode new2 (passedState req left) (lock :: (a ++ rest)) = _ :=
      flockMergeLoop_before hkey hr hvalid.ranged (hpass lock mem_cons_self)
    have hrest := ih (left ++ [lock]) hown' (forall_mem_cons.mp hpass).2
    rw [append_assoc] at hrest
    exact hstep.trans hrest

/-- What the end of a sweep means for the whole list. -/
theorem SweepEnd.merged {l l' own : List FlockLock}
    (h : SweepEnd req.key req.lReqMode st l st' l') (hreq : req.Request)
    (hid : st.req.id = req.id ∧ st.req.lReqMode = req.lReqMode)
    (hst : st.linked = false → st.new = req ∧ st.req = req)
    (hown : ∀ b, (modeAt st.left b).or (overlay (heldMode req.lReqMode) st.new l b) =
      if req.Covers b then heldMode req.lReqMode else modeAt own b) :
    Merged req own (st'.granted st'.req.grant [] l') := by
  obtain ⟨hlist, hmode⟩ := h.ownList st'.req.grant hreq.mode (h.req.2.trans hid.2) fun hl => by
      obtain ⟨hnew, hl0⟩ := h.unlinked hl
      have heq : st'.req = req := (h.consistent.isReq hl).trans (hnew.trans (hst hl0).1)
      rw [heq, hnew, (hst hl0).1]
      exact ⟨rfl, rfl, rfl⟩
  exact ⟨hlist, fun b => (hmode b).trans (hown b)⟩

/-- Bytes of the request are not held by the locks before it. -/
theorem modeAt_before {a : List FlockLock} (hpass : ∀ f ∈ a, Before req.lReqMode f req) {b : ℕ}
    (hb : req.Covers b) : modeAt a b = none := by
  refine modeAt_eq_none fun f hf hc => ?_
  have := (hpass f hf).1
  simp only [FlockLock.Covers] at hb hc
  omega

/-- What the request and the locks behind the passed ones hold is what the whole
list holds with the request written over it. -/
theorem overlay_before (hpass : ∀ f ∈ a, Before req.lReqMode f req) (b : ℕ) :
    (modeAt a b).or (overlay (heldMode req.lReqMode) req l b) =
      if req.Covers b then heldMode req.lReqMode else modeAt (a ++ l) b := by
  rw [modeAt_append, overlay]
  by_cases hb : req.Covers b
  · rw [if_pos hb, if_pos hb, modeAt_before hpass hb, Option.none_or]
  · rw [if_neg hb, if_neg hb]

/-- The loop writes the request over the owner's locks. -/
structure LoopSpec (req : FlockLock) (own : List FlockLock) (st : FlockMerge)
    (l : List FlockLock) : Prop where
  id : st.req.id = req.id
  mode : st.req.lReqMode = req.lReqMode
  merged : Merged req own (st.granted st.req.grant [] l)
  /-- an unlock that overlaps nothing leaves every byte as it was -/
  idle : req.lReqMode = .nl → st.overlaps = 0 →
    ∀ b, modeAt (st.granted st.req.grant [] l) b = modeAt own b

/-- From a sweep that starts behind the passed locks `a`. -/
theorem loopSpec_of_sweep (st : FlockMerge) (hreq : req.Request)
    (hother : ∀ f, other.head? = some f → f.key ≠ req.key)
    (hsweep : Sweep req.key req.lReqMode st.new st.left l) (hc : st.Consistent req.lReqMode)
    (hid : st.req.id = req.id ∧ st.req.lReqMode = req.lReqMode)
    (hst : st.linked = false → st.new = req ∧ st.req = req)
    (hloc : ∀ b, (modeAt st.left b).or (overlay (heldMode req.lReqMode) st.new l b) =
      if req.Covers b then heldMode req.lReqMode else modeAt a b)
    (hidle : req.lReqMode = .nl → st.overlaps = 0 → ∀ b, modeAt (st.left ++ l) b = modeAt a b) :
    LoopEnds req.lReqMode other (LoopSpec req a) st l := by
  refine (flockMergeLoop_sweep hother l st hsweep hc).step (fun _ => rfl) fun st' l' hend => ?_
  refine ⟨hend.req.1.trans hid.1, hend.req.2.trans hid.2, hend.merged hreq hid hst hloc, ?_⟩
  intro hnl h0 b
  -- an unlock is never linked, and the locks behind it are as they were
  have hlist : st'.granted st'.req.grant [] l' = st.left ++ l := by
    have hlinked : st'.linked = false := by
      by_contra hl
      exact (hend.consistent.linked (Bool.not_eq_false _ ▸ hl)).2 hnl
    rw [granted, passed, hend.consistent.added, hlinked, hnl,
      hend.left, hend.overlaps hnl h0]
    simp
  rw [hlist]
  exact hidle hnl (by have := hend.counted; omega) b

/-- The locks that stand before the request come first. -/
theorem exists_before (req : FlockLock) (m : LdlmMode) (own : List FlockLock) :
    ∃ a l, own = a ++ l ∧ (∀ f ∈ a, Before m f req) ∧
      ∀ lock, l.head? = some lock → ¬ Before m lock req := by
  induction own with
  | nil => exact ⟨[], [], rfl, forall_mem_nil _, nofun⟩
  | cons lock own ih =>
    by_cases hb : Before m lock req
    · obtain ⟨a, l, rfl, ha, hl⟩ := ih
      exact ⟨lock :: a, l, rfl, forall_mem_cons.mpr ⟨hb, ha⟩, hl⟩
    · exact ⟨[], lock :: own, rfl, forall_mem_nil _, fun f hf => Option.some.inj hf ▸ hb⟩

section

variable (hreq : req.Request) (hother : ∀ f, other.head? = some f → f.key ≠ req.key)
include hreq hother

section

variable (hown : OwnList req.key (a ++ lock :: l)) (hpass : ∀ f ∈ a, Before req.lReqMode f req)
include hown hpass

/-- The first lock not before the request has its mode and starts before it: it
absorbs the request. -/
theorem loopSpec_join (hmode : lock.lGrantedMode = req.lReqMode)
    (hs : lock.flockStart < req.flockStart) (htouch : req.flockStart ≤ lock.flockEnd + 1) :
    LoopEnds req.lReqMode other (LoopSpec req (a ++ lock :: l)) (passedState req a)
      (lock :: l) := by
  obtain ⟨ha, hl, hal⟩ := ownList_append.mp hown
  obtain ⟨hkey, hvalid, hfits, hl'⟩ := ownList_cons.mp hl
  obtain ⟨hr1, hr2⟩ := hreq.ranged
  obtain ⟨hv1, hv2⟩ := hvalid.ranged
  have hnl : req.lReqMode ≠ .nl := hmode ▸ hvalid.mode_ne_nl
  have hheld : heldMode req.lReqMode = some req.lReqMode := if_neg hnl
  have hstep : ∀ new2, flockMergeLoop req.lReqMode new2 (passedState req a)
      (lock :: l ++ other) = flockMergeLoop req.lReqMode new2 ((passedState req a).link lock
        lock.flockStart (max req.flockEnd lock.flockEnd)) (l ++ other) := by
    intro new2
    have hadd : (passedState req a).added = false := decide_eq_false hnl
    have hmin : min (passedState req a).new.flockStart lock.flockStart = lock.flockStart :=
      Nat.min_eq_right (Nat.le_of_lt hs)
    have hjoin : flockMergeLoop req.lReqMode new2 (passedState req a) (lock :: (l ++ other)) = _ :=
      flockMergeLoop_join hkey hreq.ranged hvalid.ranged hmode htouch
        (Nat.le_succ_of_le (Nat.le_trans (Nat.le_of_lt hs) hr1))
    rw [hadd, if_neg Bool.false_ne_true, hmin] at hjoin
    exact hjoin
  -- the joined lock covers the bytes of the request and of the lock
  have hloc : ∀ b, (modeAt a b).or (overlay (heldMode req.lReqMode)
      (lock.setRange lock.flockStart (max req.flockEnd lock.flockEnd)) l b) =
      if req.Covers b then heldMode req.lReqMode else modeAt (a ++ lock :: l) b := by
    intro b
    rw [modeAt_append]
    by_cases hb : req.Covers b
    · have hj : (lock.setRange lock.flockStart (max req.flockEnd lock.flockEnd)).Covers b := by
        simp only [FlockLock.Covers, FlockLock.setRange] at hb ⊢
        omega
      rw [if_pos hb, modeAt_before hpass hb, overlay, if_pos hj, Option.none_or]
    · rw [if_neg hb, modeAt_cons, overlay, hmode, hheld]
      congr 1
      refine if_congr ?_ rfl rfl
      simp only [FlockLock.Covers, FlockLock.setRange] at hb ⊢
      omega
  exact (loopSpec_of_sweep
    ((passedState req a).link lock lock.flockStart (max req.flockEnd lock.flockEnd)) hreq hother
    ⟨hkey, ⟨Nat.le_trans hv1 (Nat.le_max_right ..), Nat.max_le.mpr ⟨hr2, hv2⟩⟩, ha, hl',
      fun f hf => hmode ▸ hal f hf lock mem_cons_self,
      fun f hf g hg => hal f hf g (mem_cons_of_mem _ hg),
      fun g hg => Nat.le_trans hv1 (Nat.le_of_lt (hfits g hg).1)⟩
    ⟨rfl, fun _ => ⟨hmode, hnl⟩, rfl, nofun⟩ ⟨rfl, rfl⟩ nofun hloc fun h => absurd h hnl).step hstep
    fun _ _ hspec => hspec

/-- The first lock not before the request has another mode, starts before it and
ends in it: it is cut. -/
theorem loopSpec_cut (hmode : lock.lGrantedMode ≠ req.lReqMode)
    (hs : lock.flockStart < req.flockStart) (hov : req.flockStart ≤ lock.flockEnd)
    (hcov : lock.flockEnd ≤ req.flockEnd) :
    LoopEnds req.lReqMode other (LoopSpec req (a ++ lock :: l)) (passedState req a)
      (lock :: l) := by
  obtain ⟨ha, hl, hal⟩ := ownList_append.mp hown
  obtain ⟨hkey, hvalid, hfits, hl'⟩ := ownList_cons.mp hl
  obtain ⟨hv1, hv2⟩ := hvalid.ranged
  let cut := lock.setRange lock.flockStart (req.flockStart - 1)
  have hcut : ∀ f ∈ a ++ [cut], Before req.lReqMode f req := by
    refine forall_mem_append.mpr ⟨hpass, forall_mem_singleton.mpr ⟨?_, fun heq => absurd heq hmode⟩⟩
    change req.flockStart - 1 < req.flockStart
    omega
  have hleft : OwnList req.key (a ++ [cut]) := by
    refine ownList_append.mpr ⟨ha, ownList_cons.mpr ⟨hkey, ⟨⟨?_, ?_⟩, hvalid.mode⟩,
      forall_mem_nil _, ownList_nil _⟩, fun f hf g hg => ?_⟩
    · change lock.flockStart ≤ req.flockStart - 1
      omega
    · change req.flockStart - 1 ≤ obdObjectEof
      omega
    · rw [mem_singleton.mp hg]
      exact hal f hf lock mem_cons_self
  have hloc : ∀ b, (modeAt (a ++ [cut]) b).or
      (overlay (heldMode req.lReqMode) req l b) =
      if req.Covers b then heldMode req.lReqMode else modeAt (a ++ lock :: l) b := by
    intro b
    refine (overlay_before hcut b).trans ?_
    by_cases hb : req.Covers b
    · rw [if_pos hb, if_pos hb]
    · rw [if_neg hb, if_neg hb, append_assoc, singleton_append, modeAt_append,
        modeAt_append, modeAt_cons, modeAt_cons]
      congr 1
      refine if_congr ?_ rfl rfl
      simp only [cut, FlockLock.Covers, FlockLock.setRange] at hb ⊢
      omega
  have hbehind : ∀ g ∈ l, req.flockStart < g.flockStart := fun g hg =>
    Nat.lt_of_le_of_lt hov (hfits g hg).1
  exact (loopSpec_of_sweep (passedState req (a ++ [cut])).overlap hreq hother
    ⟨rfl, hreq.ranged, hleft, hl', hcut,
      fun f hf g hg => ⟨lt_trans (hcut f hf).1 (hbehind g hg),
        fun _ => lt_of_le_of_lt (hcut f hf).1 (hbehind g hg)⟩,
      fun g hg => le_of_lt (hbehind g hg)⟩
    ⟨rfl, nofun, rfl, fun _ => rfl⟩ ⟨rfl, rfl⟩ (fun _ => ⟨rfl, rfl⟩) hloc
    fun _ h0 => absurd h0 (Nat.succ_ne_zero _)).step
    (fun new2 => flockMergeLoop_cut hkey hreq.ranged hmode hs hov hcov) fun _ _ hspec => hspec

end

/-- The whole loop on the owner's locks: either it writes the request over them,
or it meets a lock that has to be split. -/
theorem flockMergeLoop_spec {own : List FlockLock} (hown : OwnList req.key own) :
    LoopEnds req.lReqMode other (LoopSpec req own) (.init req) own ∨
    ∃ a lock b, own = a ++ lock :: b ∧ (∀ f ∈ a, Before req.lReqMode f req) ∧ Splits req lock := by
  obtain ⟨a, l, rfl, hpass, hhead⟩ := exists_before req req.lReqMode own
  obtain ⟨ha, hl, hal⟩ := ownList_append.mp hown
  -- whatever is done behind the passed locks is done by the whole loop
  have hlift : LoopEnds req.lReqMode other (LoopSpec req (a ++ l)) (passedState req a) l →
      LoopEnds req.lReqMode other (LoopSpec req (a ++ l)) (.init req) (a ++ l) := by
    refine fun h => h.step (fun new2 => ?_) fun _ _ hspec => hspec
    rw [append_assoc]
    exact flockMergeLoop_pass hreq.ranged new2 (l ++ other) a [] ha hpass
  by_cases hstart : ∀ g ∈ l, req.flockStart ≤ g.flockStart
  · refine .inl (hlift (loopSpec_of_sweep _ hreq hother ⟨rfl, hreq.ranged, ha, hl, hpass, hal, hstart⟩
      ⟨rfl, nofun, rfl, fun _ => rfl⟩ ⟨rfl, rfl⟩ (fun _ => ⟨rfl, rfl⟩) (overlay_before hpass)
      fun _ _ _ => rfl))
  · -- only the first of the locks behind can start before the request
    cases l with
    | nil => exact absurd (forall_mem_nil _) hstart
    | cons lock l =>
      obtain ⟨hkey, hvalid, hfits, hl'⟩ := ownList_cons.mp hl
      have hbefore := hhead lock rfl
      have hv1 := hvalid.ranged.1
      have hs : lock.flockStart < req.flockStart := by
        by_contra hge
        refine hstart (forall_mem_cons.mpr ⟨by omega, fun g hg => ?_⟩)
        have := (hfits g hg).1
        omega
      by_cases hmode : lock.lGrantedMode = req.lReqMode
      · refine .inl (hlift (loopSpec_join hreq hother hown hpass hmode hs ?_))
        by_contra hfar
        exact hbefore ⟨by omega, fun _ => by omega⟩
      · have hov : req.flockStart ≤ lock.flockEnd := by
          by_contra hlt
          exact hbefore ⟨by omega, fun heq => absurd heq hmode⟩
        by_cases hout : req.flockEnd < lock.flockEnd
        · exact .inr ⟨a, lock, l, rfl, hpass, hmode, hs, hout⟩
        · exact .inl (hlift (loopSpec_cut hreq hother hown hpass hmode hs hov (by omega)))

end

/-- The request as a granted lock is valid unless it is an unlock. -/
theorem FlockLock.Request.grant_valid (hreq : req.Request) (hnl : req.lReqMode ≠ .nl) :
    req.grant.Valid := by
  refine ⟨hreq.ranged, ?_⟩
  rcases hreq.mode with hm | hm | hm
  · exact .inl hm
  · exact .inr hm
  · exact absurd hm hnl

section Split

variable {a b : List FlockLock} {lock : FlockLock} (hreq : req.Request)
  (hown : OwnList req.key (a ++ lock :: b)) (hpass : ∀ f ∈ a, Before req.lReqMode f req)
  (hsplit : Splits req lock) (id : ℕ)

include hreq hsplit

theorem flockNew2_end : (flockNew2 id req lock).flockEnd = req.flockStart - 1 := by
  have heof : obdObjectEof = 2 ^ 64 - 1 := rfl
  obtain ⟨hr1, hr2⟩ := hreq.ranged
  obtain ⟨-, hs, -⟩ := hsplit
  exact sub64_of_le (by omega) (by omega)

/-- The first half stands before the request. -/
theorem flockNew2_before : Before req.lReqMode (flockNew2 id req lock) req := by
  have hend := flockNew2_end hreq hsplit id
  obtain ⟨hmode, hs, -⟩ := hsplit
  exact ⟨by omega, fun heq => absurd heq hmode⟩

include hown

omit hreq in
/-- The second half, and everything after it, stands behind the request. -/
theorem rest_behind : ∀ g ∈ lock.setRange (req.flockEnd + 1) lock.flockEnd :: b,
    Behind req.lReqMode g req := by
  obtain ⟨hmode, -, hout⟩ := hsplit
  obtain ⟨-, hl, -⟩ := ownList_append.mp hown
  obtain ⟨-, -, hfits, -⟩ := ownList_cons.mp hl
  refine forall_mem_cons.mpr ⟨⟨Nat.lt_succ_self _, fun heq => absurd heq hmode⟩, fun g hg => ?_⟩
  have hgt := (hfits g hg).1
  exact ⟨Nat.lt_trans hout hgt, fun _ => Nat.lt_of_le_of_lt hout hgt⟩

/-- The two halves form a list of the owner with the others. -/
theorem ownList_halves : OwnList req.key ((a ++ [flockNew2 id req lock]) ++
    lock.setRange (req.flockEnd + 1) lock.flockEnd :: b) := by
  obtain ⟨ha, hl, hal⟩ := ownList_append.mp hown
  obtain ⟨hkey, hvalid, hfits, hb⟩ := ownList_cons.mp hl
  obtain ⟨hr1, hr2⟩ := hreq.ranged
  obtain ⟨hv1, hv2⟩ := hvalid.ranged
  have hend := flockNew2_end hreq hsplit id
  obtain ⟨hmode, hs, hout⟩ := hsplit
  have hexport : lock.lExport = req.lExport := congrArg Prod.snd hkey
  have hkey' : (flockNew2 id req lock).key = req.key :=
    congrArg (Prod.mk req.flockOwner) hexport
  have hnew2 : (flockNew2 id req lock).Valid :=
    ⟨⟨by rw [hend]; exact Nat.le_sub_one_of_lt hs, by rw [hend]; omega⟩, hvalid.mode⟩
  refine ownList_append.mpr ⟨ownList_append.mpr ⟨ha, ownList_cons.mpr ⟨hkey', hnew2,
    forall_mem_nil _, ownList_nil _⟩, fun f hf g hg => ?_⟩,
    ownList_cons.mpr ⟨hkey, ⟨⟨hout, hv2⟩, hvalid.mode⟩, hfits, hb⟩, fun f hf g hg => ?_⟩
  · rw [mem_singleton.mp hg]
    exact hal f hf lock mem_cons_self
  · -- everything up to the first half ends before the request, the rest starts behind it
    have hf' : f.flockEnd < req.flockStart := by
      rcases mem_append.mp hf with hf | hf
      · exact lt_trans (hal f hf lock mem_cons_self).1 hs
      · rw [mem_singleton.mp hf, hend]
        omega
    have hg' := (rest_behind hown ⟨hmode, hs, hout⟩ g hg).1
    exact ⟨by omega, fun _ => by omega⟩

omit hown in
/-- The two halves hold what the lock held outside the request. -/
theorem modeAt_halves (c : ℕ) (hc : ¬ req.Covers c) :
    modeAt (flockNew2 id req lock :: lock.setRange (req.flockEnd + 1) lock.flockEnd :: b) c =
      modeAt (lock :: b) c := by
  have hend := flockNew2_end hreq hsplit id
  obtain ⟨-, hs, hout⟩ := hsplit
  obtain ⟨hr1, -⟩ := hreq.ranged
  have hlow : (flockNew2 id req lock).Covers c ↔ lock.Covers c ∧ c < req.flockStart := by
    simp only [FlockLock.Covers, hend] at hc ⊢
    change lock.flockStart ≤ c ∧ _ ↔ _
    omega
  have hhigh : (lock.setRange (req.flockEnd + 1) lock.flockEnd).Covers c ↔
      lock.Covers c ∧ req.flockEnd < c := by
    simp only [FlockLock.Covers, FlockLock.setRange] at hc ⊢
    omega
  rw [modeAt_cons, modeAt_cons, modeAt_cons]
  by_cases hl : lock.Covers c
  · rw [if_pos hl]
    by_cases hlt : c < req.flockStart
    · rw [if_pos (hlow.mpr ⟨hl, hlt⟩)]
      rfl
    · have hgt : req.flockEnd < c := by
        simp only [FlockLock.Covers] at hc
        omega
      rw [if_neg fun h => hlt (hlow.mp h).2, if_pos (hhigh.mpr ⟨hl, hgt⟩)]
      rfl
  · rw [if_neg hl, if_neg fun h => hl (hlow.mp h).1, if_neg fun h => hl (hhigh.mp h).1]

include hpass

/-- A split writes the request over the owner's locks too. -/
theorem merged_split : Merged req (a ++ lock :: b) ((a ++ [flockNew2 id req lock]) ++
    (if req.lReqMode = .nl then [] else [req.grant]) ++
      lock.setRange (req.flockEnd + 1) lock.flockEnd :: b) := by
  have hown' := ownList_halves hreq hown hsplit id
  have hbehind := rest_behind hown hsplit
  have hbefore : ∀ f ∈ a ++ [flockNew2 id req lock], Before req.lReqMode f req :=
    forall_mem_append.mpr ⟨hpass, forall_mem_singleton.mpr (flockNew2_before hreq hsplit id)⟩
  have hinside : ∀ c, req.Covers c →
      modeAt (lock.setRange (req.flockEnd + 1) lock.flockEnd :: b) c = none := fun c hc =>
    modeAt_eq_none fun g hg hgc => by
      have := (hbehind g hg).1
      simp only [FlockLock.Covers] at hc hgc
      omega
  have houtside : ∀ c, ¬ req.Covers c → modeAt ((a ++ [flockNew2 id req lock]) ++
      lock.setRange (req.flockEnd + 1) lock.flockEnd :: b) c = modeAt (a ++ lock :: b) c := by
    intro c hc
    rw [append_assoc, singleton_append, modeAt_append,
      modeAt_halves hreq hsplit id c hc, modeAt_append]
  by_cases hnl : req.lReqMode = .nl
  · rw [if_pos hnl, append_nil]
    refine ⟨hown', fun c => ?_⟩
    by_cases hc : req.Covers c
    · rw [if_pos hc, modeAt_append, modeAt_before hbefore hc, hinside c hc, heldMode, if_pos hnl]
      rfl
    · rw [if_neg hc, houtside c hc]
  · rw [if_neg hnl, append_assoc, singleton_append]
    refine ⟨ownList_insert hown' rfl (hreq.grant_valid hnl) hbefore hbehind, fun c => ?_⟩
    rw [modeAt_append, modeAt_cons]
    by_cases hc : req.Covers c
    · rw [if_pos hc, if_pos (show req.grant.Covers c from hc), modeAt_before hbefore hc, heldMode,
        if_neg hnl]
      rfl
    · rw [if_neg hc, if_neg (show ¬ req.grant.Covers c from hc), ← modeAt_append, houtside c hc]

end Split

end Merge

end Lustre
