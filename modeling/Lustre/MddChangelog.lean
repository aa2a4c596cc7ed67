import Lustre.Run
import Lustre.Word
import Mathlib.Data.List.Basic
import Mathlib.Data.List.TakeWhile

/-!
# The changelog and its users

The MDT keeps a changelog, and a log of its registered users. A user has read the records up to
its `cur_endrec`, and a record is for every user: it may be cancelled when every user has read
it. The smallest `cur_endrec` is found by three callbacks, one for a user who leaves
(`mdd_changelog_user_purge_cb`), one for a user who clears (`mdd_changelog_clear_cb`) and one
at a restart (`changelog_user_detect_orphan_cb`).

Every cancelled record is remembered with the users of that moment (`cancelled`), and
`MddChangelog.Kept` says that all of them had read it. Each operation keeps it, except that a
restart takes a `cur_endrec` of zero for "no user seen yet": a user who has read nothing is
forgotten when a later one in the log has read something (`changelog_restart_forgets`).

`mc_users` is the number of users in the log, and the last one who leaves switches the changelog
off, unless there was a restart with two users: it counts the last one only
(`changelog_users_restart`).
-/

namespace Lustre

open List

/-! ## The changelog -/

/-- `struct llog_changelog_user_rec` -/
structure ChangelogUser where
  /-- `cur_id` -/
  id : ℕ
  /-- `cur_endrec` -/
  endrec : ℕ
  deriving DecidableEq

/-- A record that was cancelled, and the users registered then. -/
structure ChangelogCancel where
  /-- `cr_index` -/
  index : ℕ
  /-- the log of users -/
  users : List ChangelogUser
  deriving DecidableEq

/-- The two logs, `struct mdd_changelog`, and what was cancelled so far. -/
structure MddChangelog where
  /-- the changelog: the `cr_index` of its records, in the order of the log -/
  records : List ℕ
  /-- the log of users, in the order of the log -/
  users : List ChangelogUser
  /-- `mc_index` -/
  index : ℕ
  /-- `mc_lastuser` -/
  lastuser : ℕ
  /-- `mc_users`, an `int`; there are fewer users than ids -/
  userCount : ℤ
  /-- `CLM_ON` of `mc_flags` -/
  on : Bool
  /-- bit `CL_MARK` of `mc_mask` -/
  mark : Bool
  /-- what was cancelled -/
  cancelled : List ChangelogCancel
  deriving DecidableEq

/-- What the operations return. -/
inductive MddRc where
  /-- `0` -/
  | ok
  /-- `-EINVAL` -/
  | einval
  /-- `-ENOENT` -/
  | enoent
  /-- `-EOVERFLOW` -/
  | eoverflow
  /-- the error of a log that cannot be written -/
  | eio
  deriving DecidableEq

def ullongMax : ℕ := 2 ^ 64 - 1

variable (s : MddChangelog)

/-- A record is given the next index and appended. -/
def changelogAppend (ok : Bool) : MddChangelog :=
  let index := u64 (s.index + 1)
  { s with index := index, records := if ok then s.records ++ [index] else s.records }

/-- `mdd_changelog_store`, called while the changelog is on. -/
def mddChangelogStore (ok : Bool) : MddRc × MddChangelog :=
  if s.on then (if ok then .ok else .eio, changelogAppend s ok) else (.ok, s)

def mddChangelogWriteHeader (ok : Bool) : MddRc × MddChangelog :=
  if s.mark then (.ok, s) else (if ok then .ok else .eio, changelogAppend s ok)

/-- `mdd_changelog_on`, `hdr` if the header can be written. -/
def mddChangelogOn (hdr : Bool) : MddRc × MddChangelog :=
  if s.on then (.ok, s) else mddChangelogWriteHeader { s with on := true } hdr

def mddChangelogOff (hdr : Bool) : MddRc × MddChangelog :=
  if s.on then
    let r := mddChangelogWriteHeader s hdr
    (r.1, { r.2 with on := false })
  else (.ok, s)

/-- `llog_changelog_cancel`: records up to `endrec` go, one at a time, until the first newer one
is met or the thread is stopped after `stop` of them. -/
def llogChangelogCancel (endrec stop : ℕ) : MddChangelog :=
  let gone := (s.records.takeWhile fun i => decide (i ≤ endrec)).take stop
  { s with
    records := s.records.drop gone.length
    cancelled := gone.map (fun i => ⟨i, s.users⟩) ++ s.cancelled }

/-- The record up to which `mdd_changelog_llog_cancel` purges: not past the end, and `0` is
shorthand for everything. -/
def mddCancelEnd (cur endrec : ℕ) : ℕ :=
  if min endrec cur = 0 then cur else min endrec cur

def mddChangelogLlogCancel (endrec stop : ℕ) (hdr : Bool) : MddRc × MddChangelog :=
  let upto := mddCancelEnd s.index endrec
  -- purging everything leaves a header, which gives the next start its index
  let r := if upto = s.index then mddChangelogWriteHeader s hdr else (.ok, s)
  if r.1 = .ok then (.ok, llogChangelogCancel r.2 upto stop) else r

/-! ## Users -/

def mddChangelogUserRegister (ok hdr : Bool) : MddRc × MddChangelog :=
  if s.lastuser = 2 ^ 32 - 1 then (.eoverflow, s)
  else
    let id := u32 (s.lastuser + 1)
    let s := { s with lastuser := id }
    if ok then
      mddChangelogOn
        { s with userCount := s.userCount + 1, users := s.users ++ [⟨id, s.index⟩] } hdr
    else (.eio, s)

/-- `struct mdd_changelog_user_purge` after the log of users has been processed. -/
structure MddUserPurge where
  /-- the users that are left -/
  users : List ChangelogUser
  /-- `mcup_usercount` -/
  usercount : ℕ
  /-- `mcup_minrec` -/
  minrec : ℕ
  /-- the entries that were cancelled; `mcup_found` if there are any -/
  found : ℕ
  deriving DecidableEq

/-- `mdd_changelog_user_purge_cb` over the log of users. -/
def mddChangelogUserPurgeCb (id : ℕ) : List ChangelogUser → ℕ → MddUserPurge
  | [], minrec => ⟨[], 0, minrec, 0⟩
  | u :: us, minrec =>
    if u.id ≠ id then
      let r := mddChangelogUserPurgeCb id us (min minrec u.endrec)
      { r with users := u :: r.users, usercount := r.usercount + 1 }
    else
      let r := mddChangelogUserPurgeCb id us minrec
      { r with found := r.found + 1 }

/-- `mdd_changelog_user_purge`; the headers are those of the end and of the purge. -/
def mddChangelogUserPurge (id stop : ℕ) (fini hdr : Bool) : MddRc × MddChangelog :=
  let r := mddChangelogUserPurgeCb id s.users ullongMax
  let s := { s with users := r.users, userCount := s.userCount - r.found }
  let off := if r.usercount = 0 ∧ s.userCount = 0 then mddChangelogOff s fini else (.ok, s)
  if off.1 ≠ .ok ∨ r.found = 0 then (.enoent, off.2)
  -- cancelling record 0 destroys the entire changelog
  else if r.minrec ≠ 0 ∨ r.usercount = 0 then mddChangelogLlogCancel off.2 r.minrec stop hdr
  else (.ok, off.2)

/-- `struct mdd_changelog_user_clear` after the log of users has been processed. -/
structure MddUserClear where
  /-- the users after it -/
  users : List ChangelogUser
  /-- `mcuc_minrec` -/
  minrec : ℕ
  /-- `mcuc_flush` -/
  flush : Bool
  /-- the callback stopped with `-EINVAL` -/
  failed : Bool
  deriving DecidableEq

/-- `mdd_changelog_clear_cb` over the log of users. -/
def mddChangelogClearCb (id endrec : ℕ) : List ChangelogUser → ℕ → MddUserClear
  | [], minrec => ⟨[], minrec, false, false⟩
  | u :: us, minrec =>
    if u.id ≠ id then
      let r := mddChangelogClearCb id endrec us (min minrec u.endrec)
      { r with users := u :: r.users }
    else if endrec < u.endrec then ⟨u :: us, minrec, false, true⟩
    else
      let r := mddChangelogClearCb id endrec us minrec
      { r with users := ⟨u.id, endrec⟩ :: r.users, flush := true }

def mddChangelogClear (id endrec stop : ℕ) (hdr : Bool) : MddRc × MddChangelog :=
  if s.index < endrec then (.einval, s)
  else
    let r :=
      if endrec = 0 then mddChangelogClearCb id s.index s.users ullongMax
      else mddChangelogClearCb id endrec s.users endrec
    let s := { s with users := r.users }
    if r.failed then (.einval, s)
    else if !r.flush then (.enoent, s)
    else if r.minrec ≠ 0 then mddChangelogLlogCancel s r.minrec stop hdr
    else (.ok, s)

/-! ## Restart -/

/-- `changelog_init_cb` and `changelog_user_init_cb`, on the last record of each log. -/
def mddChangelogReload : MddChangelog :=
  let s := { s with index := s.records.getLast?.getD 0 }
  match s.users.getLast? with
  | none => s
  | some u =>
    { s with lastuser := u.id, userCount := s.userCount + 1, index := max s.index u.endrec }

/-- `changelog_user_detect_orphan_cb` over the log of users. -/
def changelogUserDetectOrphan : List ChangelogUser → ℕ → ℕ
  | [], index => index
  | u :: us, index =>
    changelogUserDetectOrphan us (if index = 0 ∨ u.endrec < index then u.endrec else index)

/-- `mdd_changelog_llog_init`, on a device that has just been set up: its mask has `CL_MARK`, so
that no header is written. -/
def mddChangelogLlogInit (stop : ℕ) : MddChangelog :=
  let s := mddChangelogReload s
  -- if there are registered users, changelogs are wanted
  let s := if 0 < toS32 s.lastuser then (mddChangelogOn s true).2 else s
  let userOrphan := changelogUserDetectOrphan s.users 0
  if s.records.head?.getD 0 < userOrphan then llogChangelogCancel s userOrphan stop else s

/-- The MDT stops at any time and starts again: only the two logs are left, and the mask is
`CHANGELOG_DEFMASK`. -/
def mddRestart (stop : ℕ) : MddChangelog :=
  mddChangelogLlogInit
    { s with index := 0, lastuser := 0, userCount := 0, on := false, mark := true } stop

/-! ## Runs -/

/-- What happens to a changelog. -/
inductive MddOp where
  /-- a record is added, `ok` if the log can be written -/
  | store (ok : Bool)
  /-- `changelog_mask` is set -/
  | setMask (mark : Bool)
  /-- a user is registered -/
  | register (ok hdr : Bool)
  /-- a user is unregistered -/
  | purge (id stop : ℕ) (fini hdr : Bool)
  /-- a user clears up to a record -/
  | clear (id endrec stop : ℕ) (hdr : Bool)
  /-- the MDT restarts -/
  | restart (stop : ℕ)
  deriving DecidableEq

/-- One operation. -/
def mddStep : MddOp → Option MddChangelog
  | .store ok => some (mddChangelogStore s ok).2
  | .setMask mark => some { s with mark := mark }
  | .register ok hdr => some (mddChangelogUserRegister s ok hdr).2
  | .purge id stop fini hdr => some (mddChangelogUserPurge s id stop fini hdr).2
  | .clear id endrec stop hdr => some (mddChangelogClear s id endrec stop hdr).2
  | .restart stop => some (mddRestart s stop)

/-- At a restart no user who has read nothing stands before one who has read something. -/
def MddRestartOk : MddOp → Prop
  | .restart _ => s.users.Pairwise fun u v => u.endrec = 0 → v.endrec = 0
  | _ => True

instance (op : MddOp) : Decidable (MddRestartOk s op) := by
  cases op <;> dsimp only [MddRestartOk] <;> infer_instance

/-! ## Records are kept for their readers -/

/-- Every record cancelled so far had been read by every user. -/
def MddChangelog.Kept : Prop :=
  ∀ c ∈ s.cancelled, ∀ u ∈ c.users, c.index ≤ u.endrec

/-- The ids in the log of users. -/
def MddChangelog.ids : List ℕ := s.users.map ChangelogUser.id

/-- Every user has read the records up to one. -/
def MddChangelog.ReadUpTo (endrec : ℕ) : Prop := ∀ u ∈ s.users, endrec ≤ u.endrec

variable {s s' : MddChangelog}

theorem mddChangelogWriteHeader_eq (s : MddChangelog) (hdr : Bool) :
    ∃ records index, (mddChangelogWriteHeader s hdr).2 = { s with records, index } := by
  rw [mddChangelogWriteHeader]
  split
  · exact ⟨_, _, rfl⟩
  · exact ⟨_, _, rfl⟩

theorem mddChangelogOn_eq (s : MddChangelog) (hdr : Bool) :
    ∃ records index, (mddChangelogOn s hdr).2 = { s with records, index, on := true } := by
  rw [mddChangelogOn]
  split
  · next hon => exact ⟨s.records, s.index, by rw [← hon]⟩
  · exact mddChangelogWriteHeader_eq _ hdr

/-- The changelog is switched off if `p` holds. -/
theorem mddChangelogOff_eq (s : MddChangelog) (hdr : Bool) (p : Prop) [Decidable p] :
    ∃ records index, (if p then mddChangelogOff s hdr else (.ok, s)).2 =
      { s with records, index, on := s.on && !decide p } := by
  split
  · next hp =>
    rw [mddChangelogOff]
    split
    · obtain ⟨records, index, hheader⟩ := mddChangelogWriteHeader_eq s hdr
      exact ⟨records, index, by simp [hheader, hp]⟩
    · next hoff => exact ⟨s.records, s.index, by simp [hp, ← Bool.eq_false_iff.mpr hoff]⟩
  · next hp => exact ⟨s.records, s.index, by simp [hp]⟩

theorem MddChangelog.Kept.cancel (h : s.Kept) {endrec : ℕ} (hread : s.ReadUpTo endrec)
    (stop : ℕ) : (llogChangelogCancel s endrec stop).Kept := by
  intro c hc u hu
  rcases mem_append.mp hc with hc | hc
  · obtain ⟨i, hi, rfl⟩ := mem_map.mp hc
    have hlog : i ∈ s.records.takeWhile fun i => decide (i ≤ endrec) := mem_of_mem_take hi
    have hle : i ≤ endrec := by simpa using mem_takeWhile_imp hlog
    exact hle.trans (hread u hu)
  · exact h c hc u hu

/-- A bound other than zero is only lowered to the end. -/
theorem mddCancelEnd_of_ne_zero {cur endrec : ℕ} (h : endrec ≠ 0) :
    mddCancelEnd cur endrec = min endrec cur := by
  rw [mddCancelEnd]
  split
  · next hz => omega
  · rfl

/-- Nothing is cancelled where a header cannot be written. -/
theorem mddChangelogLlogCancel_eq (s : MddChangelog) (endrec stop : ℕ) (hdr : Bool) :
    ∃ records index, let t := { s with records, index }
      let s' := (mddChangelogLlogCancel s endrec stop hdr).2
      s' = t ∨ s' = llogChangelogCancel t (mddCancelEnd s.index endrec) stop := by
  obtain ⟨records, index, heq⟩ : ∃ records index,
      (if mddCancelEnd s.index endrec = s.index then mddChangelogWriteHeader s hdr
        else (.ok, s)).2 = { s with records, index } := by
    split
    · exact mddChangelogWriteHeader_eq s hdr
    · exact ⟨s.records, s.index, rfl⟩
  refine ⟨records, index, ?_⟩
  dsimp only [mddChangelogLlogCancel]
  rw [← heq]
  generalize (if mddCancelEnd s.index endrec = s.index then _ else _ : MddRc × MddChangelog) = r
  split
  · exact .inr rfl
  · exact .inl rfl

/-- `mdd_changelog_llog_cancel`, when every user has read up to its bound. -/
theorem MddChangelog.Kept.llogCancel (h : s.Kept) {endrec : ℕ}
    (hread : s.ReadUpTo (mddCancelEnd s.index endrec)) (stop : ℕ) (hdr : Bool) :
    (mddChangelogLlogCancel s endrec stop hdr).2.Kept := by
  obtain ⟨records, index, heq | heq⟩ := mddChangelogLlogCancel_eq s endrec stop hdr
  · rw [heq]
    exact h
  · rw [heq]
    exact cancel (s := { s with records, index }) h hread stop

/-! ### The three callbacks -/

/-- The users who stay have read up to the minimum; they are counted, and so are those who leave. -/
theorem mddChangelogUserPurgeCb_spec (id : ℕ) (users : List ChangelogUser) (minrec : ℕ) :
    let r := mddChangelogUserPurgeCb id users minrec
    r.minrec ≤ minrec ∧ (∀ u ∈ r.users, r.minrec ≤ u.endrec) ∧ r.usercount = r.users.length ∧
      r.users.Sublist users ∧ r.users.length + r.found = users.length := by
  induction users generalizing minrec with
  | nil => exact ⟨le_rfl, forall_mem_nil _, rfl, .slnil, rfl⟩
  | cons u us ih =>
    rw [mddChangelogUserPurgeCb]
    split
    · obtain ⟨hle, hall, hcount, hsub, hfound⟩ := ih (min minrec u.endrec)
      refine ⟨hle.trans (Nat.min_le_left _ _), ?_, congrArg (· + 1) hcount, hsub.cons_cons u, ?_⟩
      · exact forall_mem_cons.mpr ⟨hle.trans (Nat.min_le_right _ _), hall⟩
      · simp only [length_cons, ← hfound, Nat.add_right_comm]
    · obtain ⟨hle, hall, hcount, hsub, hfound⟩ := ih minrec
      exact ⟨hle, hall, hcount, hsub.cons u, congrArg (· + 1) hfound⟩

/-- A clear keeps the users, and one after it has read up to the minimum, or up to the record that
was cleared. -/
theorem mddChangelogClearCb_spec (id endrec : ℕ) (users : List ChangelogUser) (minrec : ℕ) :
    let r := mddChangelogClearCb id endrec users minrec
    r.users.map ChangelogUser.id = users.map ChangelogUser.id ∧ (r.failed = false →
      r.minrec ≤ minrec ∧ ∀ u ∈ r.users, r.minrec ≤ u.endrec ∨ u.endrec = endrec) := by
  induction users generalizing minrec with
  | nil => exact ⟨rfl, fun _ => ⟨le_rfl, forall_mem_nil _⟩⟩
  | cons u us ih =>
    rw [mddChangelogClearCb]
    split
    · obtain ⟨hids, hread⟩ := ih (min minrec u.endrec)
      refine ⟨congrArg (u.id :: ·) hids, fun hok => ?_⟩
      obtain ⟨hle, hall⟩ := hread hok
      refine ⟨hle.trans (Nat.min_le_left _ _), ?_⟩
      exact forall_mem_cons.mpr ⟨.inl (hle.trans (Nat.min_le_right _ _)), hall⟩
    · split
      · exact ⟨rfl, nofun⟩
      · obtain ⟨hids, hread⟩ := ih minrec
        refine ⟨congrArg (u.id :: ·) hids, fun hok => ?_⟩
        obtain ⟨hle, hall⟩ := hread hok
        exact ⟨hle, forall_mem_cons.mpr ⟨.inr rfl, hall⟩⟩

/-- Users who have read nothing leave the index at zero. -/
theorem changelogUserDetectOrphan_zero (users : List ChangelogUser)
    (h : ∀ u ∈ users, u.endrec = 0) : changelogUserDetectOrphan users 0 = 0 := by
  induction users with
  | nil => rfl
  | cons u us ih =>
    rw [changelogUserDetectOrphan, if_pos (.inl rfl), h u mem_cons_self]
    exact ih (forall_mem_cons.mp h).2

/-- Where no user who has read nothing stands before one who has, an index other than zero is
one up to which every user has read. -/
theorem changelogUserDetectOrphan_le (users : List ChangelogUser) (index : ℕ)
    (hpair : users.Pairwise fun u v => u.endrec = 0 → v.endrec = 0)
    (hne : changelogUserDetectOrphan users index ≠ 0) :
    (∀ u ∈ users, changelogUserDetectOrphan users index ≤ u.endrec) ∧
      (index ≠ 0 → changelogUserDetectOrphan users index ≤ index) := by
  induction users generalizing index with
  | nil => exact ⟨forall_mem_nil _, fun _ => le_rfl⟩
  | cons u us ih =>
    obtain ⟨hu, hus⟩ := pairwise_cons.mp hpair
    rw [changelogUserDetectOrphan] at hne ⊢
    generalize hnext : (if index = 0 ∨ u.endrec < index then u.endrec else index) = next at hne ⊢
    obtain ⟨hall, hbound⟩ := ih next hus hne
    have hnz : next ≠ 0 := by
      -- a zero here is this user's, so all that follow have read nothing either
      rintro rfl
      refine hne (changelogUserDetectOrphan_zero us fun v hv => hu v hv ?_)
      split at hnext <;> omega
    have hle := hbound hnz
    have hfirst : next ≤ u.endrec ∧ (index ≠ 0 → next ≤ index) := by
      split at hnext <;> omega
    refine ⟨?_, fun hi => hle.trans (hfirst.2 hi)⟩
    exact forall_mem_cons.mpr ⟨hle.trans hfirst.1, hall⟩

/-! ### The operations -/

/-- An unregistration: the changelog may be switched off, and then records cancelled. -/
theorem mddChangelogUserPurge_eq (s : MddChangelog) (id stop : ℕ) (fini hdr : Bool) :
    ∃ records index,
    let r := mddChangelogUserPurgeCb id s.users ullongMax
    let t := { s with
      records, index, users := r.users, userCount := s.userCount - r.found
      on := s.on && !decide (r.usercount = 0 ∧ s.userCount - r.found = 0) }
    let s' := (mddChangelogUserPurge s id stop fini hdr).2
    s' = t ∨ (r.minrec ≠ 0 ∨ r.usercount = 0) ∧
      s' = (mddChangelogLlogCancel t r.minrec stop hdr).2 := by
  rw [mddChangelogUserPurge]
  generalize mddChangelogUserPurgeCb id s.users ullongMax = r
  obtain ⟨records, index, hoff⟩ := mddChangelogOff_eq
    { s with users := r.users, userCount := s.userCount - r.found } fini
    (r.usercount = 0 ∧ s.userCount - r.found = 0)
  refine ⟨records, index, ?_⟩
  dsimp only at hoff ⊢
  rw [← hoff]
  generalize (if r.usercount = 0 ∧ s.userCount - r.found = 0 then _ else _ :
    MddRc × MddChangelog) = off
  split
  · exact .inl rfl
  · split
    · next hcancel => exact .inr ⟨hcancel, rfl⟩
    · exact .inl rfl

namespace MddChangelog.Kept

theorem store (h : s.Kept) (ok : Bool) : (mddChangelogStore s ok).2.Kept := by
  rw [mddChangelogStore]
  split <;> exact h

theorem register (h : s.Kept) (ok hdr : Bool) :
    (mddChangelogUserRegister s ok hdr).2.Kept := by
  rw [mddChangelogUserRegister]
  split
  · exact h
  · dsimp only
    split
    · obtain ⟨records, index, hon⟩ := mddChangelogOn_eq
        { s with lastuser := _, userCount := s.userCount + 1, users := s.users ++ [_] } hdr
      rw [hon]
      exact h
    · exact h

theorem purge (h : s.Kept) (id stop : ℕ) (fini hdr : Bool) :
    (mddChangelogUserPurge s id stop fini hdr).2.Kept := by
  obtain ⟨-, hall, hcount, -⟩ := mddChangelogUserPurgeCb_spec id s.users ullongMax
  obtain ⟨records, index, heq | ⟨hcancel, heq⟩⟩ := mddChangelogUserPurge_eq s id stop fini hdr
  · rw [heq]
    exact h
  · rw [heq]
    refine llogCancel (by exact h) ?_ stop hdr
    intro u hu
    -- there is a user, so the minimum is not zero
    have hne := hcancel.resolve_right fun hz =>
      ne_nil_of_mem hu (length_eq_zero_iff.mp (hcount.symm.trans hz))
    rw [mddCancelEnd_of_ne_zero hne]
    exact le_trans (Nat.min_le_left _ _) (hall u hu)

theorem clear (h : s.Kept) (id endrec stop : ℕ) (hdr : Bool) :
    (mddChangelogClear s id endrec stop hdr).2.Kept := by
  rw [mddChangelogClear]
  split
  · exact h
  · dsimp only
    generalize hr : (if endrec = 0 then _ else _ : MddUserClear) = r
    -- whoever clears has read up to the end, or up to the record named, which bounds the minimum
    have hread : r.failed = false → ∀ u ∈ r.users, r.minrec ≤ u.endrec ∨ s.index ≤ u.endrec := by
      intro hok u hu
      split at hr
      · subst hr
        refine (((mddChangelogClearCb_spec id s.index s.users ullongMax).2 hok).2 u hu).imp_right ?_
        exact fun heq => heq.symm.le
      · subst hr
        obtain ⟨hle, hall⟩ := (mddChangelogClearCb_spec id endrec s.users endrec).2 hok
        rcases hall u hu with hmin | heq
        · exact .inl hmin
        · exact .inl (heq ▸ hle)
    split
    · exact h
    · next hok =>
      split
      · exact h
      · split
        · next hne =>
          have hkept : Kept { s with users := r.users } := h
          refine hkept.llogCancel ?_ stop hdr
          intro u hu
          rw [mddCancelEnd_of_ne_zero hne]
          rcases hread (by simpa using hok) u hu with hmin | hend
          · exact le_trans (Nat.min_le_left _ _) hmin
          · exact le_trans (Nat.min_le_right _ _) hend
        · exact h

end MddChangelog.Kept

/-- What a restart takes from the log of users. -/
theorem mddRestart_eq (s : MddChangelog) (stop : ℕ) : ∃ records index,
    let last := s.users.getLast?.map ChangelogUser.id
    let t := { s with
      records, index, lastuser := last.getD 0, userCount := last.toList.length
      on := decide (0 < toS32 (last.getD 0)), mark := true }
    let endrec := changelogUserDetectOrphan s.users 0
    mddRestart s stop =
      if t.records.head?.getD 0 < endrec then llogChangelogCancel t endrec stop else t := by
  rw [mddRestart, mddChangelogLlogInit, mddChangelogReload]
  cases s.users.getLast? with
  | none => exact ⟨_, _, rfl⟩
  | some u =>
    by_cases hon : 0 < toS32 u.id
    · obtain ⟨records, index, heq⟩ := mddChangelogOn_eq { s with
        index := max (s.records.getLast?.getD 0) u.endrec, lastuser := u.id, userCount := 1
        on := false, mark := true } true
      exact ⟨records, index, by simp [heq, hon]⟩
    · exact ⟨s.records, max (s.records.getLast?.getD 0) u.endrec, by simp [hon]⟩

theorem MddChangelog.Kept.restart (h : s.Kept)
    (hpair : s.users.Pairwise fun u v => u.endrec = 0 → v.endrec = 0) (stop : ℕ) :
    (mddRestart s stop).Kept := by
  obtain ⟨records, index, heq⟩ := mddRestart_eq s stop
  rw [heq]
  split
  · next hlt =>
    refine cancel (by exact h) ?_ stop
    intro u hu
    have hne := Nat.ne_of_gt (Nat.zero_lt_of_lt hlt)
    exact (changelogUserDetectOrphan_le s.users 0 hpair hne).1 u hu
  · exact h

theorem MddChangelog.Kept.step (h : s.Kept) {op : MddOp} (hok : MddRestartOk s op)
    (hstep : mddStep s op = some s') : s'.Kept := by
  cases op with
  | store ok =>
    cases hstep
    exact h.store ok
  | setMask mark =>
    cases hstep
    exact h
  | register ok hdr =>
    cases hstep
    exact h.register ok hdr
  | purge id stop fini hdr =>
    cases hstep
    exact h.purge id stop fini hdr
  | clear id endrec stop hdr =>
    cases hstep
    exact h.clear id endrec stop hdr
  | restart stop =>
    cases hstep
    exact h.restart hok stop

/-- In every run whose restarts meet the condition, a record is cancelled only if every user
registered at that moment has read it. -/
theorem changelog_retained (s0 : MddChangelog) (hnew : s0.cancelled = [])
    (h : Reach mddStep MddRestartOk s0 s) :
    ∀ c ∈ s.cancelled, ∀ u ∈ c.users, c.index ≤ u.endrec := by
  have hstart : s0.Kept := by
    intro c hc
    rw [hnew] at hc
    cases hc
  exact h.invariant MddChangelog.Kept hstart (fun _ _ _ hs hok hstep => hs.step hok hstep)

/-- An MDT that was never used, with the default mask. -/
def mddChangelogNew : MddChangelog :=
  { records := [], users := [], index := 0, lastuser := 0, userCount := 0, on := false,
    mark := true, cancelled := [] }

/-- Two users; the second has read up to record 4, then the first up to record 3: the records up
to 3 are cancelled, one before the purge is interrupted and the others by the restart. -/
theorem changelog_retained_two : ∃ s : MddChangelog,
    (∀ c ∈ s.cancelled, ∀ u ∈ c.users, c.index ≤ u.endrec) ∧
      s.cancelled.map ChangelogCancel.index = [2, 3, 1] ∧ s.users = [⟨1, 3⟩, ⟨2, 4⟩] := by
  obtain ⟨s, hreach, hs⟩ : ∃ s, Reach mddStep MddRestartOk mddChangelogNew s ∧
      s.cancelled.map ChangelogCancel.index = [2, 3, 1] ∧ s.users = [⟨1, 3⟩, ⟨2, 4⟩] :=
    exists_reach [.register true true, .store true, .store true, .store true, .store true,
      .register true true, .clear 2 0 9 true, .clear 1 3 1 true, .restart 9] (by decide +kernel)
  exact ⟨s, changelog_retained mddChangelogNew rfl hreach, hs⟩

/-- The first user registers before there is any record, the second after two records; the first
has read nothing. The restart takes the second's position for the smallest one and cancels the
records the first has not read. -/
theorem changelog_restart_forgets : ∃ s : MddChangelog,
    Reach mddStep (fun _ _ => True) mddChangelogNew s ∧
      ∃ c ∈ s.cancelled, ∃ u ∈ c.users, ¬ c.index ≤ u.endrec :=
  exists_reach [.register true true, .store true, .store true, .register true true, .restart 9]
    (by decide +kernel)

/-! ## The number of users -/

/-- The number of users is right, their ids are different, and a user who leaves switches the
changelog off exactly when it is the last one. -/
def MddChangelog.UsersRight (s : MddChangelog) : Prop :=
  s.userCount = s.users.length ∧ s.ids.Nodup ∧ ∀ id stop fini hdr,
    (s.on = true ∧ (mddChangelogUserPurge s id stop fini hdr).2.on = false) ↔
      s.users ≠ [] ∧ (mddChangelogUserPurge s id stop fini hdr).2.users = []

/-- At a restart there is one user at most, for only one is counted, and its id is not negative as
an `int`. -/
def MddRestartFew (s : MddChangelog) : MddOp → Prop
  | .restart _ => s.ids.length ≤ 1 ∧ ∀ i ∈ s.ids, i < 2 ^ 31
  | _ => True

/-- What is known of the ids in the log, `mc_users`, `mc_lastuser` and `CLM_ON`. -/
structure MddUsers (ids : List ℕ) (userCount : ℤ) (lastuser : ℕ) (on : Bool) : Prop where
  count : userCount = ids.length
  sorted : ids.Pairwise (· < ·)
  range : ∀ i ∈ ids, 0 < i ∧ i ≤ lastuser
  last : lastuser < 2 ^ 32
  on : on = true ↔ ids ≠ []

/-- `MddUsers` of a changelog. -/
def MddChangelog.Users (s : MddChangelog) : Prop := MddUsers s.ids s.userCount s.lastuser s.on

namespace MddChangelog.Users

theorem register (h : s.Users) (ok hdr : Bool) :
    (mddChangelogUserRegister s ok hdr).2.Users := by
  rw [mddChangelogUserRegister]
  split
  · exact h
  · next hne =>
    have hlast : s.lastuser + 1 < 2 ^ 32 := Nat.lt_of_le_of_ne h.last (by omega)
    have hrange : ∀ i ∈ s.ids, 0 < i ∧ i ≤ s.lastuser + 1 := fun i hi =>
      ⟨(h.range i hi).1, Nat.le_succ_of_le (h.range i hi).2⟩
    rw [u32_of_lt hlast]
    dsimp only
    split
    · obtain ⟨records, index, hon⟩ := mddChangelogOn_eq { s with
        lastuser := s.lastuser + 1, userCount := s.userCount + 1
        users := s.users ++ [⟨s.lastuser + 1, s.index⟩] } hdr
      rw [hon, Users, ids, map_append]
      refine ⟨?_, pairwise_append.mpr ⟨h.sorted, pairwise_singleton _ _, ?_⟩, ?_, hlast, by simp⟩
      · simp [h.count, ids]
      · simpa [ids] using fun i hi => Nat.lt_succ_of_le (h.range i hi).2
      · exact forall_mem_append.mpr ⟨hrange, by simp⟩
    · exact { h with range := hrange, last := hlast }

theorem llogCancel (h : s.Users) (endrec stop : ℕ) (hdr : Bool) :
    (mddChangelogLlogCancel s endrec stop hdr).2.Users := by
  obtain ⟨_, _, heq | heq⟩ := mddChangelogLlogCancel_eq s endrec stop hdr
  · rw [heq]
    exact h
  · rw [heq]
    exact h

theorem purge (h : s.Users) (id stop : ℕ) (fini hdr : Bool) :
    (mddChangelogUserPurge s id stop fini hdr).2.Users := by
  obtain ⟨-, -, hcount, hsub, hfound⟩ := mddChangelogUserPurgeCb_spec id s.users ullongMax
  obtain ⟨records, index, heq⟩ := mddChangelogUserPurge_eq s id stop fini hdr
  generalize mddChangelogUserPurgeCb id s.users ullongMax = r at hcount hsub hfound heq
  have hids := hsub.map ChangelogUser.id
  have hall := h.count
  rw [ids, length_map] at hall
  have hleft : MddUsers (r.users.map ChangelogUser.id) (s.userCount - r.found) s.lastuser
      (s.on && !decide (r.usercount = 0 ∧ s.userCount - r.found = 0)) := by
    refine ⟨?_, h.sorted.sublist hids, fun i hi => h.range i (hids.subset hi), h.last, ?_⟩
    · rw [length_map]
      omega
    · rw [Bool.and_eq_true, h.on, ids, Bool.not_eq_true', decide_eq_false_iff_not, ne_eq, ne_eq,
        map_eq_nil_iff, map_eq_nil_iff, ← length_eq_zero_iff, ← length_eq_zero_iff]
      omega
  rcases heq with heq | ⟨-, heq⟩
  · rw [heq]
    exact hleft
  · rw [heq]
    exact llogCancel (by exact hleft) _ stop hdr

theorem clear (h : s.Users) (id endrec stop : ℕ) (hdr : Bool) :
    (mddChangelogClear s id endrec stop hdr).2.Users := by
  rw [mddChangelogClear]
  split
  · exact h
  · dsimp only
    generalize hr : (if endrec = 0 then _ else _ : MddUserClear) = r
    have hids : r.users.map ChangelogUser.id = s.ids := by
      rw [← hr]
      split
      · exact (mddChangelogClearCb_spec ..).1
      · exact (mddChangelogClearCb_spec ..).1
    have hclear : MddChangelog.Users { s with users := r.users } := by
      rw [Users, ids, hids]
      exact h
    split
    · exact hclear
    · split
      · exact hclear
      · split
        · exact hclear.llogCancel _ stop hdr
        · exact hclear

theorem restart (h : s.Users) {stop : ℕ} (hfew : MddRestartFew s (.restart stop)) :
    (mddRestart s stop).Users := by
  have hbook : let last := s.users.getLast?.map ChangelogUser.id
      MddUsers s.ids last.toList.length (last.getD 0) (decide (0 < toS32 (last.getD 0))) := by
    obtain ⟨hlen, hlow⟩ := hfew
    have hrange := h.range
    rw [ids] at hlen hlow hrange ⊢
    generalize s.users = users at hlen hlow hrange ⊢
    rcases users with _ | ⟨u, _ | ⟨v, users⟩⟩
    · exact ⟨rfl, .nil, forall_mem_nil _, by decide, by decide⟩
    · have hid := hlow u.id mem_cons_self
      have hpos := (hrange u.id mem_cons_self).1
      exact ⟨rfl, pairwise_singleton _ _, by simpa using hpos, hid.trans (by decide),
        by simp [toS32_of_lt hid, hpos]⟩
    · simp at hlen
  obtain ⟨records, index, heq⟩ := mddRestart_eq s stop
  rw [heq]
  split
  · exact hbook
  · exact hbook

theorem step (h : s.Users) {op : MddOp} (hfew : MddRestartFew s op)
    (hstep : mddStep s op = some s') : s'.Users := by
  cases op with
  | store ok =>
    cases hstep
    rw [mddChangelogStore]
    split <;> exact h
  | setMask mark =>
    cases hstep
    exact h
  | register ok hdr =>
    cases hstep
    exact h.register ok hdr
  | purge id stop fini hdr =>
    cases hstep
    exact h.purge id stop fini hdr
  | clear id endrec stop hdr =>
    cases hstep
    exact h.clear id endrec stop hdr
  | restart stop =>
    cases hstep
    exact h.restart hfew

theorem right (h : s.Users) : s.UsersRight := by
  have hon : ∀ {t : MddChangelog}, t.Users → (t.on = true ↔ t.users ≠ []) := by
    intro t ht
    rw [ht.on, ids, ne_eq, map_eq_nil_iff]
  refine ⟨?_, h.sorted.imp Nat.ne_of_lt, fun id stop fini hdr => ?_⟩
  · rw [h.count, ids, length_map]
  · rw [← Bool.not_eq_true, hon h, hon (h.purge id stop fini hdr), not_not]

end MddChangelog.Users

/-- In every run whose restarts meet the condition the number of users and their ids are right. -/
theorem changelog_users_right (h : Reach mddStep MddRestartFew mddChangelogNew s) :
    s.UsersRight := by
  have hstart : mddChangelogNew.Users := ⟨rfl, .nil, forall_mem_nil _, by decide, by decide⟩
  have husers := h.invariant MddChangelog.Users hstart fun _ _ _ hs hok hstep => hs.step hok hstep
  exact husers.right

/-- A user registers, the MDT restarts, and another user registers. -/
theorem changelog_users_right_restart : ∃ s : MddChangelog,
    s.ids = [1, 2] ∧ s.userCount = 2 ∧ s.UsersRight := by
  have hreach : Reach mddStep MddRestartFew mddChangelogNew _ :=
    .step (.register true true) (.step (.restart 9) (.step (.register true true) .start trivial rfl)
      ⟨by decide, by decide⟩ rfl) trivial rfl
  exact ⟨_, by decide, by decide, changelog_users_right hreach⟩

/-- Two users register, the MDT restarts and counts one, and both leave: nobody is left, and the
changelog is on. -/
theorem changelog_users_restart : ∃ s : MddChangelog,
    Reach mddStep (fun _ _ => True) mddChangelogNew s ∧ s.users = [] ∧ s.on = true ∧
      ¬ s.UsersRight := by
  obtain ⟨s, hreach, husers, hon, hcount⟩ : ∃ s, Reach mddStep (fun _ _ => True) mddChangelogNew s ∧
      s.users = [] ∧ s.on = true ∧ s.userCount ≠ s.users.length :=
    exists_reach [.register true true, .register true true, .restart 9, .purge 1 9 true true,
      .purge 2 9 true true] (by decide +kernel)
  exact ⟨s, hreach, husers, hon, fun hright => hcount hright.1⟩

end Lustre
