import Lustre.Run
import Lustre.Word
import Mathlib.Data.List.Nodup

/-!
# Replay on a client

A client retains the requests that a server may not have committed, and the open requests as long
as the file is open, to replay them after the server has restarted. Requests wait on
`imp_replay_list`, sorted by transaction number; when an open request is committed it moves to the
end of `imp_committed_list`. At replay `ptlrpc_replay_next` first goes through the second list with
a cursor, until the last request on it has been replayed, and then through the first one.

`ObdImport.Sorted` says that both lists are sorted and that the open requests on the first one come
behind the second one; a reply keeps it if it meets `ReplyOk`. On sorted lists replay sends all that
is retained, in order (`client_replay_complete`). A late reply of an open request breaks the order
of the second list, and requests are lost (`client_replay_loses`).
-/

namespace Lustre

/-! ## The import -/

/-- `struct ptlrpc_request`, as far as replay is concerned. -/
structure PtlrpcRequest where
  /-- `rq_xid` -/
  xid : ℕ
  /-- `rq_transno` -/
  transno : ℕ
  /-- `rq_replay`: kept even when it is committed -/
  replay : Bool
  /-- `rq_import_generation` -/
  generation : ℕ
  deriving DecidableEq

/-- `struct obd_import`, as far as replay is concerned. -/
structure ObdImport where
  /-- `imp_replay_list` -/
  replayList : List PtlrpcRequest
  /-- `imp_committed_list` -/
  committedList : List PtlrpcRequest
  /-- `imp_replay_cursor`: the xid of a request on `imp_committed_list`, or its head -/
  cursor : Option ℕ
  /-- `imp_peer_committed_transno` -/
  peerCommitted : ℕ
  /-- `imp_last_transno_checked` -/
  lastTransnoChecked : ℕ
  /-- `imp_generation` -/
  generation : ℕ
  /-- `imp_last_generation_checked` -/
  lastGenerationChecked : ℕ
  /-- `imp_last_replay_transno` -/
  lastReplayTransno : ℕ
  /-- `imp_resend_replay` -/
  resendReplay : Bool
  deriving DecidableEq

variable (imp : ObdImport) (req : PtlrpcRequest)

/-- The request is on one of the lists. -/
def ObdImport.has (xid : ℕ) : Bool :=
  (imp.committedList ++ imp.replayList).any fun r => r.xid == xid

/-! ## Replies -/

/-- The loop of `ptlrpc_retain_replayable_request`, on the list from its end. -/
def retainPrev (req : PtlrpcRequest) : List PtlrpcRequest → List PtlrpcRequest
  | [] => [req]
  | iter :: rest =>
    if req.transno < iter.transno ∨ (iter.transno = req.transno ∧ req.xid < iter.xid) then
      iter :: retainPrev req rest
    else req :: iter :: rest

def ptlrpcRetainReplayableRequest : ObdImport :=
  -- don't re-add requests that have been replayed
  if imp.has req.xid then imp
  else { imp with replayList := (retainPrev req imp.replayList.reverse).reverse }

/-- The first loop of `ptlrpc_free_committed`: what stays on the replay list, and what moves to the
committed list. -/
def freeReplayList (generation committed : ℕ) :
    List PtlrpcRequest → List PtlrpcRequest × List PtlrpcRequest
  | [] => ([], [])
  | req :: rest =>
    if req.generation < generation then freeReplayList generation committed rest
    -- not yet committed: stop searching
    else if committed < req.transno then (req :: rest, [])
    else if req.replay then
      ((freeReplayList generation committed rest).1,
        req :: (freeReplayList generation committed rest).2)
    else freeReplayList generation committed rest

/-- The request stays on the committed list. -/
def PtlrpcRequest.stays (generation : ℕ) (req : PtlrpcRequest) : Bool :=
  !(decide (req.generation < generation) || !req.replay)

open PtlrpcRequest

/-- The second loop of `ptlrpc_free_committed`: what stays on the committed list, and the cursor,
which moves on from a request that is freed. -/
def freeCommittedList (generation : ℕ) :
    List PtlrpcRequest → Option ℕ → List PtlrpcRequest × Option ℕ
  | [], cursor => ([], cursor)
  | req :: rest, cursor =>
    if req.stays generation then
      (req :: (freeCommittedList generation rest cursor).1,
        (freeCommittedList generation rest cursor).2)
    else
      freeCommittedList generation rest
        (if cursor = some req.xid then rest.head?.map xid else cursor)

/-- The import after the first loop of `ptlrpc_free_committed`. -/
def freeReplay : ObdImport :=
  { imp with
    lastTransnoChecked := imp.peerCommitted
    lastGenerationChecked := imp.generation
    replayList := (freeReplayList imp.generation imp.peerCommitted imp.replayList).1
    committedList := imp.committedList ++
      (freeReplayList imp.generation imp.peerCommitted imp.replayList).2 }

/-- The import after the second loop of `ptlrpc_free_committed`. -/
def freeClosed : ObdImport :=
  { imp with
    committedList := (freeCommittedList imp.generation imp.committedList imp.cursor).1
    cursor := (freeCommittedList imp.generation imp.committedList imp.cursor).2 }

/-- `ptlrpc_free_committed`: without a new commit or a new generation there is nothing to do, and
the committed list is gone through only if that is asked for (`imp_last_transno_checked` is 0) or
the generation is new. -/
def ptlrpcFreeCommitted : ObdImport :=
  if imp.peerCommitted = imp.lastTransnoChecked ∧ imp.generation = imp.lastGenerationChecked then
    imp
  else if imp.generation ≠ imp.lastGenerationChecked ∨ imp.lastTransnoChecked = 0 then
    freeClosed (freeReplay imp)
  else freeReplay imp

/-- `after_reply` retains the request. -/
def AfterReplyRetains (lastCommitted : ℕ) : Prop :=
  req.transno ≠ 0 ∧ (lastCommitted < req.transno ∨ req.replay = true)
  deriving Decidable

/-- The import with the commits that a reply tells of. -/
def peerCommit (lastCommitted : ℕ) : ObdImport :=
  if imp.peerCommitted < lastCommitted then { imp with peerCommitted := lastCommitted } else imp

/-- `after_reply` on a replayable import, from the point where the transaction number of the reply
is stored in the request; `lastCommitted` is what the reply says about commits. -/
def afterReply (lastCommitted : ℕ) : ObdImport :=
  if AfterReplyRetains req lastCommitted then
    ptlrpcFreeCommitted (peerCommit (ptlrpcRetainReplayableRequest imp req) lastCommitted)
  else ptlrpcFreeCommitted (peerCommit imp lastCommitted)

/-- The request with its replay flag cleared, if it is the one. -/
def PtlrpcRequest.clear (xid : ℕ) (r : PtlrpcRequest) : PtlrpcRequest :=
  if r.xid = xid then { r with replay := false } else r

/-- A file is closed: its open request need not be kept any longer. -/
def clearReplay (xid : ℕ) : ObdImport :=
  { imp with
    replayList := imp.replayList.map (clear xid)
    committedList := imp.committedList.map (clear xid) }

/-! ## Replay -/

/-- The part of a list that starts with a request. -/
def listFrom (xid : ℕ) : List PtlrpcRequest → List PtlrpcRequest
  | [] => []
  | r :: rest => if r.xid = xid then r :: rest else listFrom xid rest

/-- `imp_replay_cursor->next`. -/
def cursorNext (list : List PtlrpcRequest) : Option ℕ → Option ℕ
  | none => list.head?.map PtlrpcRequest.xid
  | some xid => (listFrom xid list).tail.head?.map PtlrpcRequest.xid

/-- The requests that the loop of `ptlrpc_replay_next` goes through from a cursor. -/
def cursorList (list : List PtlrpcRequest) : Option ℕ → List PtlrpcRequest
  | none => []
  | some xid => listFrom xid list

/-- The request of the committed list to replay next, and the cursor. -/
def replayNextCommitted : Option PtlrpcRequest × Option ℕ :=
  match imp.committedList.getLast? with
  | none => (none, imp.cursor)
  | some last =>
    if imp.lastReplayTransno < last.transno then
      let cursor :=
        if imp.resendReplay = false ∨ imp.cursor = none then
          cursorNext imp.committedList imp.cursor
        else imp.cursor
      match cursorList imp.committedList cursor with
      -- the cursor is at the head: the loop is not entered
      | [] => (some last, none)
      | r :: rest =>
        match (r :: rest).find? fun q => decide (imp.lastReplayTransno < q.transno) with
        | some q => (some q, some q.xid)
        | none => (none, none)
    -- all requests on the committed list have been replayed
    else (none, none)

/-- The request to replay next, when what is committed has been freed. -/
def replayPick : Option PtlrpcRequest :=
  match (replayNextCommitted imp).1 with
  | some req => some req
  | none => imp.replayList.find? fun q => decide (imp.lastReplayTransno < q.transno)

/-- `ptlrpc_free_committed` as `ptlrpc_replay_next` asks for it. -/
def replayFree : ObdImport :=
  ptlrpcFreeCommitted { imp with lastTransnoChecked := 0 }

/-- `ptlrpc_replay_next`: the request that is sent, if any. -/
def ptlrpcReplayNext : Option PtlrpcRequest × ObdImport :=
  let imp := replayFree imp
  (replayPick imp, { imp with cursor := (replayNextCommitted imp).2, resendReplay := false })

/-- The import enters replay. -/
def enterReplay : ObdImport :=
  { imp with lastReplayTransno := 0, cursor := none, resendReplay := false }

/-- Calls of `ptlrpc_replay_next`, each after the reply to the request that the one before sent,
until nothing is left to replay: the requests that are sent. -/
def ptlrpcReplay : ℕ → ObdImport → Option (List PtlrpcRequest)
  | 0, _ => none
  | n + 1, imp =>
    match (ptlrpcReplayNext imp).1 with
    | none => some []
    | some req =>
      (ptlrpcReplay n { (ptlrpcReplayNext imp).2 with lastReplayTransno := req.transno }).map
        (req :: ·)

/-! ## Runs before replay -/

/-- What happens to an import before replay. -/
inductive ImportOp where
  /-- a reply to a request arrives -/
  | reply (req : PtlrpcRequest) (lastCommitted : ℕ)
  /-- the file of an open request is closed -/
  | close (xid : ℕ)
  deriving DecidableEq

/-- One step. -/
def importStep : ImportOp → Option ObdImport
  | .reply req lastCommitted => some (afterReply imp req lastCommitted)
  | .close xid => some (clearReplay imp xid)

/-- A request that is retained comes in order: no request on the replay list has its transaction
number, and if it is to be kept it comes behind all that are on the committed list. -/
def ReplyOk : ImportOp → Prop
  | .reply req lastCommitted => AfterReplyRetains req lastCommitted → imp.has req.xid = false →
      (∀ q ∈ imp.replayList, q.transno ≠ req.transno) ∧
      (req.replay = true → ∀ q ∈ imp.committedList, q.transno < req.transno)
  | .close _ => True

instance (op : ImportOp) : Decidable (ReplyOk imp op) := by
  cases op <;> dsimp only [ReplyOk] <;> infer_instance

/-- An import that retains nothing. -/
def ObdImport.Fresh : Prop := imp.replayList = [] ∧ imp.committedList = []

/-! ## The lists are sorted -/

/-- Order by transaction number. -/
def TransnoLt (a b : PtlrpcRequest) : Prop := a.transno < b.transno

/-- What the lists are like. -/
structure ObdImport.Sorted : Prop where
  xids : ((imp.committedList ++ imp.replayList).map xid).Nodup
  /-- only requests with a transaction number are retained -/
  nonzero : ∀ r ∈ imp.committedList ++ imp.replayList, r.transno ≠ 0
  committed : imp.committedList.Pairwise TransnoLt
  upto : ∀ r ∈ imp.committedList, r.transno ≤ imp.peerCommitted
  replay : imp.replayList.Pairwise TransnoLt
  /-- its open requests come behind the committed list -/
  behind : ∀ c ∈ imp.committedList, ∀ r ∈ imp.replayList, r.replay = true → TransnoLt c r

variable {imp imp' : ObdImport} {req : PtlrpcRequest}

/-! ### Retaining a request -/

theorem retainPrev_perm (req : PtlrpcRequest) (l : List PtlrpcRequest) :
    (retainPrev req l).Perm (req :: l) := by
  induction l with
  | nil => exact .refl _
  | cons iter rest ih =>
    rw [retainPrev]
    split
    · exact (ih.cons iter).trans (.swap _ _ _)
    · exact .refl _

open List

/-- Inserting from the end keeps the order. -/
theorem retainPrev_sorted (req : PtlrpcRequest) (l : List PtlrpcRequest)
    (hsorted : l.Pairwise fun a b => TransnoLt b a) (hne : ∀ q ∈ l, q.transno ≠ req.transno) :
    (retainPrev req l).Pairwise fun a b => TransnoLt b a := by
  induction l with
  | nil => exact pairwise_singleton _ _
  | cons iter rest ih =>
    obtain ⟨hiter, hrest⟩ := pairwise_cons.mp hsorted
    have hiterne := hne iter mem_cons_self
    rw [retainPrev]
    split
    · next hlater =>
      have hlt : req.transno < iter.transno :=
        hlater.resolve_right fun heq => hiterne heq.1
      refine pairwise_cons.mpr ⟨?_, ih hrest (forall_mem_cons.mp hne).2⟩
      intro q hq
      rcases mem_cons.mp ((retainPrev_perm req rest).mem_iff.mp hq) with rfl | hq
      · exact hlt
      · exact hiter q hq
    · next hlater =>
      have hlt : iter.transno < req.transno := by
        rcases Nat.lt_trichotomy iter.transno req.transno with h | h | h
        · exact h
        · exact absurd h hiterne
        · exact absurd (.inl h) hlater
      refine pairwise_cons.mpr ⟨forall_mem_cons.mpr ⟨hlt, fun q hq => ?_⟩, hsorted⟩
      exact lt_trans (hiter q hq) hlt

/-- A request that comes in order is retained in order. -/
theorem ObdImport.Sorted.retain (h : imp.Sorted) (hzero : req.transno ≠ 0)
    (hok : imp.has req.xid = false → (∀ q ∈ imp.replayList, q.transno ≠ req.transno) ∧
      (req.replay = true → ∀ q ∈ imp.committedList, q.transno < req.transno)) :
    (ptlrpcRetainReplayableRequest imp req).Sorted := by
  rw [ptlrpcRetainReplayableRequest]
  split
  · exact h
  · next hnew =>
    obtain ⟨hne, hbehind⟩ := hok (Bool.eq_false_iff.mpr hnew)
    have hperm : (retainPrev req imp.replayList.reverse).reverse.Perm (req :: imp.replayList) :=
      (reverse_perm _).trans ((retainPrev_perm _ _).trans ((reverse_perm _).cons _))
    have hall : (imp.committedList ++ (retainPrev req imp.replayList.reverse).reverse).Perm
        (req :: (imp.committedList ++ imp.replayList)) :=
      (hperm.append_left _).trans perm_middle
    refine ⟨?_, ?_, h.committed, h.upto, ?_, ?_⟩
    · rw [(hall.map xid).nodup_iff]
      refine nodup_cons.mpr ⟨fun hmem => hnew ?_, h.xids⟩
      simpa [ObdImport.has, any_eq_true] using hmem
    · intro r hr
      rcases mem_cons.mp (hall.mem_iff.mp hr) with rfl | hr
      · exact hzero
      · exact h.nonzero r hr
    · rw [pairwise_reverse]
      refine retainPrev_sorted req _ (pairwise_reverse.mpr h.replay) ?_
      intro q hq
      exact hne q (mem_reverse.mp hq)
    · intro c hc r hr hrep
      rcases mem_cons.mp (hperm.mem_iff.mp hr) with rfl | hr
      · exact hbehind hrep c hc
      · exact h.behind c hc r hr hrep

/-! ### Freeing what is committed -/

section

variable (g committed : ℕ)

section

variable (l : List PtlrpcRequest)

/-- What moves and what stays are in the order of the replay list. What moves is committed and to
be kept, and what stays starts with a request that is not committed. -/
theorem freeReplayList_spec : let r := freeReplayList g committed l
    (r.2 ++ r.1).Sublist l ∧ (∀ q ∈ r.2, q.replay = true ∧ q.transno ≤ committed) ∧
      ∀ q ∈ r.1.head?, g ≤ q.generation ∧ committed < q.transno := by
  induction l with
  | nil => exact ⟨.refl _, forall_mem_nil _, nofun⟩
  | cons req rest ih =>
    obtain ⟨hsub, hmoved, hhead⟩ := ih
    rw [freeReplayList]
    split
    · exact ⟨hsub.cons req, hmoved, hhead⟩
    · next hgen =>
      split
      · next hcom =>
        refine ⟨.refl _, forall_mem_nil _, fun q hq => ?_⟩
        cases hq
        exact ⟨not_lt.mp hgen, hcom⟩
      · next hcom =>
        split
        · next hrep =>
          exact ⟨hsub.cons_cons req, forall_mem_cons.mpr ⟨⟨hrep, not_lt.mp hcom⟩, hmoved⟩, hhead⟩
        · exact ⟨hsub.cons req, hmoved, hhead⟩

/-- A list that starts with such a request stays as it is. -/
theorem freeReplayList_of_head (h : ∀ r ∈ l.head?, g ≤ r.generation ∧ committed < r.transno) :
    freeReplayList g committed l = (l, []) := by
  cases l with
  | nil => rfl
  | cons req rest =>
    obtain ⟨hgen, hcom⟩ := h req rfl
    rw [freeReplayList, if_neg (not_lt.mpr hgen), if_pos hcom]

end

end

section

variable (g : ℕ) (l : List PtlrpcRequest)
include g l

theorem freeCommittedList_fst (cursor : Option ℕ) :
    (freeCommittedList g l cursor).1 = l.filter (stays g) := by
  induction l generalizing cursor with
  | nil => rfl
  | cons req rest ih =>
    rw [freeCommittedList, filter_cons]
    split
    · rw [ih]
    · exact ih _

/-- Where nothing is freed the cursor stays. -/
theorem freeCommittedList_of_stays (cursor : Option ℕ) (h : ∀ r ∈ l, r.stays g = true) :
    freeCommittedList g l cursor = (l, cursor) := by
  induction l with
  | nil => rfl
  | cons req rest ih =>
    rw [freeCommittedList, if_pos (h req mem_cons_self), ih (forall_mem_cons.mp h).2]

theorem freeCommittedList_snd_none : (freeCommittedList g l none).2 = none := by
  induction l with
  | nil => rfl
  | cons req rest ih =>
    rw [freeCommittedList]
    split
    · exact ih
    · exact ih

end

namespace ObdImport.Sorted

section

variable (h : imp.Sorted)
include h

theorem freeReplay : (freeReplay imp).Sorted := by
  obtain ⟨hsub, hmoved, -⟩ :=
    freeReplayList_spec imp.generation imp.peerCommitted imp.replayList
  rw [Lustre.freeReplay]
  generalize freeReplayList imp.generation imp.peerCommitted imp.replayList = first
    at hsub hmoved ⊢
  have hmem : ∀ r ∈ first.2 ++ first.1, r ∈ imp.replayList := fun r hr => hsub.subset hr
  have hall : ((imp.committedList ++ first.2) ++ first.1).Sublist
      (imp.committedList ++ imp.replayList) := by
    rw [append_assoc]
    exact hsub.append_left _
  have hpair := pairwise_append.mp (h.replay.sublist hsub)
  refine ⟨h.xids.sublist (hall.map _), fun r hr => h.nonzero r (hall.subset hr), ?_, ?_,
    hpair.2.1, ?_⟩
  · refine pairwise_append.mpr ⟨h.committed, hpair.1, ?_⟩
    intro c hc r hr
    exact h.behind c hc r (hmem r (mem_append_left _ hr)) (hmoved r hr).1
  · exact forall_mem_append.mpr ⟨h.upto, fun r hr => (hmoved r hr).2⟩
  · intro c hc r hr hrp
    rcases mem_append.mp hc with hc | hc
    · exact h.behind c hc r (hmem r (mem_append_right _ hr)) hrp
    · exact hpair.2.2 c hc r hr

theorem freeClosed : (freeClosed imp).Sorted := by
  have hsub : (freeCommittedList imp.generation imp.committedList imp.cursor).1.Sublist
      imp.committedList := by
    rw [freeCommittedList_fst]
    exact filter_sublist
  have hall := hsub.append_right imp.replayList
  exact ⟨h.xids.sublist (hall.map _), fun r hr => h.nonzero r (hall.subset hr),
    h.committed.sublist hsub, fun r hr => h.upto r (hsub.subset hr), h.replay,
    fun c hc => h.behind c (hsub.subset hc)⟩

theorem freeCommitted : (ptlrpcFreeCommitted imp).Sorted := by
  rw [ptlrpcFreeCommitted]
  split
  · exact h
  · split
    · exact h.freeReplay.freeClosed
    · exact h.freeReplay

/-! ### Runs -/

theorem peerCommit (lastCommitted : ℕ) : (peerCommit imp lastCommitted).Sorted := by
  rw [Lustre.peerCommit]
  split
  · next hlt =>
    refine { h with upto := ?_ }
    intro r hr
    exact le_trans (h.upto r hr) hlt.le
  · exact h

theorem reply {lastCommitted : ℕ} (hok : ReplyOk imp (.reply req lastCommitted)) :
    (afterReply imp req lastCommitted).Sorted := by
  rw [afterReply]
  split
  · next hret => exact ((h.retain hret.1 (hok hret)).peerCommit lastCommitted).freeCommitted
  · exact (h.peerCommit lastCommitted).freeCommitted

end

end ObdImport.Sorted

@[simp] theorem PtlrpcRequest.clear_xid (xid : ℕ) (r : PtlrpcRequest) :
    (r.clear xid).xid = r.xid := by
  rw [clear]
  split <;> rfl

@[simp] theorem PtlrpcRequest.clear_transno (xid : ℕ) (r : PtlrpcRequest) :
    (r.clear xid).transno = r.transno := by
  rw [clear]
  split <;> rfl

variable {r : PtlrpcRequest}

theorem PtlrpcRequest.replay_of_clear {xid : ℕ}
    (h : (r.clear xid).replay = true) : r.replay = true := by
  rw [clear] at h
  split at h
  · cases h
  · exact h

theorem pairwise_map_clear {xid : ℕ} {l : List PtlrpcRequest} (h : l.Pairwise TransnoLt) :
    (l.map (clear xid)).Pairwise TransnoLt := by
  rw [pairwise_map]
  refine h.imp ?_
  simp [TransnoLt]

theorem ObdImport.Sorted.close (h : imp.Sorted) (xid : ℕ) : (clearReplay imp xid).Sorted := by
  refine ⟨?_, ?_, pairwise_map_clear h.committed, ?_, pairwise_map_clear h.replay, ?_⟩
  · rw [clearReplay, ← map_append]
    simpa [Function.comp_def] using h.xids
  · rw [clearReplay, ← map_append]
    intro r hr
    obtain ⟨q, hq, rfl⟩ := mem_map.mp hr
    rw [PtlrpcRequest.clear_transno]
    exact h.nonzero q hq
  · intro r hr
    obtain ⟨q, hq, rfl⟩ := mem_map.mp hr
    rw [PtlrpcRequest.clear_transno]
    exact h.upto q hq
  · intro c hc r hr hrp
    obtain ⟨c', hc', rfl⟩ := mem_map.mp hc
    obtain ⟨r', hr', rfl⟩ := mem_map.mp hr
    have hlt := h.behind c' hc' r' hr' (PtlrpcRequest.replay_of_clear hrp)
    simpa [TransnoLt] using hlt

theorem ObdImport.Sorted.step (h : imp.Sorted) {op : ImportOp} (hok : ReplyOk imp op)
    (hstep : importStep imp op = some imp') : imp'.Sorted := by
  cases op with
  | reply req lastCommitted =>
    cases hstep
    exact h.reply hok
  | close xid =>
    cases hstep
    exact h.close xid

/-! ## Replay of sorted lists -/

/-- There is nothing left to free. -/
structure ObdImport.Clean (imp : ObdImport) : Prop where
  replay : ∀ r ∈ imp.replayList.head?, imp.generation ≤ r.generation ∧ imp.peerCommitted < r.transno
  committed : ∀ r ∈ imp.committedList, r.stays imp.generation = true

/-- A recheck is skipped when nothing has ever been committed. -/
def ObdImport.Skips (imp : ObdImport) : Prop :=
  imp.peerCommitted = 0 ∧ imp.generation = imp.lastGenerationChecked

/-- What the next recheck leaves as it is. -/
def ObdImport.Stable (imp : ObdImport) : Prop := imp.Skips ∨ imp.Clean

theorem freeClosed_of_clean (h : imp.Clean) : freeClosed imp = imp := by
  rw [freeClosed, freeCommittedList_of_stays _ _ _ h.committed]

/-- What a recheck keeps of an import where there is nothing to free. -/
structure SameImport (imp imp' : ObdImport) : Prop where
  replayList : imp'.replayList = imp.replayList
  committedList : imp'.committedList = imp.committedList
  cursor : imp'.cursor = imp.cursor
  lastReplayTransno : imp'.lastReplayTransno = imp.lastReplayTransno
  resendReplay : imp'.resendReplay = imp.resendReplay
  stable : imp'.Stable

theorem SameImport.replayFree (h : imp.Stable) : SameImport imp (replayFree imp) := by
  rw [Lustre.replayFree, ptlrpcFreeCommitted]
  split
  · next hskip => exact ⟨rfl, rfl, rfl, rfl, rfl, .inl ⟨hskip.1, hskip.2⟩⟩
  · next hskip =>
    have hclean : imp.Clean := h.resolve_left fun hs => hskip ⟨hs.1, hs.2⟩
    rw [if_pos (.inr rfl), freeReplay, freeReplayList_of_head _ _ _ hclean.replay, append_nil,
      freeClosed_of_clean]
    · exact ⟨rfl, rfl, rfl, rfl, rfl, .inr ⟨hclean.replay, hclean.committed⟩⟩
    · exact ⟨hclean.replay, hclean.committed⟩

/-- After the first recheck nothing is left to free. -/
theorem replayFree_stable (imp : ObdImport) : (replayFree imp).Stable := by
  rw [replayFree, ptlrpcFreeCommitted]
  split
  · next hskip => exact .inl ⟨hskip.1, hskip.2⟩
  · rw [if_pos (.inr rfl)]
    -- the two loops leave nothing to free
    refine .inr ⟨(freeReplayList_spec _ _ _).2.2, fun r hr => ?_⟩
    rw [freeClosed, freeCommittedList_fst] at hr
    exact (mem_filter.mp hr).2

/-! ### One call -/

theorem listFrom_append (r : PtlrpcRequest) (A B : List PtlrpcRequest)
    (h : r.xid ∉ A.map xid) : listFrom r.xid (A ++ r :: B) = r :: B := by
  induction A with
  | nil => simp [listFrom]
  | cons a A ih =>
    rw [map_cons, mem_cons, not_or] at h
    rw [cons_append, listFrom, if_neg fun heq => h.1 heq.symm, ih h.2]

/-- The request before one in a list without duplicates. -/
theorem cursorNext_append (r : PtlrpcRequest) (A B : List PtlrpcRequest)
    (h : ((A ++ r :: B).map xid).Nodup) :
    cursorNext (A ++ r :: B) (A.getLast?.map xid) = some r.xid := by
  rcases A.eq_nil_or_concat with rfl | ⟨A, a, rfl⟩
  · rfl
  · rw [concat_eq_append] at h ⊢
    have hlist : A ++ [a] ++ r :: B = A ++ a :: r :: B := by simp
    rw [hlist, map_append, map_cons] at h
    have hnot : a.xid ∉ A.map xid := by
      intro hmem
      exact (nodup_append.mp h).2.2 _ hmem _ mem_cons_self rfl
    rw [getLast?_concat, Option.map_some, cursorNext, hlist, listFrom_append a A _ hnot]
    rfl

theorem find?_later {last : ℕ} {A T : List PtlrpcRequest} (hA : ∀ a ∈ A, a.transno ≤ last)
    (hT : ∀ b ∈ T, last < b.transno) :
    (A ++ T).find? (fun q => decide (last < q.transno)) = T.head? := by
  have hnone : A.find? (fun q => decide (last < q.transno)) = none := by
    refine find?_eq_none.mpr ?_
    intro a ha hlt
    exact not_lt.mpr (hA a ha) (of_decide_eq_true hlt)
  rw [find?_append, hnone, Option.none_or]
  cases T with
  | nil => rfl
  | cons b T => rw [find?_cons, decide_eq_true (hT b mem_cons_self), head?_cons]

/-- On the committed list the request behind the cursor is next. -/
theorem replayNextCommitted_append {A B : List PtlrpcRequest}
    (hlist : imp.committedList = A ++ r :: B) (hxids : (imp.committedList.map xid).Nodup)
    (hcursor : imp.cursor = A.getLast?.map xid) (hresend : imp.resendReplay = false)
    (hlater : ∀ b ∈ r :: B, imp.lastReplayTransno < b.transno) :
    replayNextCommitted imp = (some r, some r.xid) := by
  rw [hlist] at hxids
  have hnot : r.xid ∉ A.map xid := by
    intro hmem
    rw [map_append, map_cons] at hxids
    exact (nodup_append.mp hxids).2.2 _ hmem _ mem_cons_self rfl
  -- the last request of the list has not been replayed either
  rw [replayNextCommitted, hlist, getLast?_append_of_ne_nil _ (cons_ne_nil _ _),
    getLast?_eq_some_getLast (cons_ne_nil _ _)]
  dsimp only
  rw [if_pos (hlater _ (getLast_mem _)), if_pos (.inl hresend), hcursor,
    cursorNext_append r A B hxids, cursorList, listFrom_append r A B hnot]
  dsimp only
  rw [find?_cons, decide_eq_true (hlater r mem_cons_self)]

/-- A committed list that has been replayed. -/
theorem replayNextCommitted_done (h : ∀ c ∈ imp.committedList, c.transno ≤ imp.lastReplayTransno) :
    (replayNextCommitted imp).1 = none := by
  rw [replayNextCommitted]
  cases hlast : imp.committedList.getLast? with
  | none => rfl
  | some last =>
    dsimp only
    rw [if_neg (not_lt.mpr (h last (mem_of_getLast? hlast)))]

/-! ### The whole replay -/

/-- An import in replay, with what is committed freed. -/
structure Replaying (C R : List PtlrpcRequest) (imp : ObdImport) : Prop where
  committedList : imp.committedList = C
  replayList : imp.replayList = R
  resendReplay : imp.resendReplay = false
  stable : imp.Stable

/-- The import after a call of `ptlrpc_replay_next` that sends a request, at the next call. -/
def replaySent (imp : ObdImport) (req : PtlrpcRequest) : ObdImport :=
  replayFree { (ptlrpcReplayNext imp).2 with lastReplayTransno := req.transno }

/-- What a call that sends a request leaves behind. -/
theorem Replaying.sent {C R : List PtlrpcRequest} (h : Replaying C R (replayFree imp))
    (req : PtlrpcRequest) :
    Replaying C R (replaySent imp req) ∧ (replaySent imp req).lastReplayTransno = req.transno ∧
      (replaySent imp req).cursor = (replayNextCommitted (replayFree imp)).2 := by
  have hstable : ObdImport.Stable { (ptlrpcReplayNext imp).2 with
      lastReplayTransno := req.transno } := by
    rcases h.stable with hskip | hclean
    · exact .inl ⟨hskip.1, hskip.2⟩
    · exact .inr ⟨hclean.replay, hclean.committed⟩
  have hsame := SameImport.replayFree hstable
  refine ⟨⟨?_, ?_, ?_, hsame.stable⟩, hsame.lastReplayTransno, hsame.cursor⟩
  · exact hsame.committedList.trans h.committedList
  · exact hsame.replayList.trans h.replayList
  · exact hsame.resendReplay

theorem ptlrpcReplay_succ_some {n : ℕ} (hpick : replayPick (replayFree imp) = some req) :
    ptlrpcReplay (n + 1) imp =
      (ptlrpcReplay n { (ptlrpcReplayNext imp).2 with lastReplayTransno := req.transno }).map
        (req :: ·) := by
  rw [ptlrpcReplay]
  have hfst : (ptlrpcReplayNext imp).1 = some req := hpick
  rw [hfst]

theorem ptlrpcReplay_succ_none {n : ℕ} (hpick : replayPick (replayFree imp) = none) :
    ptlrpcReplay (n + 1) imp = some [] := by
  rw [ptlrpcReplay]
  have hfst : (ptlrpcReplayNext imp).1 = none := hpick
  rw [hfst]

/-- Of the two lists, `S` has been sent: the next request is the first of `T`, and on the committed
list the cursor goes to it. -/
theorem Replaying.pick {C R S T : List PtlrpcRequest} (h : Replaying C R (replayFree imp))
    (hsplit : S ++ T = C ++ R) (hxids : (C.map xid).Nodup)
    (hcursor : S.length < C.length → (replayFree imp).cursor = S.getLast?.map xid)
    (hS : ∀ a ∈ S, a.transno ≤ (replayFree imp).lastReplayTransno)
    (hT : ∀ b ∈ T, (replayFree imp).lastReplayTransno < b.transno) :
    replayPick (replayFree imp) = T.head? ∧ (S.length < C.length →
      (replayNextCommitted (replayFree imp)).2 = T.head?.map xid) := by
  have hprefix : S <+: C ++ R := ⟨T, hsplit⟩
  rcases Nat.lt_or_ge S.length C.length with hlt | hge
  · obtain ⟨B, rfl⟩ := prefix_of_prefix_length_le hprefix (prefix_append C R) hlt.le
    rw [append_assoc, append_cancel_left_eq] at hsplit
    subst hsplit
    cases B with
    | nil => simp at hlt
    | cons b B =>
      have hcom := replayNextCommitted_append h.committedList (h.committedList ▸ hxids)
        (hcursor hlt) h.resendReplay (forall_mem_append.mp hT).1
      rw [replayPick, hcom]
      exact ⟨rfl, fun _ => rfl⟩
  · obtain ⟨A, rfl⟩ := prefix_of_prefix_length_le (prefix_append C R) hprefix hge
    rw [append_assoc, append_cancel_left_eq] at hsplit
    obtain ⟨hC, hA⟩ := forall_mem_append.mp hS
    rw [replayPick, replayNextCommitted_done (h.committedList ▸ hC), h.replayList, ← hsplit]
    exact ⟨find?_later hA hT, fun hlt => absurd hlt (not_lt.mpr hge)⟩

/-- What has not been sent is sent in order. -/
theorem Replaying.replay {C R S T : List PtlrpcRequest} (h : Replaying C R (replayFree imp))
    (hsplit : S ++ T = C ++ R) (hsorted : T.Pairwise TransnoLt) (hxids : (C.map xid).Nodup)
    (hcursor : S.length < C.length → (replayFree imp).cursor = S.getLast?.map xid)
    (hS : ∀ a ∈ S, a.transno ≤ (replayFree imp).lastReplayTransno)
    (hT : ∀ b ∈ T, (replayFree imp).lastReplayTransno < b.transno) :
    ptlrpcReplay (T.length + 1) imp = some T := by
  induction T generalizing S imp with
  | nil => exact ptlrpcReplay_succ_none (h.pick hsplit hxids hcursor hS hT).1
  | cons b T ih =>
    obtain ⟨hpick, hnext⟩ := h.pick hsplit hxids hcursor hS hT
    have hb := hT b mem_cons_self
    obtain ⟨hsent, hlast, hcur⟩ := h.sent b
    obtain ⟨hlater, hsorted⟩ := pairwise_cons.mp hsorted
    rw [← singleton_append, ← append_assoc] at hsplit
    rw [length_cons, ptlrpcReplay_succ_some hpick, ih hsent hsplit hsorted ?_ ?_ ?_]
    · rfl
    · intro hlen
      rw [length_append] at hlen
      rw [← replaySent, hcur, hnext (Nat.lt_of_succ_lt hlen), getLast?_concat, head?_cons]
    · rw [← replaySent, hlast]
      exact forall_mem_append.mpr
        ⟨fun a ha => le_trans (hS a ha) hb.le, forall_mem_singleton.mpr le_rfl⟩
    · rw [← replaySent, hlast]
      exact hlater

/-! ## Replay after any run -/

theorem ObdImport.Sorted.enterReplay (h : imp.Sorted) : (enterReplay imp).Sorted := { h with }

theorem ObdImport.Sorted.replayFree (h : imp.Sorted) : (replayFree imp).Sorted :=
  freeCommitted { h with }

/-- With what is committed freed, the two lists together are sorted. -/
theorem ObdImport.Sorted.pairwise_all (h : imp.Sorted) (hstable : imp.Stable) :
    (imp.committedList ++ imp.replayList).Pairwise TransnoLt := by
  refine pairwise_append.mpr ⟨h.committed, h.replay, ?_⟩
  intro c hc r hr
  have hle := h.upto c hc
  rcases hstable with hskip | hclean
  · -- nothing has been committed, so the committed list is empty
    rw [hskip.1] at hle
    exact absurd (Nat.le_zero.mp hle) (h.nonzero c (mem_append_left _ hc))
  · cases hlist : imp.replayList with
    | nil =>
      rw [hlist] at hr
      cases hr
    | cons q rest =>
      have hq : imp.peerCommitted < q.transno := (hclean.replay q (by rw [hlist]; rfl)).2
      have hsorted := h.replay
      rw [hlist] at hr hsorted
      refine hle.trans_lt ?_
      rcases mem_cons.mp hr with rfl | hr
      · exact hq
      · exact hq.trans ((pairwise_cons.mp hsorted).1 r hr)

/-- At the start of replay the cursor is at the head, and what it goes by is zero. -/
theorem replayFree_enterReplay (imp : ObdImport) : (replayFree (enterReplay imp)).cursor = none ∧
      (replayFree (enterReplay imp)).lastReplayTransno = 0 ∧
      (replayFree (enterReplay imp)).resendReplay = false := by
  rw [replayFree, ptlrpcFreeCommitted]
  split
  · exact ⟨rfl, rfl, rfl⟩
  · rw [if_pos (.inr rfl)]
    exact ⟨freeCommittedList_snd_none _ _, rfl, rfl⟩

theorem ObdImport.Sorted.ptlrpcReplay (h : imp.Sorted) :
    ∃ n, ptlrpcReplay n (Lustre.enterReplay imp) =
      some ((Lustre.replayFree (Lustre.enterReplay imp)).committedList ++
        (Lustre.replayFree (Lustre.enterReplay imp)).replayList) := by
  have hfree := h.enterReplay.replayFree
  have hstable := replayFree_stable (Lustre.enterReplay imp)
  obtain ⟨hcursor, hlast, hresend⟩ := replayFree_enterReplay imp
  refine ⟨_, Replaying.replay (S := []) ⟨rfl, rfl, hresend, hstable⟩ rfl
    (hfree.pairwise_all hstable) ?_ ?_ (forall_mem_nil _) ?_⟩
  · have hxids := hfree.xids
    rw [map_append] at hxids
    exact (nodup_append.mp hxids).1
  · intro _
    exact hcursor
  · intro r hr
    rw [hlast]
    exact Nat.pos_of_ne_zero (hfree.nonzero r hr)

/-- In every run whose replies come in order, replay then sends all that is retained, each request
once and in the order of the transaction numbers, and finds that nothing is left. -/
theorem client_replay_complete {imp0 imp : ObdImport} (hfresh : imp0.Fresh)
    (h : Reach importStep ReplyOk imp0 imp) :
    ∃ n sent, ptlrpcReplay n (enterReplay imp) = some sent ∧
      sent = (replayFree (enterReplay imp)).committedList ++
        (replayFree (enterReplay imp)).replayList ∧ sent.Pairwise TransnoLt := by
  have hstart : imp0.Sorted := by
    obtain ⟨hrep, hcom⟩ := hfresh
    refine ⟨?_, ?_, ?_, ?_, ?_, ?_⟩ <;> simp [hrep, hcom]
  have hsorted : imp.Sorted :=
    h.invariant ObdImport.Sorted hstart (fun _ _ _ hs hok hstep => hs.step hok hstep)
  obtain ⟨n, hn⟩ := hsorted.ptlrpcReplay
  exact ⟨n, _, hn, rfl, hsorted.enterReplay.replayFree.pairwise_all (replayFree_stable _)⟩

/-- An import that has just been connected. -/
def obdImportNew : ObdImport :=
  { replayList := [], committedList := [], cursor := none, peerCommitted := 0,
    lastTransnoChecked := 0, generation := 1, lastGenerationChecked := 0, lastReplayTransno := 0,
    resendReplay := false }

/-- Two opens, replied in the wrong order, are committed, and one of the files is closed; another
open and a plain request are not committed. -/
theorem client_replay_complete_mixed : ∃ imp : ObdImport,
    (∃ n sent, ptlrpcReplay n (enterReplay imp) = some sent ∧
      sent = (replayFree (enterReplay imp)).committedList ++
        (replayFree (enterReplay imp)).replayList ∧ sent.Pairwise TransnoLt) ∧
      (ptlrpcReplay 4 (enterReplay imp)).map (map transno) = some [8, 11, 12] := by
  obtain ⟨imp, hreach, hsent⟩ : ∃ imp, Reach importStep ReplyOk obdImportNew imp ∧
      (ptlrpcReplay 4 (enterReplay imp)).map (map transno) = some [8, 11, 12] :=
    exists_reach [.reply ⟨2, 8, true, 1⟩ 5, .reply ⟨1, 7, true, 1⟩ 5, .reply ⟨3, 12, false, 1⟩ 10,
      .reply ⟨4, 11, true, 1⟩ 10, .close 1] (by decide +kernel)
  exact ⟨imp, client_replay_complete ⟨rfl, rfl⟩ hreach, hsent⟩

/-- Two opens are committed; the reply to an open with a smaller transaction number arrives later,
and the open gets to the end of the committed list. When the first one has been replayed, the last
one on the list looks replayed: the second and the last one are not sent. -/
theorem client_replay_loses : ∃ imp : ObdImport,
    Reach importStep (fun _ _ => True) obdImportNew imp ∧
      ptlrpcReplay 2 (enterReplay imp) = some [⟨1, 7, true, 1⟩] ∧
      (replayFree (enterReplay imp)).committedList =
        [⟨1, 7, true, 1⟩, ⟨2, 8, true, 1⟩, ⟨4, 5, true, 1⟩] :=
  exists_reach [.reply ⟨1, 7, true, 1⟩ 0, .reply ⟨2, 8, true, 1⟩ 0, .reply ⟨3, 0, false, 1⟩ 10,
    .reply ⟨4, 5, true, 1⟩ 10] (by decide +kernel)

end Lustre
