import Lustre.Run
import Lustre.Semaphore
import Mathlib.Algebra.Order.BigOperators.Group.Finset

/-!
# Transmit credits of LNet

A message needs a credit of the peer and a credit of the transmit queue of its network interface
and CPT before it may be sent. `lnet_post_send_locked` takes the two, one after the other, and a
message that finds none left waits in the queue of that kind, already counted as a holder.
`lnet_return_tx_credits_locked` gives the two back, and each time posts the first message of the
queue again, which may then have to wait for the other kind, or is refused and finished at once.

The locks are dropped and taken again between these parts, so the model runs them as separate steps
of any number of messages in any order. Each kind of credit is a `Semaphore`; that its account is
right is `LnetTx.Inv`, and that no assertion fails follows from it.
-/

namespace Lustre

open Finset (mem_range range sum_nonneg)
open Semaphore

/-! ## Messages and queues -/

/-- Where a message is. -/
inductive LnetPlace where
  /-- at the start of `lnet_post_send_locked`; `doSend` when it is posted again -/
  | post (doSend : Bool)
  /-- the peer is alive and the memory descriptor not aborted -/
  | checked (doSend : Bool)
  /-- it has the credit of the peer -/
  | credited (doSend : Bool)
  /-- on `lpni_txq` -/
  | waitPeer
  /-- on `tq_delayed` -/
  | waitTx
  /-- given to the network driver -/
  | sent
  /-- at the start of `lnet_return_tx_credits_locked` -/
  | finishing
  /-- the credit of the transmit queue is given back -/
  | returning
  /-- both credits are given back -/
  | done
  deriving DecidableEq

/-- `struct lnet_msg`, as far as credits are concerned. -/
structure LnetMsg where
  /-- `msg_txpeer` -/
  txpeer : ℕ
  /-- `msg_txni` -/
  txni : ℕ
  /-- `msg_tx_cpt` -/
  txCpt : ℕ
  /-- `msg_len` -/
  len : ℕ
  /-- `msg_peertxcredit` -/
  peertxcredit : Bool
  /-- `msg_txcredit` -/
  txcredit : Bool
  /-- `msg_tx_delayed` -/
  txDelayed : Bool
  place : LnetPlace
  deriving DecidableEq

/-- `struct lnet_peer_ni`, as far as transmit credits are concerned. A credit, here an integer
without a bound, is taken by a message, and there are fewer messages than an `int` counts. -/
structure LnetPeerNi where
  /-- `lpni_txcredits` -/
  txcredits : ℤ
  /-- `lpni_mintxcredits` -/
  mintxcredits : ℤ
  /-- `lpni_txqnob` -/
  txqnob : ℤ
  /-- `lpni_txq` -/
  txq : List ℕ
  /-- all messages that were ever added to it -/
  arrived : List ℕ
  deriving DecidableEq

/-- `struct lnet_tx_queue`; the same holds of its credits. -/
structure LnetTxQueue where
  /-- `tq_credits` -/
  credits : ℤ
  /-- `tq_credits_min` -/
  creditsMin : ℤ
  /-- `tq_delayed` -/
  delayed : List ℕ
  /-- all messages that were ever added to it -/
  arrived : List ℕ
  deriving DecidableEq

/-- The transmit side of LNet. -/
structure LnetTx where
  /-- how many messages there have been -/
  live : ℕ
  msg : ℕ → LnetMsg
  peer : ℕ → LnetPeerNi
  /-- `ni_tx_queues`, by network interface and CPT -/
  tq : ℕ × ℕ → LnetTxQueue
  niTxCredits : ℕ → ℤ

/-- `sizeof(struct lnet_hdr)`. -/
def lnetHdrSize : ℕ := 72

variable (msg : LnetMsg) (s : LnetTx)

/-- What a message adds to `lpni_txqnob`. -/
def LnetMsg.nob : ℤ := msg.len + lnetHdrSize

/-- The transmit queue of a message. -/
def LnetMsg.tqKey : ℕ × ℕ := (msg.txni, msg.txCpt)

open Function (update update_self update_of_ne)

/-- The state with another message. -/
def LnetTx.setMsg (m : ℕ) (msg : LnetMsg) : LnetTx :=
  { s with msg := update s.msg m msg }

/-- The state with another peer. -/
def LnetTx.setPeer (p : ℕ) (lp : LnetPeerNi) : LnetTx :=
  { s with peer := update s.peer p lp }

/-- The state with another transmit queue; `ni_tx_credits` changes by `d`. -/
def LnetTx.setTq (k : ℕ × ℕ) (tq : LnetTxQueue) (d : ℤ) : LnetTx :=
  { s with tq := update s.tq k tq, niTxCredits := update s.niTxCredits k.1 (s.niTxCredits k.1 + d) }

/-- The state with a message at another place. -/
def LnetTx.move (m : ℕ) (place : LnetPlace) : LnetTx :=
  s.setMsg m { s.msg m with place := place }

/-! ## `lnet_post_send_locked` -/

/-- The checks before the credits; `refused` if the peer is dead or the memory descriptor aborted.
A message that is posted again is then finished here, a new one by the caller. -/
def lnetPostCheck (m : ℕ) (doSend refused : Bool) : Option LnetTx :=
  -- non-lnet_send() callers have checked before
  if doSend = false ∨ (s.msg m).txDelayed = true then
    some (s.move m (if refused then .finishing else .checked doSend))
  else none

/-- `LASSERT((credits < 0) == !list_empty(queue))`. -/
def CreditAssert (credits : ℤ) (queue : List ℕ) : Prop := credits < 0 ↔ queue ≠ []
  deriving Decidable

/-- A message takes a credit of the peer. -/
def LnetPeerNi.takeCredit (lp : LnetPeerNi) (m : ℕ) (msg : LnetMsg) : LnetPeerNi :=
  { txcredits := lp.txcredits - 1
    mintxcredits := if lp.txcredits - 1 < lp.mintxcredits then lp.txcredits - 1
      else lp.mintxcredits
    txqnob := lp.txqnob + msg.nob
    txq := if lp.txcredits - 1 < 0 then lp.txq ++ [m] else lp.txq
    arrived := if lp.txcredits - 1 < 0 then lp.arrived ++ [m] else lp.arrived }

/-- The message that has taken a credit of the peer. -/
def LnetMsg.takePeer (doSend : Bool) (credits : ℤ) : LnetMsg :=
  if credits - 1 < 0 then
    { msg with peertxcredit := true, txDelayed := true, place := .waitPeer }
  else { msg with peertxcredit := true, place := .credited doSend }

/-- The credit of the peer. -/
def lnetPostPeer (m : ℕ) (doSend : Bool) : Option LnetTx :=
  let msg := s.msg m
  if msg.peertxcredit then some (s.move m (.credited doSend))
  else
    let lp := s.peer msg.txpeer
    if CreditAssert lp.txcredits lp.txq then
      some ((s.setPeer msg.txpeer (lp.takeCredit m msg)).setMsg m
        (msg.takePeer doSend lp.txcredits))
    else none

/-- A message takes a credit of the transmit queue. -/
def LnetTxQueue.takeCredit (tq : LnetTxQueue) (m : ℕ) : LnetTxQueue :=
  { credits := tq.credits - 1
    creditsMin := if tq.credits - 1 < tq.creditsMin then tq.credits - 1 else tq.creditsMin
    delayed := if tq.credits - 1 < 0 then tq.delayed ++ [m] else tq.delayed
    arrived := if tq.credits - 1 < 0 then tq.arrived ++ [m] else tq.arrived }

/-- The message that has taken a credit of the transmit queue. -/
def LnetMsg.takeTx (credits : ℤ) : LnetMsg :=
  if credits - 1 < 0 then { msg with txcredit := true, txDelayed := true, place := .waitTx }
  else { msg with txcredit := true, txDelayed := false, place := .sent }

/-- The credit of the transmit queue; the message that has both is sent. -/
def lnetPostTx (m : ℕ) : Option LnetTx :=
  let msg := s.msg m
  if msg.txcredit then some (s.setMsg m { msg with txDelayed := false, place := .sent })
  else
    let tq := s.tq msg.tqKey
    if CreditAssert tq.credits tq.delayed then
      some ((s.setTq msg.tqKey (tq.takeCredit m) (-1)).setMsg m (msg.takeTx tq.credits))
    else none

/-! ## `lnet_return_tx_credits_locked` -/

/-- The first message of a queue is posted again, if the assertions on it hold. -/
def lnetRepost (queue : List ℕ) (ok : LnetMsg → Bool) : Option LnetTx :=
  match queue with
  | [] => none
  | m :: _ =>
    if ok (s.msg m) ∧ (s.msg m).txDelayed = true then some (s.move m (.post true)) else none

/-- A credit of the transmit queue comes back; the first message that waits is taken off. -/
def LnetTxQueue.giveCredit (tq : LnetTxQueue) : LnetTxQueue :=
  { tq with
    credits := tq.credits + 1
    delayed := if tq.credits + 1 ≤ 0 then tq.delayed.tail else tq.delayed }

/-- Give back a credit of the transmit queue. -/
def lnetReturnTx (m : ℕ) : Option LnetTx :=
  let msg := s.msg m
  if msg.txcredit then
    let tq := s.tq msg.tqKey
    if CreditAssert tq.credits tq.delayed then
      let s := (s.setMsg m { msg with txcredit := false, place := .returning }).setTq msg.tqKey
        tq.giveCredit 1
      if tq.credits + 1 ≤ 0 then
        lnetRepost s tq.delayed fun msg2 =>
          decide (msg2.txni = msg.txni) && decide (msg2.txCpt = msg.txCpt)
      else some s
    else none
  else some (s.move m .returning)

/-- A credit of the peer comes back; the first message that waits is taken off. -/
def LnetPeerNi.giveCredit (lp : LnetPeerNi) (msg : LnetMsg) : LnetPeerNi :=
  { lp with
    txcredits := lp.txcredits + 1
    txqnob := lp.txqnob - msg.nob
    txq := if lp.txcredits + 1 ≤ 0 then lp.txq.tail else lp.txq }

/-- Give back a credit of the peer. -/
def lnetReturnPeer (m : ℕ) : Option LnetTx :=
  let msg := s.msg m
  if msg.peertxcredit then
    let lp := s.peer msg.txpeer
    if CreditAssert lp.txcredits lp.txq ∧ 0 ≤ lp.txqnob - msg.nob then
      let s := (s.setMsg m { msg with peertxcredit := false, place := .done }).setPeer msg.txpeer
        (lp.giveCredit msg)
      if lp.txcredits + 1 ≤ 0 then
        lnetRepost s lp.txq fun msg2 => decide (msg2.txpeer = msg.txpeer)
      else some s
    else none
  else some (s.move m .done)

/-! ## Runs -/

/-- The steps, each one part of one of the two functions for one message. -/
inductive LnetTxOp where
  /-- a new message is posted -/
  | send (txpeer txni txCpt len : ℕ)
  | check (m : ℕ) (doSend refused : Bool)
  /-- the credit of the peer is taken -/
  | takePeer (m : ℕ) (doSend : Bool)
  /-- the credit of the transmit queue is taken -/
  | takeTx (m : ℕ) (doSend : Bool)
  /-- a message that was sent is finished -/
  | finish (m : ℕ)
  /-- the credit of the transmit queue is given back -/
  | returnTx (m : ℕ)
  /-- the credit of the peer is given back -/
  | returnPeer (m : ℕ)
  deriving DecidableEq

/-- A message that has not been posted. -/
def lnetMsgNew (txpeer txni txCpt len : ℕ) : LnetMsg :=
  { txpeer, txni, txCpt, len, peertxcredit := false, txcredit := false, txDelayed := false,
    place := .post false }

/-- One step; `none` if an assertion fails. -/
def lnetTxStep : LnetTxOp → Option LnetTx
  | .send txpeer txni txCpt len =>
    some { s.setMsg s.live (lnetMsgNew txpeer txni txCpt len) with live := s.live + 1 }
  | .check m doSend refused => lnetPostCheck s m doSend refused
  | .takePeer m doSend => lnetPostPeer s m doSend
  | .takeTx m _ => lnetPostTx s m
  | .finish m => some (s.move m .finishing)
  | .returnTx m => lnetReturnTx s m
  | .returnPeer m => lnetReturnPeer s m

/-- The message is at a place. -/
def LnetTx.At (m : ℕ) (place : LnetPlace) : Prop :=
  m < s.live ∧ (s.msg m).place = place
  deriving Decidable

/-- The message of a step is where the step starts. -/
def LnetEnabled : LnetTxOp → Prop
  | .send _ _ _ _ => True
  | .check m doSend _ => s.At m (.post doSend)
  | .takePeer m doSend => s.At m (.checked doSend)
  | .takeTx m doSend => s.At m (.credited doSend)
  | .finish m => s.At m .sent
  | .returnTx m => s.At m .finishing
  | .returnPeer m => s.At m .returning

instance (op : LnetTxOp) : Decidable (LnetEnabled s op) := by
  cases op <;> dsimp only [LnetEnabled] <;> infer_instance

/-- No message yet: no credit is taken and nobody waits. -/
structure LnetTx.New : Prop where
  live : s.live = 0
  peer : ∀ p, 0 ≤ (s.peer p).txcredits ∧ (s.peer p).txq = [] ∧ (s.peer p).txqnob = 0
  tq : ∀ k, 0 ≤ (s.tq k).credits ∧ (s.tq k).delayed = []

/-! ## The account -/

open LnetMsg

/-- Credits of the peers. -/
def peerCredit : Credit LnetMsg ℕ :=
  ⟨txpeer, peertxcredit, fun msg => msg.place == .waitPeer⟩

/-- Credits of the transmit queues. -/
def txCredit : Credit LnetMsg (ℕ × ℕ) :=
  ⟨tqKey, txcredit, fun msg => msg.place == .waitTx⟩

/-- The messages that hold a credit of the peer. -/
def LnetTx.peerHolders (p : ℕ) : Finset ℕ :=
  holders (range s.live) (peerCredit.Holds p) s.msg

/-- The messages that hold a credit of the transmit queue. -/
def LnetTx.txHolders (k : ℕ × ℕ) : Finset ℕ :=
  holders (range s.live) (txCredit.Holds k) s.msg

/-- The credits of a peer. -/
def LnetPeerNi.sem (lp : LnetPeerNi) : Semaphore ℕ := ⟨lp.txcredits, lp.txq, lp.arrived⟩

/-- The credits of a transmit queue. -/
def LnetTxQueue.sem (tq : LnetTxQueue) : Semaphore ℕ := ⟨tq.credits, tq.delayed, tq.arrived⟩

/-- What the flags of a message are like at each place. -/
def LnetMsg.Flags : Prop :=
  match msg.place with
  | .post doSend | .checked doSend =>
    if doSend then msg.txDelayed = true ∧ msg.peertxcredit = true
    else msg.peertxcredit = false ∧ msg.txcredit = false
  | .credited _ => msg.peertxcredit = true
  | .waitPeer => msg.peertxcredit = true ∧ msg.txDelayed = true
  | .waitTx => msg.peertxcredit = true ∧ msg.txDelayed = true
  | .sent | .finishing => True
  | .returning => msg.txcredit = false
  | .done => msg.txcredit = false ∧ msg.peertxcredit = false

/-- The account of all credits. -/
structure LnetTx.Inv (s0 s : LnetTx) : Prop where
  flags : ∀ m < s.live, (s.msg m).Flags
  peer : peerCredit.Account (fun p => (s0.peer p).txcredits) (range s.live) s.msg
    fun p => (s.peer p).sem
  tq : txCredit.Account (fun k => (s0.tq k).credits) (range s.live) s.msg
    fun k => (s.tq k).sem
  nob : ∀ p, (s.peer p).txqnob = ∑ m ∈ s.peerHolders p, (s.msg m).nob

variable {s0 s s' : LnetTx} {m : ℕ} {msg : LnetMsg} {doSend : Bool}

/-! ### A message moves -/

theorem flags_update (hflags : ∀ j < s.live, (s.msg j).Flags) (hmsg : msg.Flags) :
    ∀ j < s.live, (update s.msg m msg j).Flags :=
  (Function.forall_update_iff s.msg (p := fun j msg => j < s.live → msg.Flags)).mpr
    ⟨fun _ => hmsg, fun j _ => hflags j⟩

theorem peerCredit_same {msg' : LnetMsg} (hpeer : msg.txpeer = msg'.txpeer)
    (hcredit : msg.peertxcredit = msg'.peertxcredit) (hplace : msg.place ≠ .waitPeer)
    (hplace' : msg'.place ≠ .waitPeer) : peerCredit.Same msg msg' := by
  refine ⟨hpeer, hcredit, ?_⟩
  simp [peerCredit, hplace, hplace']

theorem txCredit_same {msg' : LnetMsg} (hkey : msg.tqKey = msg'.tqKey)
    (hcredit : msg.txcredit = msg'.txcredit) (hplace : msg.place ≠ .waitTx)
    (hplace' : msg'.place ≠ .waitTx) : txCredit.Same msg msg' := by
  refine ⟨hkey, hcredit, ?_⟩
  simp [txCredit, hplace, hplace']

/-- The bytes of the peers, after a change that leaves the holders and the lengths. -/
theorem nob_update (msg : LnetMsg)
    (hnob : ∀ p, (s.peer p).txqnob = ∑ m ∈ s.peerHolders p, (s.msg m).nob)
    (hlen : msg.nob = (s.msg m).nob) (hpeer : msg.txpeer = (s.msg m).txpeer)
    (hcredit : msg.peertxcredit = (s.msg m).peertxcredit) (p : ℕ) :
    (s.peer p).txqnob = ∑ j ∈ (s.setMsg m msg).peerHolders p, ((s.setMsg m msg).msg j).nob := by
  have hholders : (s.setMsg m msg).peerHolders p = s.peerHolders p := by
    refine holders_update_iff ?_
    rw [Credit.Holds, Credit.Holds]
    simp only [peerCredit, hpeer, hcredit]
  rw [hholders, LnetTx.setMsg, update_measure nob hlen]
  exact hnob p

/-- A message that keeps its credits changes, and neither waited nor waits. -/
theorem LnetTx.Inv.setMsg (h : Inv s0 s) (hpeer : msg.txpeer = (s.msg m).txpeer)
    (hkey : msg.tqKey = (s.msg m).tqKey) (hnob : msg.nob = (s.msg m).nob)
    (hcredit : msg.peertxcredit = (s.msg m).peertxcredit) (htx : msg.txcredit = (s.msg m).txcredit)
    (hold : (s.msg m).place ≠ .waitPeer ∧ (s.msg m).place ≠ .waitTx)
    (hnew : msg.place ≠ .waitPeer ∧ msg.place ≠ .waitTx) (hflags : msg.Flags) :
    Inv s0 (s.setMsg m msg) :=
  ⟨flags_update h.flags hflags, h.peer.same (peerCredit_same hpeer hcredit hnew.1 hold.1),
    h.tq.same (txCredit_same hkey htx hnew.2 hold.2), nob_update (s := s) _ h.nob hnob hpeer hcredit⟩

theorem LnetTx.Inv.move (h : Inv s0 s) {place : LnetPlace}
    (hold : (s.msg m).place ≠ .waitPeer ∧ (s.msg m).place ≠ .waitTx)
    (hnew : place ≠ .waitPeer ∧ place ≠ .waitTx)
    (hflags : Flags { s.msg m with place := place }) : Inv s0 (s.move m place) :=
  h.setMsg rfl rfl rfl rfl rfl hold hnew hflags

theorem LnetTx.Inv.send (h : LnetTx.Inv s0 s) (txpeer txni txCpt len : ℕ) : LnetTx.Inv s0
      { s.setMsg s.live (lnetMsgNew txpeer txni txCpt len) with live := s.live + 1 } := by
  have hnot : s.live ∉ range s.live := Finset.notMem_range_self
  have hrange : range (s.live + 1) = insert s.live (range s.live) :=
    Finset.range_add_one
  refine ⟨?_, ?_, ?_, ?_⟩
  · intro j hj
    by_cases hjm : j = s.live
    · subst hjm
      simp [LnetTx.setMsg, Flags, lnetMsgNew]
    · simp only [LnetTx.setMsg, update_of_ne hjm]
      exact h.flags j (lt_of_le_of_ne (Nat.le_of_lt_succ hj) hjm)
  · simp only [hrange]
    exact h.peer.insert hnot rfl rfl
  · simp only [hrange]
    exact h.tq.insert hnot rfl rfl
  · intro p
    refine (h.nob p).trans ?_
    simp only [LnetTx.peerHolders, LnetTx.setMsg, hrange]
    rw [holders_insert hnot fun hholds => Bool.false_ne_true hholds.1]
    refine Finset.sum_congr rfl ?_
    intro j hj
    have hlt : j < s.live := mem_range.mp (mem_holders.mp hj).1
    rw [update_of_ne hlt.ne]

/-! ### Taking a credit -/

theorem LnetPeerNi.sem_takeCredit (lp : LnetPeerNi) (m : ℕ) (msg : LnetMsg) :
    (lp.takeCredit m msg).sem = lp.sem.take m := by
  by_cases hneg : lp.txcredits - 1 < 0 <;> simp [take, takeCredit, sem, hneg]

theorem LnetTxQueue.sem_takeCredit (tq : LnetTxQueue) (m : ℕ) :
    (tq.takeCredit m).sem = tq.sem.take m := by
  by_cases hneg : tq.credits - 1 < 0 <;> simp [take, takeCredit, sem, hneg]

/-- A table of semaphores, of which one has changed. -/
theorem sem_update {κ β : Type*} [DecidableEq κ] (f : β → Semaphore ℕ) (g : κ → β) (k : κ)
    (x : β) : (fun j => f (update g k x j)) = update (fun j => f (g j)) k (f x) :=
  Function.comp_update f g k x

/-- What `takePeer` changes of a message. -/
structure LnetMsg.TookPeer (msg msg' : LnetMsg) (credits : ℤ) : Prop where
  txpeer : msg'.txpeer = msg.txpeer
  tqKey : msg'.tqKey = msg.tqKey
  nob : msg'.nob = msg.nob
  txcredit : msg'.txcredit = msg.txcredit
  peertxcredit : msg'.peertxcredit = true
  place : msg'.place ≠ .waitTx
  waits : msg'.place = .waitPeer ↔ credits - 1 < 0
  flags : msg'.Flags

theorem LnetMsg.tookPeer (msg : LnetMsg) (doSend : Bool) (credits : ℤ) :
    msg.TookPeer (msg.takePeer doSend credits) credits := by
  rw [takePeer]
  split <;> next hneg =>
    exact ⟨rfl, rfl, rfl, rfl, rfl, by simp, by simp [hneg], by simp [Flags]⟩

/-- What a message adds to `lpni_txqnob` of its peer while it holds a credit. -/
def LnetMsg.heldNob (msg : LnetMsg) : ℤ := if msg.peertxcredit then msg.nob else 0

/-- The bytes of the peers, after a message of one of them changed. -/
theorem LnetTx.Inv.nob_change (h : Inv s0 s) (msg : LnetMsg) (lp : LnetPeerNi) (hlive : m < s.live)
    (hpeer : msg.txpeer = (s.msg m).txpeer) (hlp : lp.txqnob + (s.msg m).heldNob =
      (s.peer (s.msg m).txpeer).txqnob + msg.heldNob) (p : ℕ) :
    (update s.peer (s.msg m).txpeer lp p).txqnob =
      ∑ j ∈ (s.setMsg m msg).peerHolders p, ((s.setMsg m msg).msg j).nob := by
  have hsum := sum_update_add (g := s.msg) (x := msg) (mem_range.mpr hlive)
    fun msg => if peerCredit.Holds p msg then msg.nob else 0
  simp only [← Finset.sum_filter] at hsum
  have hnob := h.nob p
  rw [LnetTx.peerHolders, holders] at hnob ⊢
  rw [← hnob] at hsum
  simp only [Credit.Holds, peerCredit, hpeer] at hsum ⊢
  by_cases hp : p = (s.msg m).txpeer
  · subst hp
    simp only [and_true] at hsum
    rw [update_self]
    exact add_right_cancel (hlp.trans hsum.symm)
  · simp only [Ne.symm hp, and_false, if_false, add_zero] at hsum
    rw [update_of_ne hp]
    exact hsum.symm

open LnetPeerNi

theorem LnetTx.Inv.takePeer (h : LnetTx.Inv s0 s) (hat : s.At m (.checked doSend))
    (hcredit : (s.msg m).peertxcredit = false) : LnetTx.Inv s0 ((s.setPeer (s.msg m).txpeer
      ((s.peer (s.msg m).txpeer).takeCredit m (s.msg m))).setMsg m
        ((s.msg m).takePeer doSend (s.peer (s.msg m).txpeer).txcredits)) := by
  obtain ⟨hlive, hplace⟩ := hat
  have htook := (s.msg m).tookPeer doSend (s.peer (s.msg m).txpeer).txcredits
  generalize (s.msg m).takePeer doSend (s.peer (s.msg m).txpeer).txcredits = msg at htook ⊢
  refine ⟨flags_update h.flags htook.flags, ?_, ?_, ?_⟩
  · have htake := h.peer.take (x := msg) (mem_range.mpr hlive) htook.txpeer hcredit
      htook.peertxcredit (by simp [peerCredit, hplace])
      (by simpa [peerCredit, sem] using htook.waits)
    simp only [LnetTx.setMsg, LnetTx.setPeer]
    rw [sem_update sem, sem_takeCredit]
    exact htake
  · exact h.tq.same (txCredit_same htook.tqKey htook.txcredit htook.place (by simp [hplace]))
  · exact h.nob_change msg _ hlive htook.txpeer
      (by simp [heldNob, hcredit, htook.peertxcredit, htook.nob, takeCredit])

/-- What `takeTx` changes of a message. -/
structure LnetMsg.TookTx (msg msg' : LnetMsg) (credits : ℤ) : Prop where
  txpeer : msg'.txpeer = msg.txpeer
  tqKey : msg'.tqKey = msg.tqKey
  nob : msg'.nob = msg.nob
  peertxcredit : msg'.peertxcredit = msg.peertxcredit
  txcredit : msg'.txcredit = true
  place : msg'.place ≠ .waitPeer
  waits : msg'.place = .waitTx ↔ credits - 1 < 0
  flags : msg.peertxcredit = true → msg'.Flags

theorem LnetMsg.tookTx (msg : LnetMsg) (credits : ℤ) : msg.TookTx (msg.takeTx credits) credits := by
  rw [takeTx]
  split <;> next hneg =>
    exact ⟨rfl, rfl, rfl, rfl, rfl, by simp, by simp [hneg], by simp [Flags]⟩

namespace LnetTx.Inv

section

variable (h : LnetTx.Inv s0 s)
include h

theorem takeTx (hat : s.At m (.credited doSend)) (hcredit : (s.msg m).txcredit = false) :
    LnetTx.Inv s0 ((s.setTq (s.msg m).tqKey ((s.tq (s.msg m).tqKey).takeCredit m) (-1)).setMsg m
      ((s.msg m).takeTx (s.tq (s.msg m).tqKey).credits)) := by
  obtain ⟨hlive, hplace⟩ := hat
  have hpeertx : (s.msg m).peertxcredit = true := by
    have hflags := h.flags m hlive
    rwa [Flags, hplace] at hflags
  have htook := (s.msg m).tookTx (s.tq (s.msg m).tqKey).credits
  generalize (s.msg m).takeTx (s.tq (s.msg m).tqKey).credits = msg at htook ⊢
  refine ⟨flags_update h.flags (htook.flags hpeertx), ?_, ?_, ?_⟩
  · exact h.peer.same (peerCredit_same htook.txpeer htook.peertxcredit htook.place
      (by simp [hplace]))
  · have htake := h.tq.take (x := msg) (mem_range.mpr hlive) htook.tqKey hcredit
      htook.txcredit (by simp [txCredit, hplace])
      (by simpa [txCredit, LnetTxQueue.sem] using htook.waits)
    simp only [LnetTx.setMsg, LnetTx.setTq]
    rw [sem_update LnetTxQueue.sem, LnetTxQueue.sem_takeCredit]
    exact htake
  · exact nob_update (s := s) _ h.nob htook.nob htook.txpeer htook.peertxcredit

/-! ### Steps of `lnet_post_send_locked` -/

theorem peer_assert (p : ℕ) : CreditAssert (s.peer p).txcredits (s.peer p).txq :=
  (h.peer.counts p).neg_iff

theorem tq_assert (k : ℕ × ℕ) : CreditAssert (s.tq k).credits (s.tq k).delayed :=
  (h.tq.counts k).neg_iff

theorem postCheck {refused : Bool} (hat : s.At m (.post doSend)) :
    ∃ s', lnetPostCheck s m doSend refused = some s' ∧ Inv s0 s' := by
  obtain ⟨hlive, hplace⟩ := hat
  have hflags := h.flags m hlive
  rw [Flags, hplace] at hflags
  have hassert : doSend = false ∨ (s.msg m).txDelayed = true := by
    cases doSend with
    | false => exact .inl rfl
    | true => exact .inr hflags.1
  refine ⟨_, if_pos hassert, h.move (by simp [hplace]) ?_ ?_⟩
  · split <;> simp
  · split
    · trivial
    · exact hflags

theorem postPeer (hat : s.At m (.checked doSend)) :
    ∃ s', lnetPostPeer s m doSend = some s' ∧ Inv s0 s' := by
  rw [lnetPostPeer]
  cases hcredit : (s.msg m).peertxcredit with
  | true => exact ⟨_, rfl, h.move (by simp [hat.2]) (by simp) hcredit⟩
  | false => exact ⟨_, if_pos (h.peer_assert _), h.takePeer hat hcredit⟩

theorem postTx (hat : s.At m (.credited doSend)) : ∃ s', lnetPostTx s m = some s' ∧ Inv s0 s' := by
  rw [lnetPostTx]
  cases hcredit : (s.msg m).txcredit with
  | true =>
    exact ⟨_, rfl, h.setMsg rfl rfl rfl rfl hcredit.symm (by simp [hat.2]) (by simp) trivial⟩
  | false => exact ⟨_, if_pos (h.tq_assert _), h.takeTx hat hcredit⟩

/-! ### Giving a credit back -/

/-- What is known of a message that waits for a peer. -/
theorem waitPeer {p j : ℕ} (hj : j ∈ (s.peer p).txq) :
    j < s.live ∧ (s.msg j).place = .waitPeer ∧ (s.msg j).txpeer = p ∧
      (s.msg j).peertxcredit = true ∧ (s.msg j).txDelayed = true := by
  obtain ⟨hlive, hwaits, hpeer⟩ := mem_holders.mp ((h.peer.waits p j).mp hj)
  have hlt := mem_range.mp hlive
  have hplace : (s.msg j).place = .waitPeer := beq_iff_eq.mp hwaits
  have hflags := h.flags j hlt
  rw [Flags, hplace] at hflags
  exact ⟨hlt, hplace, hpeer, hflags⟩

/-- What is known of a message that waits for a transmit queue. -/
theorem waitTx {k : ℕ × ℕ} {j : ℕ} (hj : j ∈ (s.tq k).delayed) :
    j < s.live ∧ (s.msg j).place = .waitTx ∧ (s.msg j).tqKey = k ∧
      (s.msg j).peertxcredit = true ∧ (s.msg j).txDelayed = true := by
  obtain ⟨hlive, hwaits, hkey⟩ := mem_holders.mp ((h.tq.waits k j).mp hj)
  have hlt := mem_range.mp hlive
  have hplace : (s.msg j).place = .waitTx := beq_iff_eq.mp hwaits
  have hflags := h.flags j hlt
  rw [Flags, hplace] at hflags
  exact ⟨hlt, hplace, hkey, hflags⟩

end

end LnetTx.Inv

theorem LnetPeerNi.sem_giveCredit (lp : LnetPeerNi) (msg : LnetMsg) :
    (lp.giveCredit msg).sem = lp.sem.give := by
  by_cases hneg : lp.txcredits + 1 ≤ 0 <;> simp [give, giveCredit, sem, hneg]

theorem LnetTxQueue.sem_giveCredit (tq : LnetTxQueue) : tq.giveCredit.sem = tq.sem.give := by
  by_cases hneg : tq.credits + 1 ≤ 0 <;> simp [give, giveCredit, sem, hneg]

/-- The message that has given back its credit of the transmit queue. -/
abbrev LnetMsg.gaveTx (msg : LnetMsg) : LnetMsg := { msg with txcredit := false, place := .returning }

/-- The message that has given back its credit of the peer. -/
abbrev LnetMsg.gavePeer (msg : LnetMsg) : LnetMsg :=
  { msg with peertxcredit := false, place := .done }

namespace LnetTx.Inv

section

variable (h : LnetTx.Inv s0 s)
include h

/-- The message that has given back its credit of the transmit queue, and nobody waits. -/
theorem giveTx (hat : s.At m .finishing)
    (hcredit : (s.msg m).txcredit = true) (hfree : ¬ (s.tq (s.msg m).tqKey).credits + 1 ≤ 0) :
    Inv s0 ((s.setMsg m (s.msg m).gaveTx).setTq
      (s.msg m).tqKey (s.tq (s.msg m).tqKey).giveCredit 1) := by
  obtain ⟨hlive, hplace⟩ := hat
  refine ⟨flags_update h.flags rfl, ?_, ?_, nob_update (s := s) _ h.nob rfl rfl rfl⟩
  · exact h.peer.same (peerCredit_same rfl rfl (by simp) (by simp [hplace]))
  · have hgive := h.tq.give (x := (s.msg m).gaveTx)
      (mem_range.mpr hlive) rfl hcredit rfl (by simp [txCredit, hplace]) rfl hfree
    simp only [setTq]
    rw [sem_update LnetTxQueue.sem, LnetTxQueue.sem_giveCredit]
    exact hgive

/-- The message that has given back its credit of the transmit queue, and the first that waits is
posted again. -/
theorem giveTx_wake (hat : s.At m .finishing) (hcredit : (s.msg m).txcredit = true)
    (hfree : (s.tq (s.msg m).tqKey).credits + 1 ≤ 0) :
    ∃ s', lnetRepost ((s.setMsg m (s.msg m).gaveTx).setTq (s.msg m).tqKey
        (s.tq (s.msg m).tqKey).giveCredit 1) (s.tq (s.msg m).tqKey).delayed
        (fun msg2 => decide (msg2.txni = (s.msg m).txni) && decide (msg2.txCpt = (s.msg m).txCpt)) =
      some s' ∧ Inv s0 s' := by
  obtain ⟨hlive, hplace⟩ := hat
  obtain ⟨j, rest, hqueue⟩ : ∃ j rest, (s.tq (s.msg m).tqKey).delayed = j :: rest :=
    (h.tq.counts (s.msg m).tqKey).queue_cons hfree
  obtain ⟨-, hjplace, hjkey, hjcredit, hjdelayed⟩ := h.waitTx (hqueue ▸ List.mem_cons_self)
  have hjm : j ≠ m := by
    rintro rfl
    rw [hplace] at hjplace
    cases hjplace
  obtain ⟨hjni, hjcpt⟩ := Prod.mk.inj hjkey
  rw [hqueue, lnetRepost, if_pos
    (by simp [LnetTx.setTq, LnetTx.setMsg, update_of_ne hjm, hjni, hjcpt, hjdelayed])]
  refine ⟨_, rfl, ?_⟩
  simp only [LnetTx.move, LnetTx.setMsg, LnetTx.setTq, update_of_ne hjm]
  refine ⟨?_, ?_, ?_, ?_⟩
  · exact flags_update (s := s.setMsg m (s.msg m).gaveTx) (flags_update h.flags rfl)
      ⟨hjdelayed, hjcredit⟩
  · have hsame := h.peer.same (i := m) (x := (s.msg m).gaveTx)
      (peerCredit_same rfl rfl (by simp) (by simp [hplace]))
    refine hsame.same ?_
    rw [update_of_ne hjm]
    exact peerCredit_same rfl rfl (by simp) (by simp [hjplace])
  · have hgive := h.tq.give_wake (x := (s.msg m).gaveTx) (y := { s.msg j with place := .post true })
      (mem_range.mpr hlive) rfl hcredit rfl (by simp [txCredit, hplace]) rfl hfree hqueue
      rfl rfl rfl
    rw [sem_update LnetTxQueue.sem, LnetTxQueue.sem_giveCredit]
    exact hgive
  · refine nob_update (s := s.setMsg m (s.msg m).gaveTx) _
      (nob_update (s := s) _ h.nob rfl rfl rfl) ?_ ?_ ?_ <;>
    simp [LnetTx.setMsg, update_of_ne hjm, LnetMsg.nob]

theorem returnTx (hat : s.At m .finishing) :
    ∃ s', lnetReturnTx s m = some s' ∧ LnetTx.Inv s0 s' := by
  rw [lnetReturnTx]
  cases hcredit : (s.msg m).txcredit with
  | false => exact ⟨_, rfl, h.move (by simp [hat.2]) (by simp) hcredit⟩
  | true =>
    rw [if_pos rfl, if_pos (h.tq_assert _)]
    by_cases hfree : (s.tq (s.msg m).tqKey).credits + 1 ≤ 0
    · rw [if_pos hfree]
      exact h.giveTx_wake hat hcredit hfree
    · rw [if_neg hfree]
      exact ⟨_, rfl, h.giveTx hat hcredit hfree⟩

/-- The message that has given back its credit of the peer, and nobody waits. -/
theorem givePeer (hat : s.At m .returning) (hcredit : (s.msg m).peertxcredit = true)
    (hfree : ¬ (s.peer (s.msg m).txpeer).txcredits + 1 ≤ 0) :
    Inv s0 ((s.setMsg m (s.msg m).gavePeer).setPeer
      (s.msg m).txpeer ((s.peer (s.msg m).txpeer).giveCredit (s.msg m))) := by
  obtain ⟨hlive, hplace⟩ := hat
  have htx := h.flags m hlive
  rw [Flags, hplace] at htx
  refine ⟨flags_update h.flags ⟨htx, rfl⟩, ?_, ?_, h.nob_change _ _ hlive rfl ?_⟩
  · have hgive := h.peer.give (x := (s.msg m).gavePeer)
      (mem_range.mpr hlive) rfl hcredit rfl (by simp [peerCredit, hplace]) rfl hfree
    simp only [setPeer]
    rw [sem_update sem, sem_giveCredit]
    exact hgive
  · exact h.tq.same (txCredit_same rfl rfl (by simp) (by simp [hplace]))
  · simp [heldNob, hcredit, giveCredit]

/-- The message that has given back its credit of the peer, and the first that waits is posted
again. -/
theorem givePeer_wake (hat : s.At m .returning) (hcredit : (s.msg m).peertxcredit = true)
    (hfree : (s.peer (s.msg m).txpeer).txcredits + 1 ≤ 0) :
    ∃ s', lnetRepost ((s.setMsg m (s.msg m).gavePeer).setPeer (s.msg m).txpeer
        ((s.peer (s.msg m).txpeer).giveCredit (s.msg m))) (s.peer (s.msg m).txpeer).txq
        (fun msg2 => decide (msg2.txpeer = (s.msg m).txpeer)) = some s' ∧ Inv s0 s' := by
  obtain ⟨hlive, hplace⟩ := hat
  have htx := h.flags m hlive
  rw [LnetMsg.Flags, hplace] at htx
  obtain ⟨j, rest, hqueue⟩ : ∃ j rest, (s.peer (s.msg m).txpeer).txq = j :: rest :=
    (h.peer.counts (s.msg m).txpeer).queue_cons hfree
  obtain ⟨-, hjplace, hjpeer, hjcredit, hjdelayed⟩ := h.waitPeer (hqueue ▸ List.mem_cons_self)
  have hjm : j ≠ m := by
    rintro rfl
    rw [hplace] at hjplace
    cases hjplace
  rw [hqueue, lnetRepost, if_pos
    (by simp [LnetTx.setPeer, LnetTx.setMsg, update_of_ne hjm, hjpeer, hjdelayed])]
  refine ⟨_, rfl, ?_⟩
  have hnob := nob_update (s := (s.setMsg m (s.msg m).gavePeer).setPeer (s.msg m).txpeer
      ((s.peer (s.msg m).txpeer).giveCredit (s.msg m)))
    (m := j) { s.msg j with place := .post true }
    (h.nob_change (s.msg m).gavePeer _ hlive rfl (by simp [heldNob, hcredit, giveCredit]))
    (by simp [LnetTx.setMsg, LnetTx.setPeer, update_of_ne hjm, LnetMsg.nob])
    (by simp [LnetTx.setMsg, LnetTx.setPeer, update_of_ne hjm])
    (by simp [LnetTx.setMsg, LnetTx.setPeer, update_of_ne hjm])
  simp only [LnetTx.move, LnetTx.setMsg, LnetTx.setPeer, update_of_ne hjm] at hnob ⊢
  refine ⟨?_, ?_, ?_, hnob⟩
  · exact flags_update (s := s.setMsg m (s.msg m).gavePeer) (flags_update h.flags ⟨htx, rfl⟩)
      ⟨hjdelayed, hjcredit⟩
  · have hgive := h.peer.give_wake (x := (s.msg m).gavePeer)
      (y := { s.msg j with place := .post true })
      (mem_range.mpr hlive) rfl hcredit rfl (by simp [peerCredit, hplace]) rfl hfree hqueue
      rfl rfl rfl
    rw [sem_update sem, sem_giveCredit]
    exact hgive
  · have hsame := h.tq.same (i := m) (x := (s.msg m).gavePeer)
      (txCredit_same rfl rfl (by simp) (by simp [hplace]))
    refine hsame.same ?_
    rw [update_of_ne hjm]
    exact txCredit_same rfl rfl (by simp) (by simp [hjplace])

/-- The bytes of a peer are at least those of each holder. -/
theorem nob_le (hlive : m < s.live) (hcredit : (s.msg m).peertxcredit = true) :
    0 ≤ (s.peer (s.msg m).txpeer).txqnob - (s.msg m).nob := by
  have hmem : m ∈ s.peerHolders (s.msg m).txpeer :=
    mem_holders.mpr ⟨mem_range.mpr hlive, hcredit, rfl⟩
  rw [h.nob, ← Finset.sum_erase_add _ _ hmem, add_sub_cancel_right]
  refine sum_nonneg ?_
  intro j _
  rw [LnetMsg.nob]
  omega

theorem returnPeer (hat : s.At m .returning) :
    ∃ s', lnetReturnPeer s m = some s' ∧ LnetTx.Inv s0 s' := by
  rw [lnetReturnPeer]
  cases hcredit : (s.msg m).peertxcredit with
  | false =>
    have htx := h.flags m hat.1
    rw [Flags, hat.2] at htx
    exact ⟨_, rfl, h.move (by simp [hat.2]) (by simp) ⟨htx, hcredit⟩⟩
  | true =>
    rw [if_pos rfl, if_pos ⟨h.peer_assert _, h.nob_le hat.1 hcredit⟩]
    by_cases hfree : (s.peer (s.msg m).txpeer).txcredits + 1 ≤ 0
    · rw [if_pos hfree]
      exact h.givePeer_wake hat hcredit hfree
    · rw [if_neg hfree]
      exact ⟨_, rfl, h.givePeer hat hcredit hfree⟩

/-! ## Every run -/

/-- No step fails an assertion, and every step keeps the account. -/
theorem step {op : LnetTxOp} (hop : LnetEnabled s op) :
    ∃ s', lnetTxStep s op = some s' ∧ Inv s0 s' := by
  cases op with
  | send txpeer txni txCpt len => exact ⟨_, rfl, h.send txpeer txni txCpt len⟩
  | check m doSend refused => exact h.postCheck hop
  | takePeer m doSend => exact h.postPeer hop
  | takeTx m doSend => exact h.postTx hop
  | finish m => exact ⟨_, rfl, h.move (by simp [hop.2]) (by simp) trivial⟩
  | returnTx m => exact h.returnTx hop
  | returnPeer m => exact h.returnPeer hop

end

end LnetTx.Inv

theorem LnetTx.New.inv (h : s.New) : Inv s s := by
  have hnone : ∀ (P : LnetMsg → Prop) [DecidablePred P],
      holders (range s.live) P s.msg = ∅ := by
    intro P _
    rw [h.live]
    rfl
  refine ⟨?_, ⟨?_, ?_⟩, ⟨?_, ?_⟩, ?_⟩
  · intro m hm
    rw [h.live] at hm
    cases hm
  · intro p
    rw [hnone]
    exact Counts.start (s := (s.peer p).sem) (h.peer p).1 (h.peer p).2.1
  · intro p m
    rw [hnone, sem, (h.peer p).2.1]
    simp
  · intro k
    rw [hnone]
    exact Counts.start (s := (s.tq k).sem) (h.tq k).1 (h.tq k).2
  · intro k m
    rw [hnone, LnetTxQueue.sem, (h.tq k).2]
    simp
  · intro p
    rw [peerHolders, hnone, (h.peer p).2.2]
    rfl

/-- What a queue and its counter are like: as many credits are left as were there and are not held,
as many messages wait as credits are missing, in the order of their arrival. -/
structure CreditsRight (initial credits : ℤ) (queue arrived : List ℕ) (holders : Finset ℕ) :
    Prop where
  left : credits = initial - holders.card
  waiting : (queue.length : ℤ) = max 0 (-credits)
  order : queue <:+ arrived
  once : queue.Nodup

/-- In every run the credits and queues are right, no assertion fails, and a message waits only
while there is no credit of the kind it waits for. -/
theorem lnet_credits_right (hnew : s0.New) (h : Reach lnetTxStep LnetEnabled s0 s) :
    (∀ p, CreditsRight (s0.peer p).txcredits (s.peer p).txcredits (s.peer p).txq
        (s.peer p).arrived (s.peerHolders p) ∧
      (s.peer p).txqnob = ∑ m ∈ s.peerHolders p, ((s.msg m).len + lnetHdrSize : ℤ) ∧
      0 ≤ (s.peer p).txqnob) ∧
    (∀ k, CreditsRight (s0.tq k).credits (s.tq k).credits (s.tq k).delayed (s.tq k).arrived
      (s.txHolders k)) ∧ (∀ op, LnetEnabled s op → (lnetTxStep s op).isSome) ∧
    (∀ m, s.At m .waitPeer → m ∈ (s.peer (s.msg m).txpeer).txq ∧
      (s.peer (s.msg m).txpeer).txcredits < 0) ∧
    (∀ m, s.At m .waitTx → m ∈ (s.tq (s.msg m).tqKey).delayed ∧
      (s.tq (s.msg m).tqKey).credits < 0) := by
  have hinv : LnetTx.Inv s0 s := by
    refine h.invariant (LnetTx.Inv s0) hnew.inv ?_
    intro t op t' ht hop hstep
    obtain ⟨u, hu, huinv⟩ := ht.step hop
    cases hstep.symm.trans hu
    exact huinv
  refine ⟨?_, ?_, ?_, ?_, ?_⟩
  · intro p
    have hcounts := hinv.peer.counts p
    refine ⟨⟨hcounts.credits, hcounts.length, hcounts.order, hcounts.nodup⟩, hinv.nob p, ?_⟩
    rw [hinv.nob p]
    refine sum_nonneg ?_
    intro j _
    rw [nob]
    omega
  · intro k
    have hcounts := hinv.tq.counts k
    exact ⟨hcounts.credits, hcounts.length, hcounts.order, hcounts.nodup⟩
  · intro op hop
    obtain ⟨u, hu, -⟩ := hinv.step hop
    rw [hu]
    rfl
  · intro m hat
    have hmem : m ∈ (s.peer (s.msg m).txpeer).txq :=
      (hinv.peer.waits _ m).mpr
        (mem_holders.mpr ⟨mem_range.mpr hat.1, beq_iff_eq.mpr hat.2, rfl⟩)
    exact ⟨hmem, (hinv.peer_assert _).mpr (List.ne_nil_of_mem hmem)⟩
  · intro m hat
    have hmem : m ∈ (s.tq (s.msg m).tqKey).delayed :=
      (hinv.tq.waits _ m).mpr
        (mem_holders.mpr ⟨mem_range.mpr hat.1, beq_iff_eq.mpr hat.2, rfl⟩)
    exact ⟨hmem, (hinv.tq_assert _).mpr (List.ne_nil_of_mem hmem)⟩

/-- Every peer and every transmit queue has one credit. -/
def lnetTxNew : LnetTx :=
  { live := 0
    msg := fun _ => lnetMsgNew 0 0 0 0
    peer := fun _ => { txcredits := 1, mintxcredits := 1, txqnob := 0, txq := [], arrived := [] }
    tq := fun _ => { credits := 1, creditsMin := 1, delayed := [], arrived := [] }
    niTxCredits := fun _ => 1 }

/-- The first message is sent, the second waits for the same peer, and the third, for another peer,
waits for the transmit queue. When the first one is finished, the third one is posted again,
refused and finished; the second one still waits. -/
theorem lnet_credits_right_wait : ∃ s : LnetTx,
    (∀ p, CreditsRight (lnetTxNew.peer p).txcredits (s.peer p).txcredits (s.peer p).txq
        (s.peer p).arrived (s.peerHolders p) ∧
      (s.peer p).txqnob = ∑ m ∈ s.peerHolders p, ((s.msg m).len + lnetHdrSize : ℤ) ∧
      0 ≤ (s.peer p).txqnob) ∧
      (s.peer 0).txcredits = -1 ∧ (s.peer 0).txq = [1] ∧ (s.tq (0, 0)).credits = 1 := by
  obtain ⟨s, hreach, hs⟩ : ∃ s, Reach lnetTxStep LnetEnabled lnetTxNew s ∧
      (s.peer 0).txcredits = -1 ∧ (s.peer 0).txq = [1] ∧ (s.tq (0, 0)).credits = 1 := exists_reach
    [.send 0 0 0 100, .send 0 0 0 200, .send 1 0 0 300, .check 0 false false, .takePeer 0 false,
      .takeTx 0 false, .check 1 false false, .takePeer 1 false, .check 2 false false,
      .takePeer 2 false, .takeTx 2 false, .finish 0, .returnTx 0, .check 2 true true, .returnTx 2]
    (by decide +kernel)
  have hnew : lnetTxNew.New :=
    ⟨rfl, fun _ => ⟨by simp [lnetTxNew], rfl, rfl⟩, fun _ => ⟨by simp [lnetTxNew], rfl⟩⟩
  exact ⟨s, (lnet_credits_right hnew hreach).1, hs⟩

end Lustre
