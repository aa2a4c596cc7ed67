import Lustre.RedBlack
import Mathlib.Data.Int.Notation

/-!
# The interval tree (`interval_tree.c`)

A red-black tree of intervals ordered by start and end; each node also stores the
greatest end in its subtree. Nodes live in memory and are linked by pointers to
their children and their parent; an address is a number. Following `NULL` and
failing an `LASSERT` is `none`.

The left and the right versions of a rotation, and the two branches of each
rebalancing loop, are mirror images; they are written once, for a side `d`. Loops
run on fuel, which bounds the number of nodes on a path.
-/

namespace Lustre

open BinaryTree (Side RbColor)

/-! ## Nodes -/

/-- `struct interval_node_extent`. -/
structure IntervalExtent where
  start : ℕ
  /-- `end`, the last byte -/
  stop : ℕ
  deriving DecidableEq

structure IntervalNode where
  inLeft : Option ℕ
  inRight : Option ℕ
  inParent : Option ℕ
  inColor : RbColor
  inIntree : Bool
  inMaxHigh : ℕ
  inExtent : IntervalExtent
  deriving DecidableEq

/-- The memory that holds the nodes, and the variable that points to the root. -/
structure IntervalTree where
  /-- the node at each address -/
  node : ℕ → IntervalNode
  /-- `*root` -/
  root : Option ℕ

variable (n : IntervalNode) (d : Side) (fuel : ℕ) (s : IntervalTree)

namespace IntervalNode

/-- `in_left` or `in_right`. -/
def child : Side → Option ℕ
  | .left => n.inLeft
  | .right => n.inRight

/-- Write `in_left` or `in_right`. -/
def setChild (d : Side) (p : Option ℕ) : IntervalNode :=
  match d with
  | .left => { n with inLeft := p }
  | .right => { n with inRight := p }

/-- Write `in_color`. -/
def setColor (c : RbColor) : IntervalNode := { n with inColor := c }

/-- Write `in_parent`. -/
def setParent (p : Option ℕ) : IntervalNode :=
  { n with inParent := p }

/-- Write `in_max_high`. -/
def setMaxHigh (k : ℕ) : IntervalNode := { n with inMaxHigh := k }

/-- Write `in_intree`. -/
def setIntree (b : Bool) : IntervalNode := { n with inIntree := b }

end IntervalNode

namespace IntervalTree

/-- Write to the node at an address. -/
def modify (n : ℕ) (f : IntervalNode → IntervalNode) : IntervalTree :=
  { s with node := fun m => if m = n then f (s.node m) else s.node m }

/-- Write `in_color`. -/
def setColor (n : ℕ) (c : RbColor) : IntervalTree :=
  s.modify n fun x => x.setColor c

/-- Write `in_parent`. -/
def setParent (n : ℕ) (p : Option ℕ) : IntervalTree :=
  s.modify n fun x => x.setParent p

/-- Write `in_max_high`. -/
def setMaxHigh (n : ℕ) (k : ℕ) : IntervalTree :=
  s.modify n fun x => x.setMaxHigh k

/-- Write `in_intree`. -/
def setIntree (n : ℕ) (b : Bool) : IntervalTree :=
  s.modify n fun x => x.setIntree b

/-- Write `in_left` or `in_right`. -/
def setChild (n : ℕ) (d : Side) (p : Option ℕ) : IntervalTree :=
  s.modify n fun x => x.setChild d p

/-- Write to a node that may be `NULL`, and then do nothing. -/
def onNode (p : Option ℕ) (f : IntervalTree → ℕ → IntervalTree) : IntervalTree :=
  match p with
  | none => s
  | some n => f s n

end IntervalTree

/-- `node_is_left_child` and `node_is_right_child`. -/
def nodeIsChild (n : ℕ) : Option Bool :=
  match (s.node n).inParent with
  | none => none
  | some p => some ((s.node p).child d = some n)

def nodeIsBlackOr0 (p : Option ℕ) : Bool :=
  match p with
  | none => true
  | some n => (s.node n).inColor = .black

/-- `node && node_is_red(node)`. -/
def nodeIsRed (p : Option ℕ) : Bool :=
  match p with
  | none => false
  | some n => (s.node n).inColor = .red

def extentCompare (e1 e2 : IntervalExtent) : ℤ :=
  if e1.start = e2.start then
    if e1.stop < e2.stop then -1 else if e1.stop > e2.stop then 1 else 0
  else if e1.start < e2.start then -1 else 1

def extentEqual (e1 e2 : IntervalExtent) : Bool := e1.start = e2.start && e1.stop = e2.stop

def extentOverlapped (e1 e2 : IntervalExtent) : Bool :=
  e1.start ≤ e2.stop && e2.start ≤ e1.stop

def intervalLow (n : ℕ) : ℕ := (s.node n).inExtent.start

def intervalHigh (n : ℕ) : ℕ := (s.node n).inExtent.stop

/-- `interval_set`; `none` is `-ERANGE`. -/
def intervalSet (n : ℕ) (start stop : ℕ) : Option IntervalTree :=
  if start > stop then none
  else some (s.modify n fun x => { x with inExtent := ⟨start, stop⟩, inMaxHigh := stop })

/-- The maximum below a pointer, 0 for `NULL`. -/
def maxHighOf (p : Option ℕ) : ℕ :=
  match p with
  | none => 0
  | some n => (s.node n).inMaxHigh

/-- `in_max_high` computed from the children. -/
def computeMaxHigh (n : ℕ) : ℕ :=
  max (intervalHigh s n) (max (maxHighOf s (s.node n).inLeft) (maxHighOf s (s.node n).inRight))

/-! ## Walking -/

/-- `interval_first` and `interval_last`: the last node on the side `d`. -/
def intervalEnd (d : Side) : ℕ → IntervalTree → ℕ → Option ℕ
  | 0, _, _ => none
  | fuel + 1, s, n =>
    match (s.node n).child d with
    | none => some n
    | some c => intervalEnd d fuel s c

/-- The climb of `interval_next` and `interval_prev`: to the first parent that is
not left from the side `d`. -/
def intervalClimb (d : Side) : ℕ → IntervalTree → ℕ → Option (Option ℕ)
  | 0, _, _ => none
  | fuel + 1, s, n =>
    match (s.node n).inParent with
    | none => some none
    | some p =>
      if (s.node p).child d = some n then intervalClimb d fuel s p else some (some p)

/-- `interval_next` for `d` right, `interval_prev` for `d` left. -/
def intervalStep (n : ℕ) : Option (Option ℕ) :=
  match (s.node n).child d with
  | some c => (intervalEnd d.opp fuel s c).map some
  | none => intervalClimb d fuel s n

def intervalNext (n : ℕ) : Option (Option ℕ) := intervalStep .right fuel s n

/-! ## Rotations -/

def rotateChangeMaxhigh (node rotate : ℕ) : IntervalTree :=
  let s := s.setMaxHigh rotate (s.node node).inMaxHigh
  s.setMaxHigh node (computeMaxHigh s node)

/-- The pointer to `node` in its parent, or `*root`, is made to point to `new`. The
side `d` is the one asked for first. -/
def replaceChild (node : ℕ) (new : Option ℕ) : IntervalTree :=
  match (s.node node).inParent with
  | none => { s with root := new }
  | some p => s.setChild p (if (s.node p).child d = some node then d else d.opp) new

/-- The pointers that a rotation moves; for `d` left, `right` is `node->in_right`. -/
def rotateLinks (node right : ℕ) : IntervalTree :=
  let parent := (s.node node).inParent
  let s := s.setChild node d.opp ((s.node right).child d)
  let s := s.onNode ((s.node node).child d.opp) fun s c => s.setParent c (some node)
  let s := s.setChild right d (some node)
  let s := s.setParent right parent
  let s := replaceChild d s node (some right)
  s.setParent node (some right)

/-- `__rotate_left` and `__rotate_right`: `node` moves down on the side `d`. -/
def rotate (node : ℕ) : Option IntervalTree := do
  let right ← (s.node node).child d.opp
  return rotateChangeMaxhigh (rotateLinks d s node right) node right

def rotateLeft : IntervalTree → ℕ → Option IntervalTree := rotate .left

def rotateRight : IntervalTree → ℕ → Option IntervalTree := rotate .right

/-! ## Inserting -/

/-- The loop of `interval_insert_color`. -/
def intervalInsertColorLoop : ℕ → IntervalTree → ℕ → Option IntervalTree
  | 0, _, _ => none
  | fuel + 1, s, node =>
    match (s.node node).inParent with
    | none => some s
    | some parent =>
      if (s.node parent).inColor = .red then do
        let gparent ← (s.node parent).inParent
        let d := if ← nodeIsChild .left s parent then Side.left else .right
        let uncle := (s.node gparent).child d.opp
        if nodeIsRed s uncle then
          let s := s.onNode uncle fun s u => s.setColor u .black
          let s := s.setColor parent .black
          let s := s.setColor gparent .red
          intervalInsertColorLoop fuel s gparent
        else if (s.node parent).child d.opp = some node then
          -- node and parent change places
          let s ← rotate d s parent
          let s := s.setColor node .black
          let s := s.setColor gparent .red
          let s ← rotate d.opp s gparent
          intervalInsertColorLoop fuel s parent
        else
          let s := s.setColor parent .black
          let s := s.setColor gparent .red
          let s ← rotate d.opp s gparent
          intervalInsertColorLoop fuel s node
      else some s

def intervalInsertColor (node : ℕ) : Option IntervalTree := do
  let s ← intervalInsertColorLoop fuel s node
  let root ← s.root
  return s.setColor root .black

/-- The place `p` points to in `interval_insert`. -/
inductive IntervalSlot where
  | root
  /-- a child pointer of a node -/
  | child (n : ℕ) (d : Side)
  deriving DecidableEq

/-- `*p`. -/
def IntervalTree.load : IntervalSlot → Option ℕ
  | .root => s.root
  | .child n d => (s.node n).child d

/-- `*p = node`. -/
def IntervalTree.store (slot : IntervalSlot) (p : Option ℕ) : IntervalTree :=
  match slot with
  | .root => { s with root := p }
  | .child n d => s.setChild n d p

/-- The descent of `interval_insert`: the node with the same interval, or the place
for the new node and its parent. -/
def intervalInsertLoop (node : ℕ) : ℕ → IntervalTree → Option ℕ → IntervalSlot →
    Option (IntervalTree × (ℕ ⊕ (Option ℕ × IntervalSlot)))
  | 0, _, _, _ => none
  | fuel + 1, s, parent, p =>
    match s.load p with
    | none => some (s, .inr (parent, p))
    | some parent =>
      if extentEqual (s.node parent).inExtent (s.node node).inExtent then some (s, .inl parent)
      else
        let s := if (s.node parent).inMaxHigh < intervalHigh s node
          then s.setMaxHigh parent (intervalHigh s node) else s
        let d := if extentCompare (s.node node).inExtent (s.node parent).inExtent < 0
          then Side.left else .right
        intervalInsertLoop node fuel s (some parent) (.child parent d)

/-- The link-up of `interval_insert`: the new node becomes a red leaf, and `*p` points
to it. -/
def intervalLink (node : ℕ) (parent : Option ℕ) (p : IntervalSlot) : IntervalTree :=
  let s := s.setParent node parent
  let s := s.setColor node .red
  let s := s.setChild node .right none
  let s := s.setChild node .left none
  s.store p (some node)

/-- `interval_insert`: the node with the same interval if there is one, and the tree. -/
def intervalInsert (node : ℕ) : Option (Option ℕ × IntervalTree) :=
  if (s.node node).inIntree then none
  else do
    match ← intervalInsertLoop node fuel s none .root with
    | (s, .inl found) => return (some found, s)
    | (s, .inr (parent, p)) =>
      let s ← intervalInsertColor fuel (intervalLink s node parent p) node
      return (none, s.setIntree node true)

/-! ## Erasing -/

/-- How `interval_erase_color` leaves its loop: the sibling has a red child on the far
side. -/
def intervalEraseColorLast (parent : ℕ) : Option IntervalTree := do
  let tmp ← (s.node parent).child d.opp
  let s := s.setColor tmp (s.node parent).inColor
  let s := s.setColor parent .black
  let s := s.onNode ((s.node tmp).child d.opp) fun s c => s.setColor c .black
  rotate d s parent

/-- What `interval_erase_color` does once the sibling `tmp` is black, for a node on
the side `d` of its parent; `true` if it leaves the loop. -/
def intervalEraseColorRound (parent : ℕ) : Option (IntervalTree × Bool) := do
  let tmp ← (s.node parent).child d.opp
  if nodeIsBlackOr0 s (s.node tmp).inLeft ∧ nodeIsBlackOr0 s (s.node tmp).inRight then
    return (s.setColor tmp .red, false)
  else
    let s ← if nodeIsBlackOr0 s ((s.node tmp).child d.opp) then
        let s := s.onNode ((s.node tmp).child d) fun s o => s.setColor o .black
        rotate d.opp (s.setColor tmp .red) tmp
      else some s
    return (← intervalEraseColorLast d s parent, true)

/-- The loop of `interval_erase_color`; returns `node` too. -/
def intervalEraseColorLoop : ℕ → IntervalTree → Option ℕ → Option ℕ →
    Option (IntervalTree × Option ℕ)
  | 0, _, _, _ => none
  | fuel + 1, s, node, parent =>
    if nodeIsBlackOr0 s node ∧ node ≠ s.root then do
      let parent ← parent
      let d := if (s.node parent).inLeft = node then Side.left else .right
      let tmp ← (s.node parent).child d.opp
      let s ← if (s.node tmp).inColor = .red then
          rotate d ((s.setColor tmp .black).setColor parent .red) parent
        else some s
      let (s, last) ← intervalEraseColorRound d s parent
      if last then return (s, s.root)
      else intervalEraseColorLoop fuel s (some parent) (s.node parent).inParent
    else some (s, node)

def intervalEraseColor (node parent : Option ℕ) : Option IntervalTree := do
  let (s, node) ← intervalEraseColorLoop fuel s node parent
  return s.onNode node fun s n => s.setColor n .black

def updateMaxhigh : ℕ → IntervalTree → Option ℕ → ℕ → Option IntervalTree
  | _, s, none, _ => some s
  | 0, _, some _, _ => none
  | fuel + 1, s, some n, oldMaxhigh =>
    let s := s.setMaxHigh n (computeMaxHigh s n)
    if (s.node n).inMaxHigh ≥ oldMaxhigh then some s
    else updateMaxhigh fuel s (s.node n).inParent oldMaxhigh

/-- The part of `interval_erase` for a node with at most one child. -/
def intervalEraseOne (node : ℕ) (child : Option ℕ) : Option IntervalTree := do
  let parent := (s.node node).inParent
  let color := (s.node node).inColor
  let s := s.onNode child fun s c => s.setParent c parent
  let s := replaceChild .left s node child
  let s ← updateMaxhigh fuel s (child.or parent) (s.node node).inMaxHigh
  if color = .black then intervalEraseColor fuel s child parent else some s

/-- `node` takes the place of `old`, in the tree and in colour; `left` is
`old->in_left`. -/
def intervalTakePlace (node old left : ℕ) : IntervalTree :=
  let s := s.setColor node (s.node old).inColor
  let s := s.setChild node .right (s.node old).inRight
  let s := s.setChild node .left (s.node old).inLeft
  let s := s.setParent node (s.node old).inParent
  let s := replaceChild .left s old (some node)
  let s := s.setParent left (some node)
  s.onNode (s.node old).inRight fun s r => s.setParent r (some node)

/-- The part of `interval_erase` for a node with two children: the next node takes
its place. -/
def intervalEraseTwo (old left : ℕ) : Option IntervalTree := do
  let node ← ← intervalNext fuel s old
  let child := (s.node node).inRight
  let parent ← (s.node node).inParent
  let color := (s.node node).inColor
  let s := s.onNode child fun s c => s.setParent c (some parent)
  let s := if parent = old then s.setChild parent .right child else s.setChild parent .left child
  let s := intervalTakePlace s node old left
  let s ← updateMaxhigh fuel s (child.or (some parent)) (s.node node).inMaxHigh
  let s ← updateMaxhigh fuel s (some node) (s.node old).inMaxHigh
  let parent := if parent = old then node else parent
  if color = .black then intervalEraseColor fuel s child (some parent) else some s

def intervalErase (node : ℕ) : Option IntervalTree :=
  if ¬ (s.node node).inIntree then none
  else
    let s := s.setIntree node false
    match (s.node node).inLeft, (s.node node).inRight with
    | none, child => intervalEraseOne fuel s node child
    | some left, none => intervalEraseOne fuel s node (some left)
    | some left, some _ => intervalEraseTwo fuel s node left

/-! ## Searching -/

/-- `enum interval_iter`: what a callback answers. -/
inductive IntervalIter where
  /-- `INTERVAL_ITER_CONT` -/
  | cont
  /-- `INTERVAL_ITER_STOP` -/
  | stop
  deriving DecidableEq

def intervalMayOverlap (n : ℕ) (ext : IntervalExtent) : Bool :=
  ext.start ≤ (s.node n).inMaxHigh && intervalLow s n ≤ ext.stop

section Search

variable {σ : Type} (ext : IntervalExtent) (func : σ → ℕ → Option (σ × IntervalIter))

/-- What `interval_search` does at a node: it calls the callback if the node overlaps,
and chooses the child to go on with. -/
def intervalVisit (s : IntervalTree) (node : ℕ) (data : σ) : Option (σ × IntervalIter × Option ℕ) :=
  if ext.stop < intervalLow s node then some (data, .cont, (s.node node).inLeft)
  else if intervalMayOverlap s node ext then
    let called := if extentOverlapped ext (s.node node).inExtent then func data node
      else some (data, .cont)
    called.map fun (data, rc) => (data, rc, (s.node node).inLeft.or (s.node node).inRight)
  else some (data, .cont, none)

/-- The inner loop of `interval_search`: up to the first parent that is reached from its
left child and has a right one. -/
def intervalSearchClimb : ℕ → IntervalTree → ℕ → Option (Option (ℕ × ℕ))
  | 0, _, _ => none
  | fuel + 1, s, node =>
    match (s.node node).inParent with
    | none => some none
    | some parent =>
      match (s.node parent).inRight with
      | some right => if (s.node parent).inLeft = some node then some (some (parent, right))
        else intervalSearchClimb fuel s parent
      | none => intervalSearchClimb fuel s parent

/-- The outer loop of `interval_search`; `depth` is the fuel of the inner loop. -/
def intervalSearchLoop (depth : ℕ) : ℕ → IntervalTree → ℕ → σ → Option (σ × IntervalIter)
  | 0, _, _, _ => none
  | fuel + 1, s, node, data => do
    let (data, rc, child) ← intervalVisit ext func s node data
    if rc = .stop then return (data, rc)
    match child with
    | some child => intervalSearchLoop depth fuel s child data
    | none =>
      match ← intervalSearchClimb depth s node with
      | none => return (data, rc)
      | some (parent, right) =>
        if intervalMayOverlap s parent ext then intervalSearchLoop depth fuel s right data
        else return (data, rc)

/-- `interval_search` from the root. The callback gets the data and the node; it may
write to the data only. -/
def intervalSearch (fuel : ℕ) (s : IntervalTree) (data : σ) : Option (σ × IntervalIter) :=
  match s.root with
  | none => some (data, .cont)
  | some node => intervalSearchLoop ext func fuel fuel s node data

end Search

end Lustre
