/-
# The stack distance calculator

`StackDistCalc` (`src/mem/stack_dist_calc.cc`) numbers the accesses with `index`
and keeps a leaf for every address at its last access.  Above the leaves there
are layers of nodes with the number of leaves in their left and right halves;
the stack distance of an address is read, or read and updated, on the way from
its leaf to the root.  `updateTree` adds a root at powers of two and inner nodes
at multiples of `2 ^ i`; `updateSum` deletes the nodes that are used up.

A pointer to a node is the layer and the key under which `tree` holds it, and to
follow one to a node that is not there is undefined.  The counters are exact, and
`none` stands for `Infinity`.  With `verifyStack` the calculator checks itself
against `stack`; since a call with `addNewNode` false takes nothing off that
stack, the check can fail (`stack_dist_self_check_fails`).  Otherwise the
calculator is the naive stack (`stack_dist_calc_naive`, in `StackDistNaive`).

* `StackDistCalc` — the calculator.
* `NaiveStack`    — the addresses on the stack with their marks, the last one first.
-/
import Gem5.TransitionSystem
import Mathlib

/-! ## The calculator -/

namespace StackDist

/-- A node.  `parent` is the layer and the key of the node above. -/
structure Node where
  sumLeft : ℕ := 0
  sumRight : ℕ := 0
  discardLeft : Bool := false
  discardRight : Bool := false
  nodeIndex : ℕ := 0
  parent : Option (ℕ × ℕ) := none
  isLeftNode : Bool := true
  isMarked : Bool := false

/-- The layers, each a map from keys to nodes. -/
abbrev Tree := ℕ → ℕ → Option Node

namespace Tree

def set (t : Tree) (i n : ℕ) (node : Option Node) : Tree :=
  Function.update t i (Function.update (t i) n node)

/-- `*tree[i][n]`. -/
def deref (t : Tree) (i n : ℕ) : Except Abort Node :=
  match t i n with
  | some node => .ok node
  | none => .error .undefined

/-- `tree[i][n]` as a pointer. -/
def pointer (t : Tree) (i n : ℕ) : Option (ℕ × ℕ) := (t i n).map fun _ => (i, n)

end Tree

/-- The changes `updateSum` makes to a node. -/
def Node.arrive (node : Node) (fromLeft : Bool) (sumFromBelow : ℕ) (discardNode : Bool) : Node :=
  { node with
    sumLeft := if fromLeft then sumFromBelow else node.sumLeft
    sumRight := if fromLeft then node.sumRight else sumFromBelow
    discardLeft := node.discardLeft || (discardNode && sumFromBelow == 0 && fromLeft)
    discardRight := node.discardRight || (discardNode && sumFromBelow == 0 && !fromLeft) }

/-- The new root of `updateTree` above an old one. -/
def Node.newRoot (old : Node) : Node :=
  { sumLeft := old.sumRight + old.sumLeft, discardLeft := old.discardLeft && old.discardRight }

/-- The panics of `updateSum` when it verifies. -/
def checkSums (verifyStack : Bool) (node : Node) (level : ℕ) : Except Abort Unit :=
  if verifyStack = true ∧ (node.sumLeft > 2 ^ (level - 1) ∨ node.sumRight > 2 ^ (level - 1)) then
    .error .assertion
  else .ok ()

/-- `updateSum`, with the number of layers as fuel. -/
def updateSum (verifyStack : Bool) : ℕ → Tree → ℕ × ℕ → Bool → ℕ → ℕ → ℕ → Bool →
    Except Abort (Tree × ℕ)
  | 0, _, _, _, _, _, _, _ => .error .undefined
  | fuel + 1, t, p, fromLeft, sumFromBelow, level, stackDist, discardNode => do
    let old ← t.deref p.1 p.2
    checkSums verifyStack old (level + 1)
    let node := old.arrive fromLeft sumFromBelow discardNode
    let stackDist := if fromLeft then stackDist + old.sumRight else stackDist
    let delete := node.discardLeft && node.discardRight && discardNode && node.parent.isSome &&
      sumFromBelow == 0
    let t := if delete then (t.set p.1 p.2 none).set (level + 1) node.nodeIndex none
      else t.set p.1 p.2 (some node)
    match node.parent with
    | some q =>
      updateSum verifyStack fuel t q node.isLeftNode (node.sumLeft + node.sumRight) (level + 1)
        stackDist delete
    | none => .ok (t, stackDist)

/-- `getSum`, with the number of layers as fuel. -/
def getSum : ℕ → Tree → ℕ × ℕ → Bool → ℕ → Except Abort ℕ
  | 0, _, _, _, _ => .error .undefined
  | fuel + 1, t, p, fromLeft, stackDist => do
    let node ← t.deref p.1 p.2
    let stackDist := if fromLeft then stackDist + node.sumRight else stackDist
    match node.parent with
    | some q => getSum fuel t q node.isLeftNode stackDist
    | none => .ok stackDist

/-- The loop of `sanityCheckTree`: that many layers up there is still a node. -/
def climb : ℕ → Tree → ℕ × ℕ → Except Abort (ℕ × ℕ)
  | 0, _, p => .ok p
  | k + 1, t, p => do
    let node ← t.deref p.1 p.2
    match node.parent with
    | some q => climb k t q
    | none => .error .assertion

/-- Following a pointer that may be null. -/
def follow (p : Option (ℕ × ℕ)) : Except Abort (ℕ × ℕ) :=
  match p with
  | some q => .ok q
  | none => .error .undefined

end StackDist

open StackDist

/-- The state of `StackDistCalc`.  `depth` is `getTreeDepth()`, and the top of `stack` is first. -/
structure StackDistCalc (Addr : Type) where
  verifyStack : Bool
  index : ℕ := 0
  depth : ℕ := 1
  tree : StackDist.Tree
  nextIndex : ℕ → ℕ
  aiMap : Addr → Option ℕ := fun _ => none
  stack : List Addr := []

namespace StackDistCalc

variable {Addr : Type}

/-- The constructor: an empty leaf layer and a root. -/
def create (verifyStack : Bool) : StackDistCalc Addr :=
  { verifyStack
    tree := StackDist.Tree.set (fun _ _ => none) 1 0 (some {})
    nextIndex := fun i => if i = 1 then 1 else 0 }

/-- `updateSumsLeavesToRoot`. -/
def updateSumsLeavesToRoot (s : StackDistCalc Addr) (leaf : ℕ) (isNewLeaf : Bool) :
    Except Abort (StackDistCalc Addr × ℕ) := do
  let node ← s.tree.deref 0 leaf
  let sum := if isNewLeaf then 1 else 0
  let tree := s.tree.set 0 leaf (some { node with sumLeft := sum })
  let p ← follow node.parent
  let r ← updateSum s.verifyStack s.depth tree p node.isLeftNode sum 0 0 (!isNewLeaf)
  pure ({ s with tree := r.1 }, r.2)

/-- `getSumsLeavesToRoot`. -/
def getSumsLeavesToRoot (s : StackDistCalc Addr) (leaf : ℕ) : Except Abort ℕ := do
  let node ← s.tree.deref 0 leaf
  let p ← follow node.parent
  getSum s.depth s.tree p node.isLeftNode 0

/-- A new inner node in layer `i`. -/
def addNode (s : StackDistCalc Addr) (i : ℕ) : StackDistCalc Addr :=
  { s with
    tree := s.tree.set i (s.nextIndex i) (some {
      isLeftNode := s.nextIndex i % 2 == 0
      parent := s.tree.pointer (i + 1) (s.nextIndex (i + 1) - 1)
      nodeIndex := s.nextIndex i })
    nextIndex := Function.update s.nextIndex i (s.nextIndex i + 1) }

/-- The loops of `updateTree`, down to layer 1. -/
def addNodes (needed : ℕ → Bool) : ℕ → StackDistCalc Addr → StackDistCalc Addr
  | 0, s => s
  | i + 1, s => addNodes needed i (if needed (i + 1) then s.addNode (i + 1) else s)

/-- A new root above the old one. -/
def addRoot (s : StackDistCalc Addr) : Except Abort (StackDistCalc Addr) := do
  let old ← s.tree.deref s.depth 0
  pure { s with
    depth := s.depth + 1
    nextIndex := Function.update s.nextIndex (s.depth + 1) 1
    tree := (s.tree.set (s.depth + 1) 0 (some old.newRoot)).set s.depth 0
      (some { old with parent := some (s.depth + 1, 0) }) }

/-- `leastSigBit`: `n & ~(n - 1)`. -/
def leastSigBit (n : ℕ) : ℕ := Nat.ldiff n (n - 1)

/-- `isPowerOf2`. -/
def isPowerOf2 (n : ℕ) : Bool := n != 0 && leastSigBit n == n

def updateTree (s : StackDistCalc Addr) : Except Abort (StackDistCalc Addr) :=
  if isPowerOf2 s.index then do
    let s ← s.addRoot
    pure (addNodes (fun _ => true) (s.depth - 1) s)
  else .ok (addNodes (fun i => s.index % 2 ^ i == 0) (s.depth - 1) s)

/-- The new leaf for the current index. -/
def addLeaf (s : StackDistCalc Addr) : StackDistCalc Addr :=
  { s with
    nextIndex := Function.update s.nextIndex 0 (s.nextIndex 0 + 1)
    tree := s.tree.set 0 s.index (some {
      nodeIndex := s.index
      isLeftNode := s.index % 2 == 0
      parent := s.tree.pointer 1 (s.nextIndex 1 - 1) }) }

/-- `sanityCheckTree`. -/
def sanityCheckTree (s : StackDistCalc Addr) (leaf : ℕ) : Except Abort Unit := do
  let node ← s.tree.deref 0 leaf
  let p ← follow node.parent
  let q ← climb (s.depth - 1) s.tree p
  let top ← s.tree.deref q.1 q.2
  if top.parent.isSome then .error .assertion else .ok ()

variable [DecidableEq Addr]

/-- The distance in `verifyStackDist`. -/
def stackPosition (stack : List Addr) (a : Addr) : Option ℕ :=
  if a ∈ stack then some (stack.idxOf a) else none

/-- The panic at a distance that is not the one of `verifyStackDist`. -/
def checkDist (s : StackDistCalc Addr) (a : Addr) (stackDist : Option ℕ) : Except Abort Unit :=
  if s.verifyStack = true ∧ stackPosition s.stack a ≠ stackDist then .error .assertion else .ok ()

/-- What `calcStackDistAndUpdate` does with the old leaf of an address. -/
def removeLeaf (s : StackDistCalc Addr) (r : ℕ) :
    Except Abort (StackDistCalc Addr × Option ℕ × Bool) := do
  let u ← s.updateSumsLeavesToRoot r false
  let leaf ← u.1.tree.deref 0 r
  pure ({ u.1 with tree := u.1.tree.set 0 r none }, some u.2, leaf.isMarked)

/-- The part of `calcStackDistAndUpdate` that looks for the address. -/
def lookup (s : StackDistCalc Addr) (a : Addr) (addNewNode : Bool) :
    Except Abort (StackDistCalc Addr × Option ℕ × Bool) :=
  let aiMap := Function.update s.aiMap a (if addNewNode then some s.index else none)
  match s.aiMap a with
  | some r => removeLeaf { s with aiMap := aiMap } r
  | none => .ok ({ s with aiMap := aiMap }, none, false)

/-- The tree is updated at every other index. -/
def updateTreeIfEven (s : StackDistCalc Addr) : Except Abort (StackDistCalc Addr) :=
  if s.index % 2 = 0 then s.updateTree else .ok s

/-- The checks of `calcStackDistAndUpdate` when it verifies. -/
def verifyNew (s : StackDistCalc Addr) (a : Addr) (stackDist : Option ℕ) :
    Except Abort (StackDistCalc Addr) :=
  if s.verifyStack then do
    s.sanityCheckTree s.index
    s.checkDist a stackDist
    pure { s with stack := a :: s.stack.erase a }
  else .ok s

/-- The part of `calcStackDistAndUpdate` that adds the new leaf. -/
def addNew (s : StackDistCalc Addr) (a : Addr) (stackDist : Option ℕ) :
    Except Abort (StackDistCalc Addr) := do
  let s ← s.updateTreeIfEven
  let u ← s.addLeaf.updateSumsLeavesToRoot s.index true
  let s ← u.1.verifyNew a stackDist
  pure { s with index := s.index + 1 }

def calcStackDistAndUpdate (s : StackDistCalc Addr) (a : Addr) :
    Bool → Except Abort (StackDistCalc Addr × Option ℕ × Bool)
  | true => do
    let r ← s.lookup a true
    let s ← r.1.addNew a r.2.1
    pure (s, r.2)
  | false => s.lookup a false

/-- What `calcStackDist` does with the leaf of an address. -/
def markLeaf (s : StackDistCalc Addr) (r : ℕ) (mark : Bool) :
    Except Abort (StackDistCalc Addr × Option ℕ × Bool) := do
  let leaf ← s.tree.deref 0 r
  let s := { s with tree := s.tree.set 0 r (some { leaf with isMarked := mark }) }
  let stackDist ← s.getSumsLeavesToRoot r
  pure (s, some stackDist, leaf.isMarked)

/-- The part of `calcStackDist` that looks for the address. -/
def markAddr (s : StackDistCalc Addr) (a : Addr) (mark : Bool) :
    Except Abort (StackDistCalc Addr × Option ℕ × Bool) :=
  match s.aiMap a with
  | some r => s.markLeaf r mark
  | none => .ok (s, none, false)

def calcStackDist (s : StackDistCalc Addr) (a : Addr) (mark : Bool) :
    Except Abort (StackDistCalc Addr × Option ℕ × Bool) := do
  let r ← s.markAddr a mark
  r.1.checkDist a r.2.1
  pure r

end StackDistCalc

/-! ## Calls -/

inductive StackDistCall (Addr : Type)
  | calcStackDistAndUpdate (a : Addr) (addNewNode : Bool)
  | calcStackDist (a : Addr) (mark : Bool)

namespace StackDistCalc

variable {Addr : Type} [DecidableEq Addr]

def call (s : StackDistCalc Addr) :
    StackDistCall Addr → Except Abort (StackDistCalc Addr × Option ℕ × Bool)
  | .calcStackDistAndUpdate a addNewNode => s.calcStackDistAndUpdate a addNewNode
  | .calcStackDist a mark => s.calcStackDist a mark

/-- A sequence of calls, with what each of them returns. -/
def calls (s : StackDistCalc Addr) :
    List (StackDistCall Addr) → Except Abort (StackDistCalc Addr × List (Option ℕ × Bool))
  | [] => .ok (s, [])
  | c :: cs => do
    let r ← s.call c
    let rest ← r.1.calls cs
    pure (rest.1, r.2 :: rest.2)

end StackDistCalc

/-! ## The naive stack -/

/-- The addresses on the stack with their marks, in the order of their last addition, the latest
one first. -/
abbrev NaiveStack (Addr : Type) := List (Addr × Bool)

namespace NaiveStack

variable {Addr : Type} [DecidableEq Addr]

/-- How many addresses are above this one, if it is on the stack: those that were added later. -/
def distance (ns : NaiveStack Addr) (a : Addr) : Option ℕ :=
  if a ∈ ns.map Prod.fst then some ((ns.map Prod.fst).idxOf a) else none

/-- The mark of the address, if it is on the stack. -/
def marked (ns : NaiveStack Addr) (a : Addr) : Bool :=
  ((ns.find? (·.1 = a)).map Prod.snd).getD false

/-- What a call leaves on the stack. -/
def after (ns : NaiveStack Addr) : StackDistCall Addr → NaiveStack Addr
  | .calcStackDistAndUpdate a true => (a, false) :: ns.filter (·.1 ≠ a)
  | .calcStackDistAndUpdate a false => ns.filter (·.1 ≠ a)
  | .calcStackDist a mark => ns.map fun e => if e.1 = a then (a, mark) else e

def address : StackDistCall Addr → Addr
  | .calcStackDistAndUpdate a _ | .calcStackDist a _ => a

/-- What the calls return. -/
def results (ns : NaiveStack Addr) : List (StackDistCall Addr) → List (Option ℕ × Bool)
  | [] => []
  | c :: cs => (ns.distance (address c), ns.marked (address c)) :: (ns.after c).results cs

/-- **No call with `addNewNode` false finds its address on the stack.** -/
def RemovesNothing (ns : NaiveStack Addr) : List (StackDistCall Addr) → Prop
  | [] => True
  | c :: cs => (∀ a, c = .calcStackDistAndUpdate a false → a ∉ ns.map Prod.fst) ∧
      (ns.after c).RemovesNothing cs

end NaiveStack

/-- With `verifyStack`, an address is added, taken off, and added again: the calculator finds that
it is not on the stack, and the stack of `verifyStackDist` still has it. -/
theorem stack_dist_self_check_fails :
    ((StackDistCalc.create true : StackDistCalc ℕ).calls
        [.calcStackDistAndUpdate 64 true, .calcStackDistAndUpdate 64 false,
          .calcStackDistAndUpdate 64 true]).map Prod.snd =
      .error .assertion := by
  decide +kernel
