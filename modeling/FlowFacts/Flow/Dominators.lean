/-
Dominators of the blocks of a body.  Every reachable block points up to a
candidate for its nearest dominator; the candidates of a block's predecessors
are merged until nothing changes.
-/
import FlowFacts.Flow.Postorder

namespace FlowFacts

namespace Graph

/-- Pointers towards the entry.  The entry points to itself, and a block that
has not been reached points nowhere. -/
abbrev Pointers := Array (Option Nat)

/-- The nearest node above both nodes: the lower of the two moves up until
they meet.  There is none if a pointer is missing or the steps run out. -/
def merge (pointers : Pointers) (rank : Nat → Nat) :
    Nat → Nat → Nat → Option Nat
  | 0, _, _ => none
  | steps + 1, a, b =>
      if a = b then some a
      else if rank b < rank a then
        match pointers.getD a none with
        | some up => merge pointers rank steps up b
        | none => none
      else
        match pointers.getD b none with
        | some up => merge pointers rank steps a up
        | none => none

/-- The pointer that the predecessors of a node call for.  Predecessors that
point nowhere yet do not count; without any, the pointer stays as it is. -/
def improve (graph : Graph) (rank : Nat → Nat) (pointers : Pointers)
    (node : Nat) (previous : List Nat) : Option Pointers :=
  match previous.filter fun source => (pointers.getD source none).isSome with
  | [] => some pointers
  | first :: rest => do
      let up ← rest.foldlM
        (fun up source => merge pointers rank (2 * graph.size + 1) source up)
        first
      return pointers.setIfInBounds node (some up)

/-- One pass over the nodes, each with its predecessors. -/
def pass (graph : Graph) (rank : Nat → Nat) (nodes : List (Nat × List Nat))
    (pointers : Pointers) : Option Pointers :=
  nodes.foldlM
    (fun pointers node => graph.improve rank pointers node.1 node.2) pointers

def settle (graph : Graph) (rank : Nat → Nat) (nodes : List (Nat × List Nat)) :
    Nat → Pointers → Option Pointers
  | 0, _ => none
  | rounds + 1, pointers => do
      let improved ← graph.pass rank nodes pointers
      if improved = pointers then return pointers
      else graph.settle rank nodes rounds improved

/-- The pointers to nearest dominators.  No pointer moves more often than
there are nodes above it. -/
def nearestDominators? (graph : Graph) : Option Pointers :=
  let order := graph.reversePostorder
  let ranks := ((List.range graph.size).map order.idxOf).toArray
  let nodes := order.tail.map fun node => (node, graph.previous node)
  let start := ((List.range graph.size).map fun node =>
    if node = 0 then some 0 else none).toArray
  graph.settle (fun node => ranks.getD node graph.size) nodes
    (graph.size * graph.size + 2) start

end Graph

/-- The dominators of a body at one revision. -/
structure Dominators where
  nearest : Graph.Pointers
  builtAt : Nat
deriving DecidableEq, Repr

def Body.dominators (body : Body) : Except Fault Dominators := do
  let _ ← body.postorder
  match body.graph.nearestDominators? with
  | some nearest => return { nearest, builtAt := body.revision }
  | none => throw .brokenDominators

namespace Dominators

def isReachable (tree : Dominators) (block : BlockId) : Bool :=
  (tree.nearest.getD block none).isSome

/-- The nearest dominator other than the block itself. -/
def immediate? (tree : Dominators) (block : BlockId) : Option BlockId :=
  match tree.nearest.getD block none with
  | some up => if up = block then none else some up
  | none => none

/-- A block and its dominators upwards, at most `steps` of them. -/
def climb (tree : Dominators) : Nat → BlockId → List BlockId
  | 0, block => [block]
  | steps + 1, block =>
      block ::
        match tree.immediate? block with
        | some up => climb tree steps up
        | none => []

/-- A block and all its dominators, nearest first. -/
def chain (tree : Dominators) (block : BlockId) : List BlockId :=
  tree.climb tree.nearest.size block

/-- Fail on a block that the tree does not know. -/
def check (tree : Dominators) (block : BlockId) : Except Fault Unit :=
  if block < tree.nearest.size then .ok () else .error (.noBlock block)

def dominates (tree : Dominators) (a b : BlockId) : Except Fault Bool := do
  if a = b then return true
  else
    tree.check b
    return (tree.chain b).contains a

def dominatesAll (tree : Dominators) (a : BlockId) (blocks : List BlockId) :
    Except Fault Bool :=
  blocks.allM (tree.dominates a)

/-- The dominators of a block, itself included, nearest first. -/
def all (tree : Dominators) (block : BlockId) : Except Fault (List BlockId) := do
  tree.check block
  return tree.chain block

/-- The dominators of a block other than itself, nearest first. -/
def strict (tree : Dominators) (block : BlockId) :
    Except Fault (List BlockId) := do
  tree.check block
  return (tree.chain block).tail

end Dominators

end FlowFacts
