/-
Marking the blocks from which a target block can be reached.  Marks are kept in
a buffer that is used for one target after another, in bodies of any size.
-/
import FlowFacts.Flow.Graph

namespace FlowFacts

namespace Graph

def noted (marked : Array Bool) (nodes : List Nat) : Array Bool :=
  nodes.foldl (fun marked node => marked.setIfInBounds node true) marked

def unmarkedBefore (graph : Graph) (marked : Array Bool) (node : Nat) :
    List Nat :=
  (graph.previous node).filter fun source => !marked.getD source false

/-- Mark the predecessors of the nodes in line, for a number of steps.  What is
marked gets in line, the last first. -/
def spread (graph : Graph) : Nat → List Nat → Array Bool → Array Bool
  | 0, _, marked => marked
  | _ + 1, [], marked => marked
  | steps + 1, node :: line, marked =>
      let fresh := graph.unmarkedBefore marked node
      spread graph steps (fresh.reverse ++ line) (noted marked fresh)

end Graph

/-- A target and, for every block, whether it leads to the target. -/
structure Marks where
  target : Option BlockId := none
  marked : Array Bool := #[]
deriving DecidableEq, Repr

namespace Marks

def clear (_marks : Marks) : Marks := {}

/-- Marks for so many blocks: those there are, and none on the other blocks. -/
def resized (marked : Array Bool) (size : Nat) : Array Bool :=
  ((List.range size).map fun block => marked.getD block false).toArray

/-- Get ready for a target in a body: no block is marked. -/
def prepare (marks : Marks) (body : Body) (target : BlockId) : Marks :=
  { target := some target
    marked := resized marks.clear.marked body.blocks.size }

/-- Mark a block and every block that leads to it, and no other.  A block in
line has just been marked, so there are as many steps as blocks. -/
def retarget (marks : Marks) (body : Body) (target : BlockId) :
    Except Fault Marks := do
  let ready := marks.prepare body target
  let _ ← body.block target
  return { ready with
    marked := body.graph.spread body.blocks.size [target]
      (Graph.noted ready.marked [target]) }

/-- The marks for a target in a new buffer. -/
def mark (body : Body) (target : BlockId) : Except Fault Marks :=
  retarget {} body target

def isMarked (marks : Marks) (block : BlockId) : Bool :=
  marks.marked.getD block false

end Marks

end FlowFacts
