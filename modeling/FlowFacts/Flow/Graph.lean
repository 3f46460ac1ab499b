/-
Finite directed graphs whose nodes are numbers, with node `0` as the entry.
An edge may lead to a number that is no node; paths do not follow it further.
-/
import FlowFacts.Fault
import FlowFacts.Body.Basic

namespace FlowFacts

/-- A graph, given by the successors of every node in order. -/
structure Graph where
  successors : Array (List Nat)
deriving DecidableEq, Repr

namespace Graph

def size (graph : Graph) : Nat := graph.successors.size

def next (graph : Graph) (node : Nat) : List Nat :=
  graph.successors.getD node []

def edges (graph : Graph) : Nat :=
  graph.successors.toList.flatten.length

/-- The nodes that have an edge to a node, in ascending order. -/
def previous (graph : Graph) (node : Nat) : List Nat :=
  (List.range graph.size).filter fun source => (graph.next source).contains node

/-- The nodes of a path from one node to another, both ends included. -/
inductive Path (graph : Graph) : Nat → List Nat → Nat → Prop
  | single (node : Nat) : Path graph node [node] node
  | step {first second last : Nat} {path : List Nat}
      (edge : second ∈ graph.next first) (rest : Path graph second path last) :
      Path graph first (first :: path) last

def Reaches (graph : Graph) (first last : Nat) : Prop :=
  ∃ path, graph.Path first path last

/-- A node dominates itself, and every node that the entry reaches on paths
through it only. -/
def Dominates (graph : Graph) (a b : Nat) : Prop :=
  a = b ∨ (graph.Reaches 0 b ∧ ∀ path, graph.Path 0 path b → a ∈ path)

end Graph

/-- The blocks of a body as a graph; exceptions count as edges. -/
def Body.graph (body : Body) : Graph :=
  ⟨((List.range body.blocks.size).map body.successors).toArray⟩

end FlowFacts
