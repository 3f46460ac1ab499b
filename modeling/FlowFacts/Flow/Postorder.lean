/-
Depth-first orders of a graph.  The last successor of a node is explored
first, and a node is finished when everything below it is.
-/
import FlowFacts.Flow.Graph

namespace FlowFacts

/-- What is still to be done in a depth-first walk. -/
inductive Visit
  | enter (node : Nat)
  | leave (node : Nat)
deriving DecidableEq, Repr

namespace Graph

/-- The successors of a node that have not been entered when the node is. -/
def unentered (graph : Graph) (node : Nat) (seen : List Nat) : List Nat :=
  (graph.next node).filter (· ∉ node :: seen)

/-- Walk the graph for a number of steps.  Finished nodes are collected with
the latest in front. -/
def walk (graph : Graph) : Nat → List Visit → List Nat → List Nat → List Nat
  | 0, _, _, finished => finished
  | _ + 1, [], _, finished => finished
  | steps + 1, .leave node :: agenda, seen, finished =>
      walk graph steps agenda seen (node :: finished)
  | steps + 1, .enter node :: agenda, seen, finished =>
      if node ∈ seen ∨ graph.size ≤ node then
        walk graph steps agenda seen finished
      else
        walk graph steps
          ((graph.unentered node seen).reverse.map .enter ++
            .leave node :: agenda)
          (node :: seen) finished

/-- The nodes that the entry reaches, each before the nodes it is finished
after.  Every node is entered at most once for each edge and left once. -/
def reversePostorder (graph : Graph) : List Nat :=
  graph.walk (2 * graph.size + graph.edges + 2) [.enter 0] [] []

/-- The nodes that the entry reaches, in the order they are finished. -/
def postorder (graph : Graph) : List Nat :=
  graph.reversePostorder.reverse

/-- An edge from a reachable node to no node. -/
def dangling? (graph : Graph) : Option Nat :=
  (graph.reversePostorder.flatMap graph.next).find? (graph.size ≤ ·)

end Graph

namespace Body

/-- The blocks that the entry reaches, in the order a depth-first walk
finishes them.  Every edge met must lead to a block. -/
def postorder (body : Body) : Except Fault (List BlockId) :=
  match body.graph.dangling? with
  | some block => .error (.noBlock block)
  | none => .ok body.graph.postorder

end Body

end FlowFacts
