/-
Which values depend on which.  Values that depend on each other in a circle
are decided together; then a value is settled once all it depends on is.
-/
import FlowFacts.Closure
import FlowFacts.Fault

namespace FlowFacts

/-- Values and the dependencies between them. -/
structure DependencyGraph where
  nodes : List ValueId := []
  /-- An edge leads from a value to a value that it depends on. -/
  edges : List (ValueId × ValueId) := []
deriving DecidableEq, Repr

namespace DependencyGraph

def addValue (graph : DependencyGraph) (value : ValueId) : DependencyGraph :=
  if graph.nodes.contains value then graph
  else { graph with nodes := graph.nodes ++ [value] }

def addDependency (graph : DependencyGraph) (source target : ValueId) : DependencyGraph :=
  let graph := (graph.addValue source).addValue target
  if graph.edges.contains (source, target) then graph
  else { graph with edges := graph.edges ++ [(source, target)] }

def next (graph : DependencyGraph) (value : ValueId) : List ValueId :=
  graph.edges.filterMap fun edge =>
    if edge.1 = value then some edge.2 else none

def below (graph : DependencyGraph) (value : ValueId) : List ValueId :=
  closure graph.next graph.nodes.length [value]

/-- The first value that lies on a common circle with a value. -/
def leader (graph : DependencyGraph) (value : ValueId) : ValueId :=
  let below := graph.below value
  (graph.nodes.find? fun other =>
    below.contains other && (graph.below other).contains value).getD value

/-- The graph of circles, each standing for its values as its leader. -/
def condensed (graph : DependencyGraph) : DependencyGraph :=
  let leaders := graph.nodes.map fun value => (value, graph.leader value)
  let leader (value : ValueId) := (leaders.lookup value).getD value
  { nodes := graph.nodes.filter fun value => leader value == value
    edges := graph.edges.filterMap fun edge =>
      let source := leader edge.1
      let target := leader edge.2
      if source = target then none else some (source, target) }

/-- Settle, round by round, the values that depend on settled values only.
This gets stuck if values are left and none of them is ready. -/
def settles (graph : DependencyGraph) : Nat → List ValueId → List ValueId → Bool
  | 0, pending, _ => pending.isEmpty
  | rounds + 1, pending, settled =>
      if pending.isEmpty then true
      else
        let isReady (value : ValueId) := (graph.next value).all settled.contains
        let ready := pending.filter isReady
        if ready.isEmpty then false
        else
          settles graph rounds (pending.filter fun value => !isReady value)
            (ready ++ settled)

/-- Can every value be settled? -/
def isIndependent (graph : DependencyGraph) : Bool :=
  let condensed := graph.condensed
  condensed.settles condensed.nodes.length condensed.nodes []

end DependencyGraph

end FlowFacts
