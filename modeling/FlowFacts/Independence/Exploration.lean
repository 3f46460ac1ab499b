/-
Do values depend on the environment?  All they were made from is explained,
the dependencies are settled, and what was made must stay as it was made.
-/
import FlowFacts.Independence.Explanation
import FlowFacts.Independence.Watch
import FlowFacts.Independence.Dependencies

namespace FlowFacts

/-- Values being explained. -/
structure Exploration where
  graph : DependencyGraph := {}
  consumed : List InstrId := []
  /-- Values whose content could still be changed. -/
  mutables : List ValueId := []
  /-- Values still to be explained, the latest first. -/
  pending : List ValueId := []
  seen : List ValueId := []
deriving DecidableEq, Repr

namespace Exploration

def enqueue (exploration : Exploration) (value : ValueId) : Exploration :=
  if exploration.seen.contains value then exploration
  else
    { exploration with
      pending := value :: exploration.pending
      seen := value :: exploration.seen }

/-- Note the explanation of a value, and put all it needs on the list. -/
def note (exploration : Exploration) (value : ValueId)
    (explanation : Explanation) : Exploration :=
  let start :=
    { exploration with
      graph := exploration.graph.addValue value
      consumed := exploration.consumed ++ explanation.consumed
      mutables :=
        if explanation.isMutable then exploration.mutables ++ [value]
        else exploration.mutables }
  explanation.needs.foldl
    (fun exploration need =>
      { exploration with graph := exploration.graph.addDependency value need }.enqueue
        need)
    start

end Exploration

namespace Body

/-- Explain pending values, the latest first.  The result is missing if some
value has no explanation. -/
def explore (body : Body) (program : Program) :
    Nat → Exploration → Except Fault (Option Exploration)
  | 0, _ => .ok none
  | steps + 1, exploration =>
      match exploration.pending with
      | [] => .ok (some exploration)
      | value :: pending => do
          match ← body.explain program value with
          | none => return none
          | some explanation =>
              explore body program steps
                ({ exploration with pending }.note value explanation)

/-- May one of the values depend on the environment, or be modified before the
method returns?  Every value is explained at most once. -/
def mayDependOnEnvironment (body : Body) (program : Program)
    (values : List ValueId) : Except Fault Bool := do
  let start := values.foldl Exploration.enqueue {}
  match ← body.explore program (body.values.size + values.length + 1) start with
  | none => return true
  | some exploration =>
      if !exploration.graph.isIndependent then return true
      else
        exploration.mutables.anyM
          (body.mayBeModified program exploration.consumed)

end Body

end FlowFacts
