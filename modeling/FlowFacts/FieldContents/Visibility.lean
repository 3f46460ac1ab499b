/-
Who sees the only write of a field: every normal exit, and no read before it?
-/
import FlowFacts.FieldContents.Reads
import FlowFacts.Flow.Dominators

namespace FlowFacts

/-- How the only write of a field relates to the rest of the body. -/
inductive Visibility
  /-- Every normal exit sees the value written, and so does every read. -/
  | exact
  /-- Every normal exit sees it, but a read may come before the write. -/
  | afterRead
  /-- Some normal exit may be reached without the write. -/
  | partially
deriving DecidableEq, Repr

namespace Body

/-- Does every way to a normal exit pass the block of an instruction? -/
def reachesAllExits (body : Body) (instr : InstrId) : Except Fault Bool := do
  if body.isStraightLine then return true
  else
    let tree ← body.dominators
    tree.dominatesAll (body.blockOf instr) body.returnBlocks

/-- Classify the only write of a field.  If the value written is the value
held before, earlier reads make no difference. -/
def visibility (body : Body) (program : Program) (field : FieldId)
    (write : InstrId) (sameBefore : Bool) : Except Fault Visibility := do
  if !(← body.reachesAllExits write) then return .partially
  else if sameBefore then return .exact
  else if ← body.mayBeReadBefore program field write then return .afterRead
  else return .exact

end Body

end FlowFacts
