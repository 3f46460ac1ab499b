/-
Editing a finished body.  Use lists and predecessors follow every edit; a
target that names no block is accepted here and met by whoever follows it.
-/
import FlowFacts.Body.Index

namespace FlowFacts

namespace Body

/-- Replace what an instruction does; it keeps the value it defines. -/
def replace (body : Body) (instr : InstrId) (opcode : Opcode) :
    Except Fault Body := do
  let old ← body.instruction instr
  match opcode.inputs.find? fun input => body.values.size ≤ input with
  | some input => throw (.noValue input)
  | none =>
      let dropped := changeAt (·.dropUser instr) old.opcode.inputs body.values
      return { body with
        values := changeAt (·.addUser instr) opcode.inputs dropped
        instructions := body.instructions.setIfInBounds instr { old with opcode }
        revision := body.revision + 1 }.refreshPredecessors

/-- Add a handler to a block, after those it has. -/
def addHandler (body : Body) (block : BlockId) (handler : Handler) :
    Except Fault Body := do
  let old ← body.block block
  return { body with
    blocks := body.blocks.setIfInBounds block
      { old with handlers := old.handlers ++ [handler] }
    revision := body.revision + 1 }.refreshPredecessors

end Body

end FlowFacts
