/-
The lists that a finished body keeps beside its values, instructions and
blocks: who reads a value, where an instruction stands, and which blocks lead
to a block.  They are filled once when a draft becomes a body, and every edit
brings up to date what it touches.
-/
import FlowFacts.Body.Basic

namespace FlowFacts

/-- Put a number at the end of a list that does not have it yet. -/
def noteOnce (numbers : List Nat) (number : Nat) : List Nat :=
  if numbers.contains number then numbers else numbers ++ [number]

namespace Value

def dropUser (value : Value) (instr : InstrId) : Value :=
  { value with users := value.users.filter (· != instr) }

def addUser (value : Value) (instr : InstrId) : Value :=
  { value with users := noteOnce value.users instr }

def addPhiUser (value : Value) (phi : ValueId) : Value :=
  { value with phiUsers := noteOnce value.phiUsers phi }

end Value

/-- Change the values at these places, one after another. -/
def changeAt (change : Value → Value) (places : List ValueId)
    (values : Array Value) : Array Value :=
  places.foldl (fun values place => values.modify place change) values

namespace Body

def operandsOf (body : Body) (value : ValueId) : List ValueId :=
  match body.values[value]? with
  | some decl => decl.definition.operands
  | none => []

/-- Note every instruction with the values it reads, and then every phi with
its operands. -/
def linkUsers (body : Body) : Body :=
  let read := (List.range body.instructions.size).foldl
    (fun values instr =>
      changeAt (·.addUser instr) (body.opcode instr).inputs values) body.values
  let merged := (List.range body.values.size).foldl
    (fun values phi =>
      changeAt (·.addPhiUser phi) (body.operandsOf phi) values) read
  { body with values := merged }

/-- Note the place of every instruction, block by block. -/
def notePositions (body : Body) : Body :=
  let places := body.blocks.toList.flatMap fun block =>
    block.instructions.zipIdx
  { body with
    positions := places.foldl
      (fun positions place => positions.setIfInBounds place.1 place.2)
      (Array.replicate body.instructions.size 0) }

/-- Forget all edges and note them again with their targets.  An edge to no
block is left out. -/
def refreshPredecessors (body : Body) : Body :=
  { body with
    incoming := (List.range body.blocks.size).foldl
      (fun incoming source => (body.successors source).foldl
        (fun incoming target => incoming.modify target (· ++ [source])) incoming)
      (Array.replicate body.blocks.size []) }

end Body

end FlowFacts
