/-
Method bodies in static single assignment form.  Values, instructions and
blocks are numbered and refer to each other by number.
-/
import FlowFacts.Closure
import FlowFacts.Type.Static
import FlowFacts.Body.Opcode

namespace FlowFacts

/-- Where a value comes from. -/
inductive Definition
  | instruction (instr : InstrId)
  /-- Chosen at the head of a block among these operands. -/
  | phi (block : BlockId) (operands : List ValueId)
deriving DecidableEq, Repr

/-- A value with its type and its origin. -/
structure ValueDecl where
  type : StaticType
  definition : Definition
deriving DecidableEq, Repr

/-- A value of a finished body, with the instructions that read it and the
phis that have it among their operands. -/
structure Value extends ValueDecl where
  users : List InstrId := []
  phiUsers : List ValueId := []
deriving DecidableEq, Repr

/-- An instruction, its block, and the value it defines. -/
structure Instruction where
  block : BlockId
  opcode : Opcode
  output : Option ValueId
deriving DecidableEq, Repr

/-- Control continues at `target` when something that the guard admits is
thrown; no guard admits everything. -/
structure Handler where
  guard : Option TypeId
  target : BlockId
deriving DecidableEq, Repr

/-- A block: phis, instructions in order, and handlers. -/
structure Block where
  instructions : List InstrId := []
  phis : List ValueId := []
  handlers : List Handler := []
deriving DecidableEq, Repr

/-- The body of a method. -/
structure Body where
  method : MethodId
  isStatic : Bool
  values : Array Value
  instructions : Array Instruction
  blocks : Array Block
  /-- The place of every instruction within its block. -/
  positions : Array Nat
  /-- The blocks that lead to a block, for every block. -/
  incoming : Array (List BlockId)
  /-- How often the body has been edited. -/
  revision : Nat := 0
deriving DecidableEq, Repr

/-- The block in which every body starts. -/
def Body.entry : BlockId := 0

namespace Definition

/-- The defining instruction; a phi has none. -/
def instruction? : Definition → Option InstrId
  | instruction instr => some instr
  | phi _ _ => none

def operands : Definition → List ValueId
  | instruction _ => []
  | phi _ operands => operands

def isPhi : Definition → Bool
  | instruction _ => false
  | phi _ _ => true

end Definition

namespace Body

def instruction (body : Body) (instr : InstrId) : Except Fault Instruction :=
  match body.instructions[instr]? with
  | some instruction => .ok instruction
  | none => .error (.noInstruction instr)

def block (body : Body) (block : BlockId) : Except Fault Block :=
  match body.blocks[block]? with
  | some block => .ok block
  | none => .error (.noBlock block)

def value (body : Body) (value : ValueId) : Except Fault Value :=
  match body.values[value]? with
  | some value => .ok value
  | none => .error (.noValue value)

/-- What an instruction does; a number that names none does nothing. -/
def opcode (body : Body) (instr : InstrId) : Opcode :=
  match body.instructions[instr]? with
  | some instruction => instruction.opcode
  | none => .position

def output? (body : Body) (instr : InstrId) : Option ValueId :=
  body.instructions[instr]?.bind Instruction.output

def blockOf (body : Body) (instr : InstrId) : BlockId :=
  match body.instructions[instr]? with
  | some instruction => instruction.block
  | none => Body.entry

def typeOf (body : Body) (value : ValueId) : StaticType :=
  match body.values[value]? with
  | some value => value.type
  | none => .bottom

def isNonNull (body : Body) (value : ValueId) : Bool :=
  (body.typeOf value).isNonNull

/-- The instructions that read a value. -/
def users (body : Body) (value : ValueId) : List InstrId :=
  match body.values[value]? with
  | some value => value.users
  | none => []

/-- The phis that have a value among their operands. -/
def phiUsers (body : Body) (value : ValueId) : List ValueId :=
  match body.values[value]? with
  | some value => value.phiUsers
  | none => []

def definition? (body : Body) (value : ValueId) : Option InstrId :=
  body.values[value]?.bind fun value => value.definition.instruction?

def definingOpcode? (body : Body) (value : ValueId) : Option Opcode :=
  (body.definition? value).map body.opcode

def instructionsOf (body : Body) (block : BlockId) : List InstrId :=
  match body.blocks[block]? with
  | some block => block.instructions
  | none => []

def handlersOf (body : Body) (block : BlockId) : List Handler :=
  match body.blocks[block]? with
  | some block => block.handlers
  | none => []

def hasHandlers (body : Body) (block : BlockId) : Bool :=
  !(body.handlersOf block).isEmpty

def allInstructions (body : Body) : List InstrId :=
  body.blocks.toList.flatMap Block.instructions

/-- The place of an instruction within its block. -/
def position (body : Body) (instr : InstrId) : Nat :=
  body.positions.getD instr 0

def before (body : Body) (instr : InstrId) : List InstrId :=
  (body.instructionsOf (body.blockOf instr)).takeWhile (· != instr)

def after (body : Body) (instr : InstrId) : List InstrId :=
  (body.instructionsOf (body.blockOf instr)).drop (body.position instr + 1)

/-- Does one instruction stand before another in the same block? -/
def precedes (body : Body) (first second : InstrId) : Bool :=
  body.blockOf first == body.blockOf second &&
    body.position first < body.position second

/-- Which of two instructions of one block comes first? -/
def isBefore (body : Body) (first second : InstrId) : Except Fault Bool := do
  let a ← body.instruction first
  let b ← body.instruction second
  if a.block = b.block then return body.precedes first second
  else throw (.differentBlocks first second)

def lastOf? (body : Body) (block : BlockId) : Option InstrId :=
  (body.instructionsOf block).getLast?

/-- The blocks that follow a block without an exception. -/
def normalSuccessors (body : Body) (block : BlockId) : List BlockId :=
  match body.lastOf? block with
  | some instr => (body.opcode instr).targets
  | none => []

/-- The blocks that follow a block, each once: normal ones, then handlers. -/
def successors (body : Body) (block : BlockId) : List BlockId :=
  let normal := body.normalSuccessors block
  normal ++ firstUnseen normal ((body.handlersOf block).map Handler.target)

/-- The blocks that a block follows. -/
def predecessors (body : Body) (block : BlockId) : List BlockId :=
  body.incoming.getD block []

/-- The first instruction through which a block with handlers can throw. -/
def throwing? (body : Body) (block : BlockId) : Option InstrId :=
  if body.hasHandlers block then
    (body.instructionsOf block).find? fun instr => (body.opcode instr).canThrow
  else none

def returnBlocks (body : Body) : List BlockId :=
  (List.range body.blocks.size).filter fun block =>
    (body.lastOf? block).any fun instr => (body.opcode instr).isReturn

/-- Does no block have more than one successor? -/
def isStraightLine (body : Body) : Bool :=
  (List.range body.blocks.size).all fun block =>
    (body.successors block).length ≤ 1

end Body

end FlowFacts
