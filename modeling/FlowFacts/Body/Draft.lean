/-
Drafting a method body command by command.  A finished draft is checked as a
whole; what passes becomes a body with all its lists filled in.
-/
import FlowFacts.Body.Index
import FlowFacts.Body.Value
import FlowFacts.Program.Basic

namespace FlowFacts

/-- Why a draft is no body. -/
inductive DraftError
  | empty
  | missingTerminator (block : BlockId)
  | misplacedTerminator (block : BlockId) (instr : InstrId)
  | danglingTarget (block target : BlockId)
  | severalThrowing (block : BlockId)
  | undefinedValue (value : ValueId)
deriving DecidableEq, Repr

def DraftError.message : DraftError → String
  | empty => "method has no blocks"
  | missingTerminator block =>
      s!"block BlockId({block}) does not end in a terminator"
  | misplacedTerminator block instr =>
      s!"terminator InstrId({instr}) is not the last instruction of block BlockId({block})"
  | danglingTarget block target =>
      s!"block BlockId({block}) targets nonexistent block BlockId({target})"
  | severalThrowing block =>
      s!"block BlockId({block}) has catch handlers and more than one throwing instruction"
  | undefinedValue value =>
      s!"value ValueId({value}) is used but never defined"

/-- A body under construction. -/
structure Draft where
  method : MethodId
  isStatic : Bool
  values : Array ValueDecl := #[]
  instructions : Array Instruction := #[]
  blocks : Array Block := #[]
deriving DecidableEq, Repr

namespace Draft

/-- The steps in which a draft is written. -/
inductive Command
  | block
  | push (block : BlockId) (opcode : Opcode)
  /-- Push an instruction that defines a value. -/
  | value (block : BlockId) (opcode : Opcode) (type : StaticType)
  | phi (block : BlockId) (type : StaticType)
  | operands (phi : ValueId) (operands : List ValueId)
  | handler (block : BlockId) (handler : Handler)
deriving DecidableEq, Repr

def ofMethod (program : Program) (method : MethodId) : Except Fault Draft := do
  let definition ← program.method method
  return { method, isStatic := definition.traits.isStatic }

def updateBlock (draft : Draft) (block : BlockId) (change : Block → Block) :
    Except Fault Draft :=
  if block < draft.blocks.size then
    .ok { draft with blocks := draft.blocks.modify block change }
  else .error (.noBlock block)

def append (draft : Draft) (block : BlockId) (opcode : Opcode)
    (output : Option ValueId) : Except Fault Draft :=
  let instr := draft.instructions.size
  { draft with
    instructions := draft.instructions.push { block, opcode, output } }.updateBlock
      block fun content =>
        { content with instructions := content.instructions ++ [instr] }

/-- Carry out one command.  Commands that create something give its number. -/
def step (draft : Draft) : Command → Except Fault (Option Nat × Draft)
  | .block =>
      .ok (some draft.blocks.size,
        { draft with blocks := draft.blocks.push {} })
  | .push block opcode => do
      let next ← draft.append block opcode none
      return (some draft.instructions.size, next)
  | .value block opcode type => do
      let value := draft.values.size
      let definition := Definition.instruction draft.instructions.size
      let next ← draft.append block opcode (some value)
      return (some value,
        { next with values := next.values.push { type, definition } })
  | .phi block type => do
      let value := draft.values.size
      let next ← draft.updateBlock block fun content =>
        { content with phis := content.phis ++ [value] }
      return (some value,
        { next with
          values := next.values.push { type, definition := .phi block [] } })
  | .operands phi operands =>
      match draft.values[phi]? with
      | none => .error (.noValue phi)
      | some decl =>
          match decl.definition with
          | .instruction _ => .error (.notPhi phi)
          | .phi block _ =>
              .ok (none,
                { draft with
                  values := draft.values.setIfInBounds phi
                    { decl with definition := .phi block operands } })
  | .handler block handler => do
      let next ← draft.updateBlock block fun content =>
        { content with handlers := content.handlers ++ [handler] }
      return (none, next)

/-- Carry out commands in order, collecting what each gives. -/
def run (draft : Draft) : List Command → Except Fault (List (Option Nat) × Draft)
  | [] => .ok ([], draft)
  | command :: rest => do
      let (given, draft) ← draft.step command
      let (more, draft) ← draft.run rest
      return (given :: more, draft)

def opcode (draft : Draft) (instr : InstrId) : Opcode :=
  match draft.instructions[instr]? with
  | some instruction => instruction.opcode
  | none => .position

/-- The first thing that is wrong with a block: its end, an earlier end, a
target, or two instructions that could both enter its handlers. -/
def blockError? (draft : Draft) (block : BlockId) : Option DraftError :=
  let content := draft.blocks.getD block {}
  match content.instructions.getLast? with
  | none => some (.missingTerminator block)
  | some last =>
      if !(draft.opcode last).isTerminator then
        some (.missingTerminator block)
      else
        match content.instructions.dropLast.find? fun instr =>
            (draft.opcode instr).isTerminator with
        | some instr => some (.misplacedTerminator block instr)
        | none =>
            let targets := (draft.opcode last).targets ++
              content.handlers.map Handler.target
            match targets.find? fun target => draft.blocks.size ≤ target with
            | some target => some (.danglingTarget block target)
            | none =>
                let throwing := content.instructions.filter fun instr =>
                  (draft.opcode instr).canThrow
                if !content.handlers.isEmpty && 1 < throwing.length then
                  some (.severalThrowing block)
                else none

/-- The first value among these that the draft does not define. -/
def undefined? (draft : Draft) (values : List ValueId) : Option DraftError :=
  (values.find? fun value => draft.values.size ≤ value).map .undefinedValue

/-- The first thing that is wrong with the draft. -/
def error? (draft : Draft) : Option DraftError :=
  if draft.blocks.isEmpty then some .empty
  else
    (List.range draft.blocks.size).findSome? draft.blockError?
    <|> draft.instructions.toList.findSome? (fun instruction =>
          draft.undefined? instruction.opcode.inputs)
    <|> draft.values.toList.findSome? (fun decl =>
          draft.undefined? decl.definition.operands)

/-- The body that a draft describes, before its lists are filled in. -/
def parts (draft : Draft) : Body where
  method := draft.method
  isStatic := draft.isStatic
  values := draft.values.map fun decl => { decl with }
  instructions := draft.instructions
  blocks := draft.blocks
  positions := #[]
  incoming := #[]

def toBody (draft : Draft) : Body :=
  draft.parts.notePositions.linkUsers.refreshPredecessors

/-- Check the draft and make it a body. -/
def build (draft : Draft) : Except DraftError Body :=
  match draft.error? with
  | some error => .error error
  | none => .ok draft.toBody

end Draft

end FlowFacts
