/-
Values computed from constants alone.  A value is explained by the rule that
makes it independent of arguments and of the heap, given that the values it
was made from are independent too.
-/
import FlowFacts.Body.Effect
import FlowFacts.Body.Knowledge

namespace FlowFacts

/-- Why a value is independent. -/
structure Explanation where
  /-- The values it was made from. -/
  needs : List ValueId := []
  /-- The instructions that took part in making it. -/
  consumed : List InstrId := []
  /-- Its content could still be changed later. -/
  isMutable : Bool := false
deriving DecidableEq, Repr

namespace Body

/-- Is a value a constant, or a constant of an enum? -/
def isKnownConstant (body : Body) (program : Program) (value : ValueId) :
    Except Fault Bool := do
  if body.isConstant value then return true
  else
    match ← body.knowledge program value with
    | .exactly (.held field _) => return (← program.field field).traits.isEnum
    | .exactly _ => return true
    | _ => return false

/-- The stores that fill an array of known length right after its allocation.
A store outside the array spoils it; any other instruction that can be
observed ends the filling. -/
def arrayFilling (body : Body) (program : Program) (array : ValueId)
    (length : Int) : List InstrId → Explanation →
      Except Fault (Option Explanation)
  | [], explanation => .ok (some explanation)
  | instr :: rest, explanation => do
      let other : Except Fault (Option Explanation) := do
        if ← body.hasEffect program instr then return some explanation
        else arrayFilling body program array length rest explanation
      match body.opcode instr with
      | .arrayPut target index value =>
          if body.root target = array then
            if (body.number? index).any fun i => 0 ≤ i && i < length then
              arrayFilling body program array length rest
                { explanation with
                  needs := explanation.needs ++ [value]
                  consumed := explanation.consumed ++ [instr] }
            else return none
          else other
      | .fillArray target _ =>
          if body.root target = array then
            arrayFilling body program array length rest
              { explanation with consumed := explanation.consumed ++ [instr] }
          else other
      | _ => other

/-- An array of known length, filled right after its allocation. -/
def explainArray (body : Body) (program : Program) (array : ValueId)
    (definition : InstrId) (opcode : Opcode) :
    Except Fault (Option Explanation) :=
  match opcode with
  | .newArray _ size =>
      match body.number? size with
      | some length =>
          if 0 ≤ length then
            body.arrayFilling program array length (body.after definition)
              { isMutable := true }
          else .ok none
      | none => .ok none
  | .filledArray _ elements =>
      body.arrayFilling program array elements.length (body.after definition)
        { needs := elements, isMutable := true }
  | _ => .ok none

/-- Does a call ask a class of the program, named by a constant, whether its
assertions are wanted? -/
def asksAssertionStatus (body : Body) (program : Program) (opcode : Opcode) :
    Bool :=
  match opcode with
  | .call .virtual method (receiver :: _) =>
      method == WellKnown.desiredAssertionStatus &&
        match body.rootOpcode? receiver with
        | some (.classObject type) =>
            ((program.classDecl? type).any fun definition =>
              !definition.traits.isLibrary) && !program.isPinnedClass type
        | _ => false
  | _ => false

/-- An object of a class of the program, built by a constructor that only
fills fields. -/
def explainObject (body : Body) (program : Program) (object : ValueId)
    (definition : InstrId) (type : TypeId) :
    Except Fault (Option Explanation) := do
  match program.classDecl? type with
  | none => return none
  | some classDef =>
      if classDef.traits.isLibrary then return none
      else if ← body.startsObservably program type then return none
      else
        match ← body.soleConstructorCall? program object with
        | some call =>
            let isTrivial := call.constructor.facts.constructs.any
              ConstructorSummary.isTrivial
            if body.blockOf call.instr = body.blockOf definition && isTrivial then
              let fields ← program.instanceFields type
              let isMutable := fields.any fun field =>
                (program.fields[field]?).any fun field => !field.traits.isFinal
              return some
                { needs := call.arguments.tail
                  consumed := [call.instr]
                  isMutable }
            else return none
        | none => return none

/-- Explain a value that is no copy by the instruction that defines it. -/
def explainDefined (body : Body) (program : Program) (value : ValueId) :
    Except Fault (Option Explanation) := do
  match body.definition? value with
  | none => return none
  | some definition =>
      match body.opcode definition with
      | .newInstance type => body.explainObject program value definition type
      | .binary operator left right =>
          if operator.isLogical then return some { needs := [left, right] }
          else return none
      | opcode =>
          if body.asksAssertionStatus program opcode then return some {}
          else body.explainArray program value definition opcode

/-- Explain a value: as a copy, as a constant, or by its definition. -/
def explain (body : Body) (program : Program) (value : ValueId) :
    Except Fault (Option Explanation) := do
  let _ ← body.value value
  let root := body.root value
  if root ≠ value then return some { needs := [root] }
  else if ← body.isKnownConstant program value then return some {}
  else body.explainDefined program value

end Body

end FlowFacts
