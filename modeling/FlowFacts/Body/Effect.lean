/-
What an instruction may do besides computing its value: throw, or be observed
by other code.  Both answers err on the careful side.
-/
import FlowFacts.Body.Value
import FlowFacts.Program.Usage

namespace FlowFacts

/-- What an instruction may throw. -/
inductive Thrown
  | nothing
  /-- Instances of these types only. -/
  | instances (types : List TypeId)
  | anything
deriving DecidableEq, Repr

/-- Could a handler with this guard catch something that is thrown? -/
def Thrown.mayBeCaughtBy (program : Program) (thrown : Thrown)
    (guard : TypeId) : Bool :=
  match thrown with
  | nothing => false
  | anything => true
  | instances types =>
      types.any fun type =>
        program.isSubtype type guard || program.isSubtype guard type

def Opcode.thrown (opcode : Opcode) : Thrown :=
  if !opcode.canThrow then .nothing
  else
    match opcode with
    | .binary .. => .instances [WellKnown.arithmeticException]
    | .checkCast .. => .instances [WellKnown.classCastException]
    | .instanceGet .. | .instancePut .. | .arrayLength _ | .fillArray .. =>
        .instances [WellKnown.nullPointerException]
    | .arrayGet .. =>
        .instances [WellKnown.nullPointerException, WellKnown.arrayIndexException]
    | .arrayPut .. =>
        .instances [WellKnown.nullPointerException, WellKnown.arrayIndexException,
          WellKnown.arrayStoreException]
    | .newArray .. => .instances [WellKnown.negativeArraySizeException]
    | .classObject _ | .staticGet _ | .staticPut .. | .newInstance _
    | .filledArray .. | .initClass _ => .instances [WellKnown.error]
    | _ => .anything

/-- The method that a call arrives at, if it is known. -/
def Program.callee? (program : Program) (kind : CallKind) (method : MethodId) :
    Option MethodId :=
  if kind.isDynamic then program.target? method else some method

namespace Body

/-- Can initializing a class be observed while the body runs? -/
def startsObservably (body : Body) (program : Program) (type : TypeId) :
    Except Fault Bool :=
  program.initializationHasEffects type (some body.method)

/-- Could executing an instruction be observed by anything but its output? -/
def hasEffect (body : Body) (program : Program) (instr : InstrId) :
    Except Fault Bool := do
  match body.opcode instr with
  | .argument _ | .number _ | .null | .text _ | .refine _ | .move _
  | .position | .goto _ | .branch .. | .ret _ | .filledArray .. =>
      return false
  | .binary operator _ right =>
      return operator.canThrow && (body.number? right).all (· == 0)
  | .classObject type =>
      return (program.classDecl? type).isNone
  | .newInstance type | .initClass type =>
      if (program.classDecl? type).isNone then return true
      else body.startsObservably program type
  | .staticGet field =>
      body.startsObservably program (← program.field field).holder
  | .instanceGet _ object => return !body.isNonNull object
  | .arrayLength array => return !body.isNonNull array
  | .newArray _ size =>
      return (body.number? size).all (· < 0)
  | .call kind method arguments =>
      if kind.hasReceiver && !arguments.head?.any body.isNonNull then
        return true
      else
        match program.callee? kind method with
        | none => return true
        | some target =>
            let definition ← program.method target
            let starts ←
              if kind == .static then
                body.startsObservably program definition.holder
              else pure false
            return starts || definition.facts.hasEffects
  | .checkCast .. | .staticPut .. | .instancePut .. | .arrayGet ..
  | .arrayPut .. | .fillArray .. | .throw _ =>
      return true

end Body

end FlowFacts
