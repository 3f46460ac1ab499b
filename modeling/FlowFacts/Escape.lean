/-
Through which instructions does a value leave its method?  Whatever the value
flows into is tracked as well: copies, phis, the arrays and objects it is
stored into, and elements read back out of them.
-/
import FlowFacts.Body.Value

namespace FlowFacts

/-- An escape of a value through an instruction. -/
structure EscapeRoute where
  value : ValueId
  instr : InstrId
deriving DecidableEq, Repr

namespace Body

/-- Does an instruction hand the values it reads to other code?  A call of the
method itself with its own arguments does not. -/
def letsEscape (body : Body) (instr : InstrId) : Bool :=
  match body.opcode instr with
  | .ret _ | .throw _ | .staticPut .. => true
  | .call _ method arguments =>
      method != body.method || arguments != body.arguments
  | .arrayPut array _ _ => (body.argument? array).isSome
  | _ => false

/-- The value that the operands of an instruction flow into. -/
def flowTarget? (body : Body) (instr : InstrId) : Option ValueId :=
  match body.opcode instr with
  | .refine _ | .move _ | .checkCast .. | .arrayGet .. => body.output? instr
  | .arrayPut array _ _ => some array
  | .instancePut _ object _ => some object
  | _ => none

/-- The users that read the value itself.  A user before the definition in the
same block reads what the value was in an earlier round of a loop. -/
def currentUsers (body : Body) (value : ValueId) : List InstrId :=
  match body.definition? value with
  | some definition =>
      (body.users value).filter fun user => !body.precedes user definition
  | none => body.users value

def escapingUsers (body : Body) (value : ValueId) : List InstrId :=
  (body.currentUsers value).filter body.letsEscape

def flowsInto (body : Body) (value : ValueId) : List ValueId :=
  body.phiUsers value ++
    ((body.currentUsers value).filter fun user => !body.letsEscape user).filterMap
      body.flowTarget?

/-- The values on the stack and all they flow into, the latest found first. -/
def trackedFrom (body : Body) :
    Nat → List ValueId → List ValueId → List ValueId
  | 0, _, _ => []
  | _ + 1, [], _ => []
  | steps + 1, value :: stack, seen =>
      let found := firstUnseen seen (body.flowsInto value)
      value :: trackedFrom body steps (found.reverse ++ stack) (seen ++ found)

/-- A value and all it flows into.  Every value is tracked at most once. -/
def tracked (body : Body) (value : ValueId) : List ValueId :=
  body.trackedFrom (body.values.size + 1) [value] [value]

/-- The ways in which a value escapes, in the order they are found. -/
def escapeRoutes (body : Body) (value : ValueId) :
    Except Fault (List EscapeRoute) := do
  let _ ← body.value value
  return (body.tracked value).flatMap fun value =>
    (body.escapingUsers value).map fun instr => { value, instr }

/-- The instructions through which a value escapes, in ascending order, when
some routes are declared harmless. -/
def escaping (body : Body) (harmless : EscapeRoute → Bool) (value : ValueId) :
    Except Fault (List InstrId) := do
  let routes := (← body.escapeRoutes value).filter fun route => !harmless route
  return (List.range body.instructions.size).filter fun instr =>
    routes.any fun route => route.instr == instr

def isEscaping (body : Body) (value : ValueId) : Except Fault Bool := do
  return !(← body.escaping (fun _ => false) value).isEmpty

end Body

end FlowFacts
