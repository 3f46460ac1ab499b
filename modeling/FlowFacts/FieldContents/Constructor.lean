/-
What a constructor stores into the fields of the new object.  A field that is
filled by the constructor it forwards to counts as written by the call.
-/
import FlowFacts.Body.Knowledge
import FlowFacts.Fact.Findings
import FlowFacts.FieldContents.Visibility

namespace FlowFacts

/-- One write of a field of the receiver. -/
inductive ReceiverWrite
  | put (instr : InstrId) (value : ValueId)
  /-- Made by another constructor of the class, called on the receiver. -/
  | forwarded (origin : FieldOrigin)
deriving DecidableEq

/-- A constructor under analysis. -/
structure ConstructorBody where
  program : Program
  body : Body
  holder : TypeId

namespace ConstructorBody

def isOwnField (init : ConstructorBody) (field : FieldId) :
    Except Fault Bool := do
  let definition ← init.program.field field
  return !definition.traits.isStatic && definition.holder == init.holder

/-- A value as the origin of a field: an argument other than the receiver, or
the only value it can be. -/
def originOf (init : ConstructorBody) (value : ValueId) :
    Except Fault FieldOrigin := do
  let known : Except Fault FieldOrigin := do
    match ← init.body.knowledge init.program value with
    | .exactly value => return .value value
    | _ => return .unknown
  match init.body.argument? value with
  | some index =>
      if init.body.isReceiver value then known else return .argument index
  | none => known

/-- An origin in the called constructor, seen from the calling one. -/
def forwardedOrigin (init : ConstructorBody) (arguments : List ValueId)
    (origin : FieldOrigin) : Except Fault FieldOrigin :=
  match origin with
  | .argument index =>
      match arguments[index]? with
      | some argument => init.originOf argument
      | none => .ok .unknown
  | other => .ok other

/-- The writes that a constructor call on the receiver makes. -/
def forwardedWrites (init : ConstructorBody) (constructor : MethodDecl)
    (arguments : List ValueId) : Except Fault (List (FieldId × ReceiverWrite)) := do
  if arguments.head?.any init.body.isReceiver &&
      constructor.holder == init.holder then
    match constructor.facts.constructs with
    | none => return []
    | some summary =>
        summary.origins.entries.filterMapM fun (field, origin) => do
          if ← init.isOwnField field then
            let origin ← init.forwardedOrigin arguments origin
            return some (field, .forwarded origin)
          else return none
  else return []

def writesOf (init : ConstructorBody) (instr : InstrId) :
    Except Fault (List (FieldId × ReceiverWrite)) := do
  match init.body.opcode instr with
  | .instancePut field object value =>
      if init.body.isReceiver object then
        if ← init.isOwnField field then return [(field, .put instr value)]
        else return []
      else return []
  | .call .direct method arguments =>
      let constructor ← init.program.method method
      if constructor.traits.isConstructor then
        init.forwardedWrites constructor arguments
      else return []
  | _ => return []

/-- All writes of fields of the receiver, in the order of the instructions. -/
def writes (init : ConstructorBody) :
    Except Fault (Table (List ReceiverWrite)) :=
  init.body.allInstructions.foldlM
    (fun writes instr => do
      return (← init.writesOf instr).foldl
        (fun writes (field, write) => writes.alter field [] (· ++ [write]))
        writes)
    .empty

/-- Note the origin of a field from its only write on.  The field must not be
written outside constructors. -/
def notePut (init : ConstructorBody) (origins : Origins) (field : FieldId)
    (value : ValueId) : Except Fault Origins := do
  let definition ← init.program.field field
  if definition.traits.isFinal || definition.isFilledByConstructors then
    let origin ← init.originOf value
    if !origin.isUnknown then return origins.set field origin
    else if init.program.isReference definition.type then
      let root := init.body.root value
      let lower := init.body.exactClass? root
      let upper := init.body.typeOf root
      let declared := init.program.staticType definition.type .maybe
      if lower.isSome || upper.lt init.program declared then
        return origins.set field (.typed lower upper)
      else return origins
    else return origins
  else return origins

/-- Note what the writes of a field tell. -/
def noteWrites (init : ConstructorBody) (origins : Origins)
    (field : FieldId) (writes : List ReceiverWrite) : Except Fault Origins := do
  match writes with
  | [.forwarded origin] => return origins.set field origin
  | [.put instr value] =>
      -- A read before the write sees zero.
      let sameBefore := init.body.isZero value
      match ← init.body.visibility init.program field instr sameBefore with
      | .exact => init.notePut origins field value
      | _ => return origins
  | _ => return origins

def origins (init : ConstructorBody) : Except Fault Origins := do
  let writes ← init.writes
  writes.entries.foldlM
    (fun origins (field, writes) => init.noteWrites origins field writes)
    Table.empty

end ConstructorBody

/-- Find and note what a body stores into fields of its receiver, if it is a
constructor. -/
def Body.noteConstructor (body : Body) (program : Program)
    (findings : Findings) : Except Fault (Origins × Findings) := do
  let definition ← program.method body.method
  if definition.traits.isConstructor && !body.isStatic then
    let origins ← ConstructorBody.origins
      { program, body, holder := definition.holder }
    return (origins, findings.noteOrigins body.method origins)
  else return (Table.empty, findings)

end FlowFacts
