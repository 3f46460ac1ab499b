/-
What a class initializer leaves in the static fields of its class.  A field
qualifies if nothing else writes it, it is written once, and the write is seen
by every normal exit.
-/
import FlowFacts.Body.Knowledge
import FlowFacts.Fact.Findings
import FlowFacts.FieldContents.Visibility

namespace FlowFacts

def enumValuesName : String := "$VALUES"

/-- The greatest number of slots that a table can have, at 40 bytes a slot. -/
def maxSlots : Nat := 9223372036854775807 / 40

/-- A class initializer under analysis. -/
structure ClassInitializer where
  program : Program
  body : Body
  holder : TypeId
  /-- Contents that fields have from the start, without a write. -/
  defaults : Table KnownValue

namespace ClassInitializer

def isEnum (init : ClassInitializer) : Bool :=
  (init.program.classDecl? init.holder).any fun definition =>
    definition.traits.isEnum

/-- May the analysis speak about a field?  Enum constants qualify even if they
are pinned. -/
def isEligible (init : ClassInitializer) (field : FieldId) :
    Except Fault Bool := do
  let definition ← init.program.field field
  return definition.traits.isStatic && definition.holder == init.holder &&
    (definition.isWrittenOnlyIn init.body.method ||
      (definition.traits.isEnum && init.isEnum &&
        definition.writtenOnlyIn == some init.body.method))

def writes (init : ClassInitializer) :
    Except Fault (Table (List (InstrId × ValueId))) :=
  init.body.allInstructions.foldlM
    (fun writes instr => do
      match init.body.opcode instr with
      | .staticPut field value =>
          if ← init.isEligible field then
            return writes.alter field [] (· ++ [(instr, value)])
          else return writes
      | _ => return writes)
    .empty

/-- What is known about a field that a constructor fills, at one of its
calls. -/
def knowledgeOfOrigin (init : ClassInitializer) (arguments : List ValueId)
    (origin : FieldOrigin) : Except Fault Knowledge :=
  match origin with
  | .argument index =>
      match arguments[index]? with
      | some argument => init.body.knowledge init.program argument
      | none => .ok .unknown
  | .value value => .ok (.exactly value)
  | .unknown | .typed .. => .ok .unknown

/-- The fields of a new object, as far as its constructor tells. -/
def shapeOf (init : ClassInitializer) (object : ValueId) :
    Except Fault Shape := do
  match init.body.definingOpcode? object with
  | some (.newInstance _) =>
      match ← init.body.soleConstructorCall? init.program object with
      | none => return .blank
      | some call =>
          match call.constructor.facts.constructs with
          | none => return .blank
          | some summary =>
              let entries ← summary.origins.entries.filterMapM
                fun (field, origin) => do
                  if (← init.program.field field).isFilledByConstructors then
                    let known ← init.knowledgeOfOrigin call.arguments origin
                    if known.isUnknown then return none
                    else return some (field, known)
                  else return none
              return .ofEntries entries
  | _ => return .blank

/-- Is the class of a new enum constant the enum or a direct subclass? -/
def isConstantClass (init : ClassInitializer) (type : TypeId) : Bool :=
  type == init.holder || init.program.parent? type == some init.holder

/-- The enum field that an object is stored into, the one found so far
included.  The object may otherwise only be constructed and put into new
arrays; nothing is found if it is used in any other way. -/
def constantField? (init : ClassInitializer) (object : ValueId) :
    Option FieldId → List InstrId → Except Fault (Option FieldId)
  | found, [] => .ok found
  | found, user :: rest => do
      match init.body.opcode user with
      | .arrayPut array index value =>
          let isNewArray :=
            match init.body.rootOpcode? array with
            | some (.newArray ..) => true
            | _ => false
          if value = object && array ≠ object && index ≠ object && isNewArray then
            constantField? init object found rest
          else return none
      | .call .direct method arguments =>
          let constructor ← init.program.method method
          if constructor.traits.isConstructor &&
              arguments.head? = some object &&
              !arguments.tail.contains object then
            constantField? init object found rest
          else return none
      | .staticPut field _ =>
          let definition ← init.program.field field
          if definition.holder == init.holder && definition.traits.isEnum then
            match found with
            | some _ => return none
            | none => constantField? init object (some field) rest
          else constantField? init object found rest
      | _ => return none

def enumConstant? (init : ClassInitializer) (object : ValueId) :
    Except Fault (Option KnownValue) := do
  match init.body.definingOpcode? object with
  | some (.newInstance type) =>
      if init.isConstantClass type && (init.body.phiUsers object).isEmpty then
        match ← init.constantField? object none (init.body.users object) with
        | some field => return some (.held field (← init.shapeOf object))
        | none => return none
      else return none
  | _ => return none

/-- The enum constant that a value refers to: a new object, or a read of the
field that holds one. -/
def constantBehind? (init : ClassInitializer) (value : ValueId) :
    Except Fault (Option KnownValue) := do
  match init.body.rootOpcode? value with
  | some (.newInstance _) => init.enumConstant? (init.body.root value)
  | some (.staticGet field) =>
      if (← init.program.field field).traits.isEnum then
        init.body.allInstructions.findSomeM? fun instr =>
          match init.body.opcode instr with
          | .staticPut written value =>
              if written = field then
                init.enumConstant? (init.body.root value)
              else pure none
          | _ => pure none
      else return none
  | _ => return none

/-- The slots that the users of an array fill, each with one enum constant.
Nothing is found if the array is used in any other way than to be filled and
to be stored into its field. -/
def slots? (init : ClassInitializer) (field : FieldId) (array : ValueId)
    (length : Nat) : List InstrId → Table KnownValue →
      Except Fault (Option (Table KnownValue))
  | [], slots => .ok (some slots)
  | user :: rest, slots => do
      match init.body.opcode user with
      | .arrayPut target index value =>
          match init.body.number? index with
          | some (.ofNat slot) =>
              if target = array && value ≠ array && slot < length &&
                  !slots.contains slot then
                match ← init.constantBehind? value with
                | some constant =>
                    slots? init field array length rest
                      (slots.insert slot constant)
                | none => return none
              else return none
          | _ => return none
      | .staticPut target _ =>
          if target = field then slots? init field array length rest slots
          else return none
      | _ => return none

/-- The content of the field that lists the constants of the enum, if every
slot of its array is known. -/
def enumValues? (init : ClassInitializer) (field : FieldId)
    (array : ValueId) : Except Fault (Option KnownValue) := do
  let definition ← init.program.field field
  if definition.name = enumValuesName &&
      init.program.element? definition.type = some init.holder then
    match init.body.definingOpcode? array with
    | some (.newArray _ size) =>
        match init.body.number? size with
        | some (.ofNat length) =>
            if maxSlots < length then throw (.tableTooLong length)
            else
              match ← init.slots? field array length
                  (init.body.users array) .empty with
              | some slots =>
                  if slots.size = length then
                    return some (.held field
                      (.constants (slots.entries.map Prod.snd)))
                  else return none
              | none => return none
        | _ => return none
    | _ => return none
  else return none

/-- What is known about the value that a field is set to. -/
def knowledgeOf (init : ClassInitializer) (field : FieldId)
    (root : ValueId) : Except Fault Knowledge := do
  let ordinary := init.body.knowledge init.program root
  if init.isEnum then
    match ← init.enumValues? field root with
    | some values => return .exactly values
    | none =>
        match ← init.enumConstant? root with
        | some constant => return .exactly constant
        | none => ordinary
  else ordinary

/-- Note the content that a field gets from its only write on. -/
def noteContent (init : ClassInitializer) (findings : Findings)
    (field : FieldId) (type : TypeId) (root : ValueId) :
    Except Fault Findings := do
  let known ← init.knowledgeOf field root
  if known.isUnknown then
    if init.program.isReference type then
      let shape ← init.shapeOf root
      return findings.noteKnowledge field (.exactly (.held field shape))
    else return findings
  else return findings.noteKnowledge field known

/-- Note the types of what a field holds from its only write on. -/
def noteTypes (init : ClassInitializer) (findings : Findings)
    (field : FieldId) (type : TypeId) (root : ValueId) :
    Except Fault Findings :=
  let upper := init.body.typeOf root
  let findings :=
    if upper.lt init.program (init.program.staticType type .maybe) then
      findings.noteUpper field upper
    else findings
  match init.body.exactClass? root with
  | none => .ok findings
  | some lower =>
      let exact := init.program.staticType lower .nonNull
      if exact.le init.program (upper.withNullability .maybe) then
        .ok (findings.noteLower field lower)
      else .error (.crossedBounds root)

/-- Note what a field holds from its only write on. -/
def noteWrite (init : ClassInitializer) (findings : Findings)
    (field : FieldId) (value : ValueId) : Except Fault Findings := do
  let root := init.body.root value
  let definition ← init.program.field field
  let findings ← init.noteContent findings field definition.type root
  init.noteTypes findings field definition.type root

/-- Note a field that a read may have seen before its only write: it holds
zero or the constant written. -/
def noteEither (init : ClassInitializer) (findings : Findings)
    (field : FieldId) (value : ValueId) : Except Fault Findings := do
  let before := (init.defaults.find? field).getD (.number 0)
  if before.isZero then
    match ← init.body.knowledge init.program value with
    | .exactly after =>
        if after.isConstant then
          return findings.noteKnowledge field (.oneOf before after)
        else return findings
    | _ => return findings
  else return findings

def noteWrites (init : ClassInitializer) (findings : Findings)
    (field : FieldId) (writes : List (InstrId × ValueId)) :
    Except Fault Findings := do
  match writes with
  | [(write, value)] =>
      -- Without a default, a read before the write sees zero.
      let sameBefore := !init.defaults.contains field && init.body.isZero value
      match ← init.body.visibility init.program field write sameBefore with
      | .exact => init.noteWrite findings field value
      | .afterRead => init.noteEither findings field value
      | .partially => return findings
  | _ => return findings

def noteDefaults (init : ClassInitializer)
    (writes : Table (List (InstrId × ValueId))) (findings : Findings) :
    Except Fault Findings :=
  init.defaults.entries.foldlM
    (fun findings (field, value) => do
      if writes.contains field then return findings
      else if ← init.isEligible field then
        return findings.noteKnowledge field (.exactly value)
      else return findings)
    findings

/-- Note everything that the initializer leaves in the fields. -/
def analyze (init : ClassInitializer) (findings : Findings) :
    Except Fault Findings := do
  let writes ← init.writes
  let findings ← writes.entries.foldlM
    (fun findings (field, writes) => init.noteWrites findings field writes)
    findings
  init.noteDefaults writes findings

end ClassInitializer

/-- Note what a body leaves in the static fields of its class, if it is a
class initializer. -/
def Body.noteStaticContents (body : Body) (program : Program)
    (defaults : Table KnownValue) (findings : Findings) :
    Except Fault Findings := do
  let definition ← program.method body.method
  if definition.traits.isClassInitializer then
    ClassInitializer.analyze
      { program, body, holder := definition.holder, defaults } findings
  else return findings

end FlowFacts
