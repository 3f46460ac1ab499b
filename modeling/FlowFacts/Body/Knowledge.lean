/-
What is known about the run-time content of a value: constants, recorded field
contents, exact classes, and the constructor that made an object.
-/
import FlowFacts.Body.Value
import FlowFacts.Program.Basic

namespace FlowFacts

/-- A constructor call with an object as its receiver. -/
structure ConstructorCall where
  instr : InstrId
  constructor : MethodDecl
  arguments : List ValueId

namespace Body

/-- What is known about a value.  Constants are known, and the content of a
static field is as far as it has been recorded. -/
def knowledge (body : Body) (program : Program) (value : ValueId) :
    Except Fault Knowledge := do
  match body.rootOpcode? value with
  | some (.number number) => return .exactly (.number number)
  | some .null => return .exactly (.number 0)
  | some (.text text) => return .exactly (.text text)
  | some (.classObject type) => return .exactly (.classObject type)
  | some (.staticGet field) =>
      match (← program.field field).facts.knowledge with
      | .exactly value => return .exactly value
      | _ => return .unknown
  | _ => return .unknown

/-- The exact class of a value, if it is a new object. -/
def exactClass? (body : Body) (value : ValueId) : Option TypeId :=
  match body.rootOpcode? value with
  | some (.newInstance type) => some type
  | _ => none

/-- The constructor call that a user of an object makes on it. -/
def constructorCall? (body : Body) (program : Program) (object : ValueId)
    (user : InstrId) : Except Fault (Option ConstructorCall) := do
  match body.opcode user with
  | .call .direct method arguments =>
      if arguments.head?.map body.root = some object then
        let constructor ← program.method method
        if constructor.traits.isConstructor then
          return some { instr := user, constructor, arguments }
        else return none
      else return none
  | _ => return none

/-- The only constructor call among users, the one found so far included.  A
second call ends the search. -/
def soleCallAmong (body : Body) (program : Program) (object : ValueId) :
    Option ConstructorCall → List InstrId →
      Except Fault (Option ConstructorCall)
  | found, [] => .ok found
  | found, user :: rest => do
      match ← body.constructorCall? program object user, found with
      | none, found => soleCallAmong body program object found rest
      | some call, none => soleCallAmong body program object (some call) rest
      | some _, some _ => return none

/-- The constructor call on a new object, if there is exactly one. -/
def soleConstructorCall? (body : Body) (program : Program) (object : ValueId) :
    Except Fault (Option ConstructorCall) :=
  body.soleCallAmong program object none (body.users object)

end Body

end FlowFacts
