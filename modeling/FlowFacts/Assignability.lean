/-
Is a body still well typed where values flow into declared types: at stores
into fields, at returns, and at throws?
-/
import FlowFacts.Body.Basic
import FlowFacts.Program.Hierarchy

namespace FlowFacts

/-- Can a value be stored where a type is declared?  Nullability does not
matter, and any reference may be stored where an interface is declared. -/
def StaticType.isAssignable (program : Program) (value : StaticType)
    (target : TypeId) : Bool :=
  match value, program.sort target with
  | bottom, _ => true
  | primitive a, .primitive b => a == b || (a.isIntLike && b.isIntLike)
  | reference referent _, .object =>
      ((program.classDecl? target).any fun definition =>
          definition.traits.isInterface) ||
        (reference referent .maybe).le program
          (program.staticType target .maybe)
  | reference referent _, .array =>
      (reference referent .maybe).le program (program.staticType target .maybe)
  | _, _ => false

namespace Body

def isAssignable (body : Body) (program : Program) (value : ValueId)
    (target : TypeId) : Bool :=
  (body.typeOf value).isAssignable program target

def isWellTypedAt (body : Body) (program : Program) (instr : InstrId) :
    Except Fault Bool := do
  match body.opcode instr with
  | .instancePut field _ value | .staticPut field value =>
      return body.isAssignable program value (← program.field field).type
  | .ret (some value) =>
      return body.isAssignable program value
        (← program.method body.method).returns
  | .throw exception =>
      return body.isAssignable program exception WellKnown.throwable
  | _ => return true

def isWellTyped (body : Body) (program : Program) : Except Fault Bool :=
  body.allInstructions.allM (body.isWellTypedAt program)

end Body

end FlowFacts
