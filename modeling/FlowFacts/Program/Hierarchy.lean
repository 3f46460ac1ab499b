/-
The class hierarchy: superclasses, supertypes, and the order that subtyping
gives to static types.
-/
import FlowFacts.Closure
import FlowFacts.Program.Library

namespace FlowFacts

namespace Program

def parent? (program : Program) (type : TypeId) : Option TypeId :=
  (program.classDecl? type).bind ClassDecl.parent

/-- A type and its superclasses upwards, up to the first one that is wanted.
More steps than there are types lead round a circle. -/
def lineage (program : Program) (wanted : TypeId → Bool) :
    Nat → TypeId → Except Fault (List TypeId)
  | 0, _ => .error .endless
  | steps + 1, type =>
      if wanted type then .ok [type]
      else
        match program.parent? type with
        | some parent => do
            return type :: (← lineage program wanted steps parent)
        | none => .ok [type]

/-- A type and its superclasses, nearest first, up to the first one that is
wanted. -/
def superclasses (program : Program) (wanted : TypeId → Bool)
    (type : TypeId) : Except Fault (List TypeId) :=
  program.lineage wanted (program.types.size + 1) type

/-- Is the type itself or one of its superclasses wanted? -/
def climb (program : Program) (wanted : TypeId → Bool) (type : TypeId) :
    Except Fault Bool := do
  return (← program.superclasses wanted type).any wanted

/-- Is `sup` the type itself or one of its superclasses?  Interfaces do not
count: initializing a class does not initialize them. -/
def isSubclass (program : Program) (sub sup : TypeId) : Except Fault Bool :=
  program.climb (· == sup) sub

/-- The superclass and the interfaces that a type names. -/
def supertypes (program : Program) (type : TypeId) : List TypeId :=
  match program.classDecl? type with
  | some definition => definition.parent.toList ++ definition.interfaces
  | none => []

/-- Is `sup` reached from `sub` through superclasses and interfaces? -/
def inherits (program : Program) (sub sup : TypeId) : Bool :=
  (closure program.supertypes program.types.size [sub]).contains sup

/-- Subtyping without a look at the elements of arrays.  Every reference is an
object. -/
def isSubtypeOutright (program : Program) (sub sup : TypeId) : Bool :=
  sub == sup ||
  match program.sort sub, program.sort sup with
  | .object, .object => sup == WellKnown.object || program.inherits sub sup
  | .array, .object => sup == WellKnown.object
  | _, _ => false

/-- Subtyping, with arrays of references ordered like their elements, under at
most `depth` brackets. -/
def isSubtypeUnder (program : Program) : Nat → TypeId → TypeId → Bool
  | 0, sub, sup => program.isSubtypeOutright sub sup
  | depth + 1, sub, sup =>
      program.isSubtypeOutright sub sup ||
      match program.sort sub, program.sort sup with
      | .array, .array =>
          match program.element? sub, program.element? sup with
          | some a, some b =>
              program.isReference a && program.isReference b &&
                isSubtypeUnder program depth a b
          | _, _ => false
      | _, _ => false

/-- The most brackets that a type of the program is under. -/
def brackets (program : Program) : Nat :=
  program.types.toList.foldl
    (fun most entry => max most entry.descriptor.dimensions) 0

def isSubtype (program : Program) (sub sup : TypeId) : Bool :=
  program.isSubtypeUnder program.brackets sub sup

/-- The instance fields of a class and of its superclasses. -/
def instanceFields (program : Program) (type : TypeId) :
    Except Fault (List FieldId) := do
  let line ← program.superclasses (fun _ => false) type
  return line.flatMap fun type =>
    match program.classDecl? type with
    | some definition =>
        definition.fields.filter fun field =>
          (program.fields[field]?).any fun definition =>
            !definition.traits.isStatic
    | none => []

/-- The static type of values declared with a type. -/
def staticType (program : Program) (type : TypeId)
    (nullability : Nullability) : StaticType :=
  match program.sort type with
  | .primitive primitive => .primitive primitive
  | .void => .top
  | .object => .reference (.object type) nullability
  | .array => .reference (.array type) nullability

end Program

namespace Referent

/-- Null refers to less than everything; other referents are ordered by
subtyping. -/
def le (program : Program) (a b : Referent) : Bool :=
  match a.type?, b.type? with
  | none, _ => true
  | some _, none => false
  | some a, some b => program.isSubtype a b

end Referent

namespace StaticType

def le (program : Program) (a b : StaticType) : Bool :=
  a == b ||
  match a, b with
  | bottom, _ => true
  | _, top => true
  | reference r m, reference s n => m.le n && r.le program s
  | _, _ => false

def lt (program : Program) (a b : StaticType) : Bool :=
  a != b && a.le program b

end StaticType

end FlowFacts
