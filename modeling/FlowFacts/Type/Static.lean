/-
Static types of values: a lattice with a bottom, a top, the primitive types,
and references with a nullability of their own.
-/
import FlowFacts.Fault
import FlowFacts.Type.Descriptor

namespace FlowFacts

/-- What is known about a reference being null. -/
inductive Nullability
  | bottom
  | null
  | nonNull
  | maybe
deriving DecidableEq, Repr

namespace Nullability

/-- `bottom` is least, `maybe` is greatest, the other two are incomparable. -/
def le (a b : Nullability) : Bool :=
  a == b || a == bottom || b == maybe

def join (a b : Nullability) : Nullability :=
  if a = b then a
  else if a = bottom then b
  else if b = bottom then a
  else maybe

/-- May the reference be null? -/
def isNullable : Nullability → Bool
  | null | maybe => true
  | bottom | nonNull => false

end Nullability

/-- What a reference refers to. -/
inductive Referent
  | null
  | object (type : TypeId)
  | array (type : TypeId)
deriving DecidableEq, Repr

/-- The type referred to, if any. -/
def Referent.type? : Referent → Option TypeId
  | null => none
  | object type | array type => some type

/-- The static type of a value. -/
inductive StaticType
  | bottom
  | top
  | primitive (type : Primitive)
  | reference (referent : Referent) (nullability : Nullability)
deriving DecidableEq, Repr

namespace StaticType

/-- The type of the null constant. -/
def nullConstant : StaticType := reference .null .null

/-- The nullability of a type; what is no reference is never null. -/
def nullability : StaticType → Nullability
  | reference _ nullability => nullability
  | bottom => .bottom
  | top | primitive _ => .nonNull

def withNullability (type : StaticType) (nullability : Nullability) :
    StaticType :=
  match type with
  | reference referent _ => reference referent nullability
  | other => other

/-- A reference that may be null. -/
def isNullable : StaticType → Bool
  | reference _ nullability => nullability.isNullable
  | _ => false

/-- A reference that is never null. -/
def isNonNull : StaticType → Bool
  | reference _ .nonNull => true
  | _ => false

/-- Is the type a reference? -/
def isReference : StaticType → Bool
  | reference _ _ => true
  | _ => false

/-- Is the type the primitive `boolean`? -/
def isBoolean (type : StaticType) : Bool :=
  type == primitive .boolean

/-- Is the type primitive? -/
def isPrimitive : StaticType → Bool
  | primitive _ => true
  | _ => false

/-- The class or array type that a reference refers to. -/
def referred? : StaticType → Option TypeId
  | reference referent _ => referent.type?
  | _ => none

end StaticType

end FlowFacts
