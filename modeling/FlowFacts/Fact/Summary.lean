/-
Facts recorded about fields, constructors and methods.  They are found by one
analysis and read by the next.
-/
import FlowFacts.Table
import FlowFacts.Fact.Value
import FlowFacts.Type.Static

namespace FlowFacts

/-- Where a constructor takes the initial content of a field from. -/
inductive FieldOrigin
  | unknown
  /-- The argument with this index; argument `0` is the receiver. -/
  | argument (index : Nat)
  | value (value : KnownValue)
  /-- Some object of exact class `lower` and static type `upper`. -/
  | typed (lower : Option TypeId) (upper : StaticType)
deriving DecidableEq

def FieldOrigin.isUnknown : FieldOrigin → Bool
  | unknown => true
  | _ => false

/-- The known origins of the fields that a constructor fills. -/
abbrev Origins := Table FieldOrigin

namespace Origins

/-- Set the origin of a field; an unknown origin is not kept. -/
def set (origins : Origins) (field : FieldId) (origin : FieldOrigin) : Origins :=
  if origin.isUnknown then origins.erase field
  else origins.insert field origin

def get (origins : Origins) (field : FieldId) : FieldOrigin :=
  (origins.find? field).getD .unknown

end Origins

/-- What is known about a constructor. -/
structure ConstructorSummary where
  origins : Origins := .empty
  /-- May it do more than fill fields of the new object? -/
  otherEffects : Bool := true
  /-- May it hand the new object to other code? -/
  receiverEscapes : Bool := true

/-- A trivial constructor only fills fields. -/
def ConstructorSummary.isTrivial (summary : ConstructorSummary) : Bool :=
  !summary.otherEffects && !summary.receiverEscapes

/-- What is known about the content of a field. -/
structure FieldFacts where
  knowledge : Knowledge := .unknown
  /-- A static type more precise than the declared one. -/
  upper : Option StaticType := none
  /-- The exact class of the object. -/
  lower : Option TypeId := none
deriving DecidableEq

/-- What is known about a method. -/
structure MethodFacts where
  /-- Classes that are initialized once the method has returned. -/
  initialized : List TypeId := []
  /-- Arguments that cannot have been null once the method has returned. -/
  nonNullArguments : List Nat := []
  hasEffects : Bool := true
  /-- The fields it may read; any field if not known. -/
  reads : Option (List FieldId) := none
  constructs : Option ConstructorSummary := none
  forwardsTo : Option MethodId := none

end FlowFacts
