/-
Type descriptors.  A descriptor is a name under any number of array brackets;
the first letter of the name tells primitive types, `void` and classes apart.
-/

namespace FlowFacts

/-- The primitive types. -/
inductive Primitive
  | boolean | byte | char | short | int | long | float | double
deriving DecidableEq, Repr

namespace Primitive

/-- The primitive type that a descriptor letter stands for. -/
def ofLetter? : Char → Option Primitive
  | 'Z' => some boolean
  | 'B' => some byte
  | 'C' => some char
  | 'S' => some short
  | 'I' => some int
  | 'J' => some long
  | 'F' => some float
  | 'D' => some double
  | _ => none

/-- Types that a method body computes with as 32-bit integers. -/
def isIntLike : Primitive → Bool
  | boolean | byte | char | short | int => true
  | long | float | double => false

end Primitive

/-- What sort of type a descriptor names. -/
inductive TypeSort
  | primitive (type : Primitive)
  | void
  | object
  | array
deriving DecidableEq, Repr

namespace TypeSort

/-- Objects and arrays are held by reference. -/
def isReference : TypeSort → Bool
  | object | array => true
  | primitive _ | void => false

/-- The sort of a type without brackets.  Only the first letter counts, and
every name that no letter claims is a class. -/
def ofName : List Char → TypeSort
  | 'L' :: _ => object
  | 'V' :: _ => void
  | letter :: _ =>
      match Primitive.ofLetter? letter with
      | some type => primitive type
      | none => object
  | [] => object

end TypeSort

/-- A type descriptor: a name under this many array brackets. -/
structure Descriptor where
  dimensions : Nat := 0
  name : String
deriving DecidableEq, Repr

namespace Descriptor

/-- A name without brackets. -/
def plain (name : String) : Descriptor := { name }

/-- The descriptor of arrays with this element type. -/
def array (element : Descriptor) : Descriptor :=
  { element with dimensions := element.dimensions + 1 }

/-- Read a descriptor; every leading bracket is one array dimension. -/
def ofChars : List Char → Descriptor
  | '[' :: rest => array (ofChars rest)
  | name => plain (String.ofList name)

/-- Read a descriptor from its text. -/
def ofString (text : String) : Descriptor := ofChars text.toList

/-- The text of a descriptor. -/
def text (descriptor : Descriptor) : String :=
  String.ofList (List.replicate descriptor.dimensions '[') ++ descriptor.name

/-- The sort of type described. -/
def sort : Descriptor → TypeSort
  | ⟨0, name⟩ => TypeSort.ofName name.toList
  | ⟨_ + 1, _⟩ => .array

end Descriptor

end FlowFacts
