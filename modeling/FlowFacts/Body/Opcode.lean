/-
The instructions of method bodies: what each reads, where it may jump, and
whether instructions of its sort can throw.
-/
import FlowFacts.Fault

namespace FlowFacts

/-- Comparisons of a branch. -/
inductive Comparison
  | eq | ne | lt | ge | gt | le
deriving DecidableEq, Repr

/-- The comparison that holds exactly when this one does not. -/
def Comparison.inverted : Comparison → Comparison
  | eq => ne
  | ne => eq
  | lt => ge
  | ge => lt
  | gt => le
  | le => gt

/-- Binary operators. -/
inductive Operator
  | add | sub | mul | div | rem | and | or | xor | shl | shr | ushr
deriving DecidableEq, Repr

namespace Operator

/-- Bitwise operators and shifts. -/
def isLogical : Operator → Bool
  | and | or | xor | shl | shr | ushr => true
  | add | sub | mul | div | rem => false

/-- Division by zero throws. -/
def canThrow : Operator → Bool
  | div | rem => true
  | _ => false

end Operator

/-- Ways of calling a method. -/
inductive CallKind
  | static
  /-- Private methods and constructors. -/
  | direct
  | virtual
  | interface
  | super
deriving DecidableEq, Repr

namespace CallKind

def hasReceiver (kind : CallKind) : Bool :=
  kind != static

/-- Does the class of the receiver decide what is called? -/
def isDynamic : CallKind → Bool
  | virtual | interface | super => true
  | static | direct => false

end CallKind

/-- What an instruction does. -/
inductive Opcode
  /-- An argument of the method; argument `0` is the receiver, if any. -/
  | argument (index : Nat)
  | number (value : Int)
  | null
  | text (value : String)
  | classObject (type : TypeId)
  /-- The same value under a more precise type. -/
  | refine (source : ValueId)
  /-- The same value under another name. -/
  | move (source : ValueId)
  | checkCast (source : ValueId) (type : TypeId)
  | binary (operator : Operator) (left right : ValueId)
  | staticGet (field : FieldId)
  | staticPut (field : FieldId) (value : ValueId)
  | instanceGet (field : FieldId) (object : ValueId)
  | instancePut (field : FieldId) (object value : ValueId)
  | arrayGet (array index : ValueId)
  | arrayPut (array index value : ValueId)
  | arrayLength (array : ValueId)
  | newInstance (type : TypeId)
  | newArray (type : TypeId) (size : ValueId)
  | filledArray (type : TypeId) (elements : List ValueId)
  | fillArray (array : ValueId) (data : List Int)
  | call (kind : CallKind) (method : MethodId) (arguments : List ValueId)
  | initClass (type : TypeId)
  /-- A mark for debuggers. -/
  | position
  | goto (target : BlockId)
  /-- Compare with `right`, or with zero and null if there is none. -/
  | branch (comparison : Comparison) (left : ValueId) (right : Option ValueId)
      (whenTrue whenFalse : BlockId)
  | ret (value : Option ValueId)
  | throw (exception : ValueId)
deriving DecidableEq, Repr

namespace Opcode

def inputs : Opcode → List ValueId
  | argument _ | number _ | null | text _ | classObject _ => []
  | staticGet _ | newInstance _ | initClass _ | position | goto _ => []
  | refine source | move source | checkCast source _ => [source]
  | binary _ left right => [left, right]
  | staticPut _ value => [value]
  | instanceGet _ object => [object]
  | instancePut _ object value => [object, value]
  | arrayGet array index => [array, index]
  | arrayPut array index value => [array, index, value]
  | arrayLength array | fillArray array _ => [array]
  | newArray _ size => [size]
  | filledArray _ elements => elements
  | call _ _ arguments => arguments
  | branch _ left right _ _ => left :: right.toList
  | ret value => value.toList
  | throw exception => [exception]

def targets : Opcode → List BlockId
  | goto target => [target]
  | branch _ _ _ whenTrue whenFalse =>
      if whenTrue = whenFalse then [whenTrue] else [whenTrue, whenFalse]
  | _ => []

def isTerminator : Opcode → Bool
  | goto _ | branch .. | ret _ | throw _ => true
  | _ => false

/-- Does the instruction end a block by going to another one? -/
def isJump : Opcode → Bool
  | goto _ | branch .. => true
  | _ => false

def isReturn : Opcode → Bool
  | ret _ => true
  | _ => false

/-- Is the result the operand itself, under another name or type? -/
def isAlias : Opcode → Bool
  | refine _ | move _ | checkCast .. => true
  | _ => false

/-- The operand that the result renames.  A cast counts as a new value. -/
def copied? : Opcode → Option ValueId
  | refine source | move source => some source
  | _ => none

/-- Can instructions of this sort throw, whatever their operands are? -/
def canThrow : Opcode → Bool
  | argument _ | number _ | null | text _ | refine _ | move _ => false
  | position | goto _ | branch .. | ret _ => false
  | binary operator _ _ => operator.canThrow
  | _ => true

end Opcode

end FlowFacts
