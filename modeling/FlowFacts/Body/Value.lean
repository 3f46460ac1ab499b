/-
What a body says about its values: the value behind a copy, constants, and
arguments.
-/
import FlowFacts.Body.Basic

namespace FlowFacts

namespace Body

/-- The value that a copy renames. -/
def copied? (body : Body) (value : ValueId) : Option ValueId :=
  (body.definingOpcode? value).bind Opcode.copied?

/-- Follow copies for at most `steps` steps. -/
def follow (body : Body) : Nat → ValueId → ValueId
  | 0, value => value
  | steps + 1, value =>
      match body.copied? value with
      | some source => follow body steps source
      | none => value

/-- The value behind all copies.  A chain of copies that ends is shorter than
the number of values. -/
def root (body : Body) (value : ValueId) : ValueId :=
  body.follow body.values.size value

def rootOpcode? (body : Body) (value : ValueId) : Option Opcode :=
  body.definingOpcode? (body.root value)

/-- The number that a value is known to be; null is zero. -/
def number? (body : Body) (value : ValueId) : Option Int :=
  match body.rootOpcode? value with
  | some (.number number) => some number
  | some .null => some 0
  | _ => none

/-- Is a value known to be zero or null? -/
def isZero (body : Body) (value : ValueId) : Bool :=
  body.number? value == some 0

def isConstant (body : Body) (value : ValueId) : Bool :=
  match body.rootOpcode? value with
  | some (.number _) | some .null | some (.text _) | some (.classObject _) =>
      true
  | _ => false

def argument? (body : Body) (value : ValueId) : Option Nat :=
  match body.rootOpcode? value with
  | some (.argument index) => some index
  | _ => none

def isReceiver (body : Body) (value : ValueId) : Bool :=
  !body.isStatic && body.argument? value == some 0

/-- Put an argument in front of the arguments with a greater index. -/
def insertArgument (argument : Nat × ValueId) :
    List (Nat × ValueId) → List (Nat × ValueId)
  | [] => [argument]
  | head :: rest =>
      if argument.1 < head.1 then argument :: head :: rest
      else head :: insertArgument argument rest

/-- The arguments that the entry block defines, ordered by index. -/
def arguments (body : Body) : List ValueId :=
  let found := (body.instructionsOf Body.entry).filterMap fun instr =>
    match body.opcode instr, body.output? instr with
    | .argument index, some value => some (index, value)
    | _, _ => none
  (found.foldl (fun sorted argument => insertArgument argument sorted) []).map
    Prod.snd

end Body

end FlowFacts
