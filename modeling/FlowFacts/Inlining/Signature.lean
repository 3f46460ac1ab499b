/-
Constraints under a change of the method's signature, and at a call.
-/
import FlowFacts.Table
import FlowFacts.Fact.Value
import FlowFacts.Body.Value
import FlowFacts.Inlining.Constraint

namespace FlowFacts

namespace Predicate

def admitsKnown (predicate : Predicate) (value : KnownValue) : Bool :=
  match predicate, value with
  | null, value => value.isZero
  | nonNull, value => !value.isZero
  | predicate, .number number => predicate.admits number
  | _, _ => false

/-- Does a value of a body certainly pass the test? -/
def admitsValue (body : Body) (predicate : Predicate) (value : ValueId) : Bool :=
  let root := body.root value
  match predicate with
  | null =>
      (body.typeOf root).nullability == .null ||
        body.definingOpcode? root == some .null
  | nonNull => (body.typeOf root).isNonNull
  | predicate => (body.number? root).any predicate.admits

/-- The test of a number that a test of the object around it becomes. -/
def unboxed : Predicate → Predicate
  | null => equal 0
  | nonNull => notEqual 0
  | other => other

end Predicate

/-- The arguments removed from a signature, each with the value that all
callers passed, if it is known. -/
abbrev Removals := Table (Option KnownValue)

namespace Removals

/-- The index of a kept argument after the removals. -/
def shifted (removals : Removals) (index : Nat) : Nat :=
  index - (removals.entries.filter fun entry => entry.1 < index).length

/-- What a test becomes.  A test of a removed argument is decided by the
removed value; without one it fails. -/
def apply (removals : Removals) (test : ArgumentTest) : Constraint :=
  match removals.find? test.index with
  | some (some value) =>
      if test.predicate.admitsKnown value then .always else .never
  | some none => .never
  | none => .test { test with index := removals.shifted test.index }

end Removals

namespace Constraint

mutual

/-- Replace every test, and bring the result into order again. -/
def substitute (change : ArgumentTest → Constraint) : Constraint → Constraint
  | always => always
  | never => never
  | test t => change t
  | all operands => substituteAll change always operands
  | any operands => substituteAny change never operands

def substituteAll (change : ArgumentTest → Constraint) (done : Constraint) :
    List Constraint → Constraint
  | [] => done
  | operand :: rest =>
      substituteAll change (done.meet (substitute change operand)) rest

def substituteAny (change : ArgumentTest → Constraint) (done : Constraint) :
    List Constraint → Constraint
  | [] => done
  | operand :: rest =>
      substituteAny change (done.join (substitute change operand)) rest

end

def removeArguments (constraint : Constraint) (removals : Removals) :
    Constraint :=
  constraint.substitute removals.apply

/-- The constraint after these arguments have been unboxed: tests for null
become tests for zero. -/
def unboxArguments (constraint : Constraint) (indices : List Nat) :
    Constraint :=
  constraint.substitute fun t =>
    if indices.contains t.index then
      test { t with predicate := t.predicate.unboxed }
    else test t

/-- Do the arguments of a call certainly satisfy the constraint?  An
instruction that is no call satisfies none. -/
def holdsAt (constraint : Constraint) (body : Body) (call : InstrId) :
    Except Fault Bool := do
  match (← body.instruction call).opcode with
  | .call _ _ arguments =>
      return constraint.eval fun t =>
        arguments[t.index]?.any (t.predicate.admitsValue body ·)
  | _ => return false

end Constraint

end FlowFacts
