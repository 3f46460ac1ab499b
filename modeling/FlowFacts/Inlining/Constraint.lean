/-
Conditions on the arguments of a call, as formulas over tests of single
arguments.  Conjunction and disjunction keep formulas flat, sorted and free of
repetitions, so that equal formulas are built alike.
-/

namespace FlowFacts

/-- A test of one argument. -/
inductive Predicate
  | null
  | nonNull
  | isTrue
  | isFalse
  | equal (value : Int)
  | notEqual (value : Int)
deriving DecidableEq, Repr

namespace Predicate

/-- The predicate that holds exactly when this one does not. -/
def complement : Predicate → Predicate
  | null => nonNull
  | nonNull => null
  | isTrue => isFalse
  | isFalse => isTrue
  | equal value => notEqual value
  | notEqual value => equal value

def rank : Predicate → Nat
  | null => 0
  | nonNull => 1
  | isTrue => 2
  | isFalse => 3
  | equal _ => 4
  | notEqual _ => 5

def operand : Predicate → Int
  | equal value | notEqual value => value
  | _ => 0

/-- Predicates are ordered by head, then by number. -/
def compare (a b : Predicate) : Ordering :=
  (Ord.compare a.rank b.rank).then (Ord.compare a.operand b.operand)

/-- Does a number pass the test?  Null is zero and every other reference is
some other number. -/
def admits (predicate : Predicate) (value : Int) : Bool :=
  match predicate with
  | null | isFalse => value == 0
  | nonNull => value != 0
  | isTrue => value == 1
  | equal other => value == other
  | notEqual other => value != other

end Predicate

/-- A test of the argument with this index. -/
structure ArgumentTest where
  index : Nat
  predicate : Predicate
deriving DecidableEq, Repr

namespace ArgumentTest

/-- The test of the same argument that this one contradicts. -/
def complement (test : ArgumentTest) : ArgumentTest :=
  { test with predicate := test.predicate.complement }

/-- Tests are ordered by argument, then by predicate. -/
def compare (a b : ArgumentTest) : Ordering :=
  (Ord.compare a.index b.index).then (a.predicate.compare b.predicate)

end ArgumentTest

/-- A condition on the arguments of a call. -/
inductive Constraint
  | always
  | never
  | test (test : ArgumentTest)
  | all (operands : List Constraint)
  | any (operands : List Constraint)
deriving Repr

namespace Constraint

def rank : Constraint → Nat
  | always => 0
  | never => 1
  | test _ => 2
  | all _ => 3
  | any _ => 4

mutual

/-- Constraints are ordered by head, then by content. -/
def compare : Constraint → Constraint → Ordering
  | test a, test b => a.compare b
  | all as, all bs => compareLists as bs
  | any as, any bs => compareLists as bs
  | a, b => Ord.compare a.rank b.rank

/-- Lists of constraints are ordered like words. -/
def compareLists : List Constraint → List Constraint → Ordering
  | [], [] => .eq
  | [], _ :: _ => .lt
  | _ :: _, [] => .gt
  | a :: as, b :: bs => (compare a b).then (compareLists as bs)

end

mutual

/-- The truth of a constraint, given the truth of its tests. -/
def eval (truth : ArgumentTest → Bool) : Constraint → Bool
  | always => true
  | never => false
  | test t => truth t
  | all operands => evalAll truth operands
  | any operands => evalAny truth operands

def evalAll (truth : ArgumentTest → Bool) : List Constraint → Bool
  | [] => true
  | operand :: rest => eval truth operand && evalAll truth rest

def evalAny (truth : ArgumentTest → Bool) : List Constraint → Bool
  | [] => false
  | operand :: rest => eval truth operand || evalAny truth rest

end

def satisfiedBy (constraint : Constraint) (assignment : Nat → Int) : Bool :=
  constraint.eval fun test => test.predicate.admits (assignment test.index)

def isAlways : Constraint → Bool
  | always => true
  | _ => false

def isNever : Constraint → Bool
  | never => true
  | _ => false

def isTest (wanted : ArgumentTest) : Constraint → Bool
  | test t => t == wanted
  | _ => false

/-- Put an operand at its place among ordered operands, once. -/
def insertOperand (operand : Constraint) : List Constraint → List Constraint
  | [] => [operand]
  | head :: rest =>
      match compare operand head with
      | .lt => operand :: head :: rest
      | .eq => head :: rest
      | .gt => head :: insertOperand operand rest

/-- Operands in ascending order, without repetitions. -/
def ordered (operands : List Constraint) : List Constraint :=
  operands.foldl (fun sorted operand => insertOperand operand sorted) []

def hasContradiction (operands : List Constraint) : Bool :=
  operands.any fun operand =>
    match operand with
    | test t => operands.any (isTest t.complement)
    | _ => false

/-- The operands of a conjunction; any other constraint stands for itself. -/
def conjuncts : Constraint → List Constraint
  | all operands => operands
  | other => [other]

/-- The operands of a disjunction; any other constraint stands for itself. -/
def disjuncts : Constraint → List Constraint
  | any operands => operands
  | other => [other]

/-- The conjunction of operands; a test and its complement never hold
together. -/
def conjunction (operands : List Constraint) : Constraint :=
  let operands := ordered operands
  if hasContradiction operands then never
  else
    match operands with
    | [single] => single
    | operands => all operands

/-- The disjunction of operands; of a test and its complement one always
holds. -/
def disjunction (operands : List Constraint) : Constraint :=
  let operands := ordered operands
  if hasContradiction operands then always
  else
    match operands with
    | [single] => single
    | operands => any operands

/-- Both constraints hold. -/
def meet (a b : Constraint) : Constraint :=
  match a, b with
  | never, _ => never
  | _, never => never
  | always, b => b
  | a, always => a
  | a, b => conjunction (a.conjuncts ++ b.conjuncts)

def join (a b : Constraint) : Constraint :=
  match a, b with
  | always, _ => always
  | _, always => always
  | never, b => b
  | a, never => a
  | a, b => disjunction (a.disjuncts ++ b.disjuncts)

/-- The conjunction with a constraint that is not computed if this one is
`never` already. -/
def meetWith {m : Type → Type} [Monad m] (a : Constraint)
    (b : m Constraint) : m Constraint :=
  if a.isNever then pure a else do return a.meet (← b)

end Constraint

/-- A constraint together with the number of instructions on the longest way
that contributed to it. -/
structure Verdict where
  constraint : Constraint
  depth : Nat
deriving Repr

namespace Verdict

def always (depth : Nat) : Verdict := ⟨.always, depth⟩

def never : Verdict := ⟨.never, 0⟩

/-- The way goes on into `b`, whose depth counts from the start. -/
def meet (a b : Verdict) : Verdict :=
  ⟨a.constraint.meet b.constraint, b.depth⟩

/-- The same with a continuation that is not computed if `a` is `never`. -/
def meetWith {m : Type → Type} [Monad m] (a : Verdict) (b : m Verdict) :
    m Verdict :=
  if a.constraint.isNever then pure a else do return a.meet (← b)

def join (a b : Verdict) : Verdict :=
  ⟨a.constraint.join b.constraint, max a.depth b.depth⟩

end Verdict

end FlowFacts
