/-
For which arguments does a body come down to a trivial exit?  The walk follows
jumps from the entry, splits at tests of single arguments, and counts
instructions on the way; a block counts for the first way that enters it.
-/
import FlowFacts.Program.Basic
import FlowFacts.Inlining.Signature

namespace FlowFacts

/-- What the inlining analysis may do. -/
structure InliningOptions where
  inlining : Bool := true
  /-- Code to be debugged is kept as it was written. -/
  debug : Bool := false
  /-- The greatest number of instructions before a trivial exit. -/
  threshold : Nat := 2
deriving DecidableEq, Repr

def InliningOptions.enabled (options : InliningOptions) : Bool :=
  options.inlining && !options.debug

/-- Is an instruction left out when instructions are counted? -/
def Opcode.isUncounted : Opcode → Bool
  | argument _ | refine _ | position => true
  | _ => false

namespace Body

/-- The argument behind a value, unless it is the receiver. -/
def testedArgument? (body : Body) (value : ValueId) : Option (ValueId × Nat) :=
  let root := body.root value
  match body.argument? root with
  | some index => if body.isReceiver root then none else some (root, index)
  | none => none

/-- The test that holds when a comparison finds equality. -/
def equalityTest? (body : Body) (left : ValueId) (right : Option ValueId) :
    Option ArgumentTest :=
  match right with
  | none =>
      match body.testedArgument? left with
      | none => none
      | some (argument, index) =>
          let type := body.typeOf argument
          if type.isReference then some { index, predicate := .null }
          else if type.isBoolean then some { index, predicate := .isFalse }
          else none
  | some right =>
      let constantTest (argument : ValueId × Nat) (constant : ValueId) :=
        if (body.typeOf argument.1).isPrimitive then
          (body.number? constant).map fun number =>
            { index := argument.2, predicate := .equal number : ArgumentTest }
        else none
      match body.testedArgument? left, body.testedArgument? right with
      | some argument, none => constantTest argument right
      | none, some argument => constantTest argument left
      | _, _ => none

/-- The tests under which a branch goes to its two targets. -/
def branchTests? (body : Body) (comparison : Comparison) (left : ValueId)
    (right : Option ValueId) : Option (ArgumentTest × ArgumentTest) :=
  match comparison with
  | .eq =>
      (body.equalityTest? left right).map fun test => (test, test.complement)
  | .ne =>
      (body.equalityTest? left right).map fun test => (test.complement, test)
  | _ => none

/-- The first terminator among instructions, with the depth there.  There is
none if too many instructions come before it. -/
def terminatorWithin? (body : Body) (threshold : Nat) :
    List InstrId → Nat → Option (Opcode × Nat)
  | [], _ => none
  | instr :: rest, depth =>
      let opcode := body.opcode instr
      if opcode.isTerminator then some (opcode, depth)
      else if opcode.isUncounted then
        terminatorWithin? body threshold rest depth
      else if threshold < depth + 1 then none
      else terminatorWithin? body threshold rest (depth + 1)

/-- Walk from a block at a depth.  No block is entered twice, so the steps run
out only after every block has been seen. -/
def inliningWalk (body : Body) (threshold : Nat) :
    Nat → BlockId → Nat → List BlockId →
      Except Fault (Verdict × List BlockId)
  | 0, _, _, seen => .ok (.never, seen)
  | steps + 1, block, depth, seen => do
      let content ← body.block block
      if seen.contains block then return (.never, seen)
      else
        let seen := block :: seen
        match body.terminatorWithin? threshold content.instructions depth with
        | some (.ret _, depth) => return (.always depth, seen)
        | some (.throw _, depth) =>
            if content.handlers.isEmpty then return (.always depth, seen)
            else return (.never, seen)
        | some (.goto target, depth) =>
            inliningWalk body threshold steps target depth seen
        | some (.branch comparison left right whenTrue whenFalse, depth) =>
            match body.branchTests? comparison left right with
            | none => return (.never, seen)
            | some (trueTest, falseTest) =>
                let way (test : ArgumentTest) (target : BlockId) :
                    StateT (List BlockId) (Except Fault) Verdict :=
                  Verdict.meetWith ⟨.test test, depth⟩
                    (inliningWalk body threshold steps target depth)
                let (trueWay, seen) ← way trueTest whenTrue seen
                let (falseWay, seen) ← way falseTest whenFalse seen
                return (trueWay.join falseWay, seen)
        | _ => return (.never, seen)

/-- The condition under which inlining the body leaves a trivial exit only. -/
def inliningVerdict (body : Body) (program : Program)
    (options : InliningOptions) : Except Fault Verdict := do
  let definition ← program.method body.method
  if definition.params.isEmpty || !options.enabled then return .never
  else
    let (verdict, _) ←
      body.inliningWalk options.threshold (body.blocks.size + 1) Body.entry 0 []
    return verdict

end Body

end FlowFacts
