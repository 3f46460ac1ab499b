/-
Is a class certainly initialized when control reaches an instruction?  The
instructions before it in its block have completed; so have the instructions
of the blocks that dominate it, unless one of them throws into a handler from
which the instruction is reached.
-/
import FlowFacts.Flow.Dominators
import FlowFacts.Flow.Marks
import FlowFacts.Initialization.Trigger

namespace FlowFacts

/-- A series of questions about one program.  Dominators and marks are kept
from one question to the next. -/
structure InitSession where
  /-- Without a program nothing is certain. -/
  program : Option Program
  tree : Option Dominators := none
  marks : Option Marks := none

namespace Body

/-- The instructions up to the first that can throw, that one included. -/
def throughThrowing (body : Body) : List InstrId → List InstrId
  | [] => []
  | instr :: rest =>
      if (body.opcode instr).canThrow then [instr]
      else instr :: throughThrowing body rest

/-- The instructions of a block that have been started when the block has been
left; with handlers it may be left where it throws. -/
def startedIn (body : Body) (block : Block) : List InstrId :=
  if block.handlers.isEmpty then block.instructions
  else body.throughThrowing block.instructions

/-- Could something thrown be caught by a handler from which a marked block is
reached? -/
def mayArriveByHandler (program : Program) (marks : Marks) (thrown : Thrown)
    (handlers : List Handler) : Bool :=
  handlers.any fun handler =>
    marks.isMarked handler.target &&
      match handler.guard with
      | none => true
      | some guard => thrown.mayBeCaughtBy program guard

/-- The marks for a target: the given ones if they are for this target, or
else in the same buffer. -/
def marksFor (body : Body) (marks : Option Marks) (target : BlockId) :
    Except Fault Marks :=
  let marks := marks.getD {}
  if marks.target = some target then .ok marks
  else marks.retarget body target

/-- How the throwing instruction of a dominator ended, given that control went
on to the target. -/
def completionIn (body : Body) (program : Program) (marks : Option Marks)
    (dominator target : BlockId) :
    Except Fault (Completion × Option Marks) := do
  let block ← body.block dominator
  match body.throwing? dominator with
  | none => return (.normal, marks)
  | some instr =>
      let thrown := (body.opcode instr).thrown
      let marks ← body.marksFor marks target
      if mayArriveByHandler program marks thrown block.handlers then
        return (.unknown, some marks)
      else return (.normal, some marks)

/-- Does one of the dominators initialize the class? -/
def isInitializedInDominators (body : Body) (program : Program)
    (type : TypeId) (target : BlockId) :
    List BlockId → Option Marks → Except Fault (Bool × Option Marks)
  | [], marks => .ok (false, marks)
  | dominator :: rest, marks => do
      let (completion, marks) ←
        body.completionIn program marks dominator target
      let block ← body.block dominator
      let found ← (body.startedIn block).anyM fun instr =>
        body.triggers program .transitive completion instr type
      if found then return (true, marks)
      else isInitializedInDominators body program type target rest marks

end Body

namespace InitSession

/-- The dominators kept, or else those of the body. -/
def treeFor (session : InitSession) (body : Body) : Except Fault Dominators := do
  let tree ←
    match session.tree with
    | some tree => pure tree
    | none => body.dominators
  if tree.builtAt = body.revision then return tree
  else throw (.staleDominators tree.builtAt body.revision)

/-- Is a class initialized on every path to an instruction? -/
def query (session : InitSession) (body : Body) (type : TypeId)
    (instr : InstrId) : Except Fault (Bool × InitSession) :=
  match session.program with
  | none => .ok (false, session)
  | some program => do
      let block := (← body.instruction instr).block
      let found ← (body.before instr).anyM fun previous =>
        body.triggers program .transitive .normal previous type
      if found then return (true, session)
      else
        let tree ← session.treeFor body
        let dominators ← tree.strict block
        let (found, marks) ← body.isInitializedInDominators program type block
          dominators session.marks
        return (found, { session with tree := some tree, marks })

/-- The body has changed: forget everything computed about it. -/
def notifyChanged (session : InitSession) : InitSession :=
  { session with tree := none, marks := none }

/-- The questions are over: release the marks. -/
def finish (session : InitSession) : InitSession :=
  { session with marks := none }

end InitSession

end FlowFacts
