/-
Can a new object be modified before its method returns?  A block is left with
a flag that tells whether other code can reach the object by then.  Before it
can, only stores into the object count; afterwards every effect does.
-/
import FlowFacts.Body.Effect
import FlowFacts.Flow.Graph

namespace FlowFacts

/-- The object to be watched. -/
structure Watch where
  /-- The values that are the object under some name. -/
  aliases : List ValueId
  /-- The instructions that took part in making it. -/
  consumed : List InstrId
  /-- The class whose method is running. -/
  holder : TypeId
deriving DecidableEq, Repr

namespace Body

/-- The names that instructions directly give to a value. -/
def renamings (body : Body) (value : ValueId) : List ValueId :=
  (body.users value).filterMap fun user =>
    match body.opcode user with
    | .refine _ | .move _ | .checkCast .. => body.output? user
    | _ => none

def aliases (body : Body) (value : ValueId) : List ValueId :=
  closure body.renamings body.values.size [value]

/-- Watch an object over one instruction: the flag afterwards, or nothing if
the instruction may modify the object. -/
def watchStep (body : Body) (program : Program) (watch : Watch)
    (instr : InstrId) (escaped : Bool) : Except Fault (Option Bool) := do
  let isWatched (value : ValueId) := watch.aliases.contains value
  let opcode := body.opcode instr
  if watch.consumed.contains instr then
    -- The object may become part of another one that is being made.
    return some (escaped || opcode.inputs.tail.any isWatched)
  else
    let other : Except Fault (Option Bool) := do
      if escaped then
        if ← body.hasEffect program instr then return none
        else return some true
      else return some false
    match opcode with
    | .arrayPut array _ value =>
        if isWatched array then return none
        else return some (escaped || isWatched value)
    | .fillArray array _ =>
        if isWatched array then return none
        else return some escaped
    | .instancePut _ object value =>
        if isWatched object then return none
        else return some (escaped || isWatched value)
    | .call _ _ arguments =>
        if arguments.any isWatched then return none else other
    | .staticPut field value =>
        let holder := (← program.field field).holder
        let isObserved ←
          if holder = watch.holder then pure false
          else body.startsObservably program holder
        if isWatched value then
          if isObserved then return none else return some true
        else if escaped && isObserved then return none
        else return some escaped
    | _ => other

def watchOver (body : Body) (program : Program) (watch : Watch) :
    List InstrId → Bool → Except Fault (Option Bool)
  | [], escaped => .ok (some escaped)
  | instr :: rest, escaped => do
      match ← body.watchStep program watch instr escaped with
      | none => return none
      | some escaped => watchOver body program watch rest escaped

/-- Process blocks in the order they were queued, until no flag changes or the
object may be modified. -/
def watchBlocks (body : Body) (program : Program) (graph : Graph)
    (watch : Watch) :
    Nat → List BlockId → Array (Option Bool) → Except Fault Bool
  | 0, _, _ => .ok true
  | _ + 1, [], _ => .ok false
  | steps + 1, block :: queue, flags => do
      let content ← body.block block
      let escaped := (graph.previous block).any fun source =>
        flags.getD source none == some true
      match ← body.watchOver program watch content.instructions escaped with
      | none => return true
      | some escaped =>
          if flags.getD block none = some escaped then
            watchBlocks body program graph watch steps queue flags
          else
            watchBlocks body program graph watch steps
              (queue ++ graph.next block)
              (flags.setIfInBounds block (some escaped))

/-- May the object that a value refers to be modified between its definition
and a normal exit?  The flag of a block changes at most twice. -/
def mayBeModified (body : Body) (program : Program) (consumed : List InstrId)
    (value : ValueId) : Except Fault Bool := do
  match body.definition? value with
  | none => return true
  | some definition =>
      let aliases := body.aliases value
      -- Merged with other values, the object is no longer followed.
      if aliases.any fun name => !(body.phiUsers name).isEmpty then return true
      else
        let holder := (← program.method body.method).holder
        let watch := { aliases, consumed, holder : Watch }
        let block := body.blockOf definition
        match ← body.watchOver program watch (body.after definition) false with
        | none => return true
        | some escaped =>
            let graph := body.graph
            let flags := (Array.replicate body.blocks.size none).setIfInBounds
              block (some escaped)
            body.watchBlocks program graph watch (3 * graph.edges + 2)
              (graph.next block) flags

end Body

end FlowFacts
