/-
Which fields may have been read when control reaches an instruction.
-/
import FlowFacts.Body.Effect
import FlowFacts.FieldContents.FieldSet
import FlowFacts.Flow.Graph

namespace FlowFacts

/-- The reads found so far: what may be read up to the end of each block, and
which blocks have been entered. -/
structure ReadState where
  sets : Array FieldSet
  entered : List BlockId := []
deriving DecidableEq, Repr

namespace Body

/-- Any field may be read if initializing a class can be observed. -/
def readsOfStart (body : Body) (program : Program) (type : TypeId)
    (otherwise : FieldSet) : Except Fault FieldSet := do
  if ← body.startsObservably program type then return .any
  else return otherwise

/-- The fields that an instruction may read, in the code it runs included. -/
def reads (body : Body) (program : Program) (instr : InstrId) :
    Except Fault FieldSet := do
  match body.opcode instr with
  | .staticGet field =>
      body.readsOfStart program (← program.field field).holder (.singleton field)
  | .instanceGet field _ => return .singleton field
  | .staticPut field _ =>
      body.readsOfStart program (← program.field field).holder .empty
  | .newInstance type | .initClass type =>
      body.readsOfStart program type .empty
  | .call kind method _ =>
      match program.callee? kind method with
      | none => return .any
      | some target =>
          let definition ← program.method target
          let known := FieldSet.ofReads definition.facts.reads
          if definition.traits.isStatic then
            body.readsOfStart program definition.holder known
          else return known
  | _ => return .empty

/-- Add the reads of instructions in order, until any field may be read. -/
def addReads (body : Body) (program : Program) :
    List InstrId → FieldSet → Except Fault FieldSet
  | [], set => .ok set
  | instr :: rest, set => do
      let set := set.join (← body.reads program instr)
      if set.isAny then return set else addReads body program rest set

/-- The reads up to the end of a block, from those of its predecessors.  The
reads of the block itself are added when it is entered for the first time. -/
def readsUpTo (body : Body) (program : Program) (graph : Graph)
    (state : ReadState) (block : BlockId) (content : Block) :
    Except Fault FieldSet :=
  let set := (graph.previous block).foldl
    (fun set source => set.join (state.sets.getD source .empty))
    (state.sets.getD block .empty)
  if state.entered.contains block || set.isAny then .ok set
  else body.addReads program content.instructions set

/-- Process blocks in the order they were queued, until no set changes. -/
def spreadReads (body : Body) (program : Program) (graph : Graph) :
    Nat → List BlockId → ReadState → Except Fault ReadState
  | 0, _, state => .ok state
  | _ + 1, [], state => .ok state
  | steps + 1, block :: queue, state => do
      let content ← body.block block
      let old := state.sets.getD block .empty
      if state.entered.contains block && old.isAny then
        spreadReads body program graph steps queue state
      else
        let set ← body.readsUpTo program graph state block content
        if state.entered.contains block && set == old then
          spreadReads body program graph steps queue state
        else
          spreadReads body program graph steps (queue ++ graph.next block)
            { sets := state.sets.setIfInBounds block set
              entered := block :: state.entered }

/-- A bound on the number of fields that the body can read. -/
def readableFields (body : Body) (program : Program) : Nat :=
  body.instructions.size +
    (program.methods.toList.flatMap fun method =>
      method.facts.reads.getD []).length

/-- What may have been read up to the end of each block.  A set grows at most
once for every field, so no block is queued more often along an edge. -/
def readsThroughBlocks (body : Body) (program : Program) :
    Except Fault (Array FieldSet) := do
  let graph := body.graph
  let steps := graph.edges * (body.readableFields program + 3) + 2
  let state ← body.spreadReads program graph steps [Body.entry]
    { sets := Array.replicate body.blocks.size .empty }
  return state.sets

/-- May a field have been read before an instruction? -/
def mayBeReadBefore (body : Body) (program : Program) (field : FieldId)
    (instr : InstrId) : Except Fault Bool := do
  let sets ← body.readsThroughBlocks program
  let earlier := (body.predecessors (body.blockOf instr)).any fun source =>
    (sets.getD source .empty).contains field
  if earlier then return true
  else
    (body.before instr).anyM fun previous => do
      return (← body.reads program previous).contains field

end Body

end FlowFacts
