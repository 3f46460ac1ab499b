/-
Objects that other code can reach.  Once an object has been stored into a
static field, an effect on a way onwards counts as a modification of it.  A
store into an array or into a field of an object is the exception: it counts
only if it goes through a name of the object itself.
-/
import FlowFacts.Proofs.Aliases
import FlowFacts.Proofs.Watching

namespace FlowFacts

namespace Body

variable {body : Body} {program : Program} {watch : Watch}
variable {instr put : InstrId} {instrs : List InstrId} {escaped after : Bool}
variable {block : BlockId} {flags : Array (Option Bool)}

/-- How the object of a value is watched while a method runs. -/
def watchOf (body : Body) (consumed : List InstrId) (value : ValueId)
    (running : MethodDecl) : Watch where
  aliases := body.aliases value
  consumed := consumed
  holder := running.holder

/-- The instructions on a way from a definition to the end of a block. -/
inductive Follows (body : Body) (definition : InstrId) :
    BlockId → List InstrId → Prop
  | start : Follows body definition (body.blockOf definition)
      (body.after definition)
  | step {block target : BlockId} {trace : List InstrId}
      (hfollows : Follows body definition block trace)
      (hedge : target ∈ body.successors block) :
      Follows body definition target (trace ++ body.instructionsOf target)

variable {values : List ValueId} {value : ValueId}

/-- A class with a static field for an array, and a method whose calls can be
observed. -/
def publisher : Program where
  types := #[
    { descriptor := .plain "LA;"
      definition := some { parent := none, traits := {}, fields := [0],
                           methods := [0, 1] } },
    { descriptor := ⟨1, "I"⟩ }]
  fields := #[{ holder := 0, name := "f", type := 1,
                traits := { isStatic := true } }]
  methods := #[
    { holder := 0, name := "main", params := [], returns := 1
      traits := { isStatic := true } },
    { holder := 0, name := "other", params := [], returns := 1
      traits := { isStatic := true } }]

theorem publisher_covers (hmethod : body.method < 2)
    (hmentioned : ∀ instruction ∈ body.instructions,
      publisher.hasMentioned instruction.opcode = true) :
    publisher.Covers body where
  method := hmethod
  mentioned := hmentioned
  target htarget := by cases htarget
  held := by
    intro definition hdefinition field shape hknown
    obtain rfl : definition = _ := by simpa [publisher] using hdefinition
    cases hknown

theorem publisher_hasRoots : publisher.HasRoots :=
  Program.hasRoots_of_climb (by decide)

end Body

end FlowFacts
