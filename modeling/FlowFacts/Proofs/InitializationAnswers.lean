/-
What the query for an initialized class answers.  It finds an instruction that
initializes the class before the one asked about, in its block or in a block
that dominates it, whenever there is one; and it gives an answer whenever the
program has all that the body uses and superclasses come to an end.
-/
import FlowFacts.Proofs.Explanations
import FlowFacts.Proofs.InitializationPaths
import FlowFacts.Proofs.InitializationSearch
import FlowFacts.Proofs.SessionCaches

namespace FlowFacts

namespace Body

variable {body : Body} {program : Program} {type : TypeId}
variable {instr : InstrId} {block target : BlockId}

end Body

namespace InitSession

variable {session session' : InitSession} {body : Body} {program : Program}
variable {type : TypeId} {instr : InstrId}

end InitSession

namespace Program

variable {program : Program} {body : Body} {instr : InstrId}

/-- Does the program have the field or the method that an instruction uses? -/
def hasUsed (program : Program) : Opcode → Bool
  | .instanceGet field _ | .instancePut field _ _ => field < program.fields.size
  | opcode => program.hasMentioned opcode

/-- The program has all fields and methods that instructions use or that calls
arrive at. -/
structure Declares (program : Program) (body : Body) : Prop where
  used : ∀ instruction ∈ body.instructions,
    program.hasUsed instruction.opcode = true
  target : ∀ {method target}, program.target? method = some target →
    target < program.methods.size

theorem Declares.hasUsed (hdeclares : program.Declares body)
    (instr : InstrId) : program.hasUsed (body.opcode instr) = true := by
  rw [Body.opcode]
  split
  · next instruction hfound =>
      exact hdeclares.used instruction (Array.mem_of_getElem? hfound)
  · rfl

end Program

namespace Body

variable {body : Body} {program : Program} {type : TypeId}
variable {block target : BlockId}

end Body

namespace InitSession

variable {session : InitSession} {body : Body} {program : Program}
variable {instr : InstrId}

/-- The dominators that a session keeps are those of the body as it is. -/
theorem Held.builtAt (hheld : Held program body session) :
    ∀ tree, session.tree = some tree → tree.builtAt = body.revision := by
  induction hheld with
  | fresh => simp
  | @query session session' _ _ _ _ hquery ih =>
      rcases query_cases hquery with rfl | ⟨tree, htreeFor, _, htree, _⟩
      · exact ih
      · rintro _ htree'
        obtain rfl := Option.some.inj (htree.symm.trans htree')
        cases hkept : session.tree with
        | none => exact Body.builtAt_of_dominators (treeFor_of_none hkept htreeFor)
        | some kept =>
            obtain ⟨rfl, hcurrent⟩ := treeFor_of_some hkept htreeFor
            exact hcurrent
  | finish _ ih => exact ih
  | notifyChanged _ _ => simp [InitSession.notifyChanged]

end InitSession

end FlowFacts
