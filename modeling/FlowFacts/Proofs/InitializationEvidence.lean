/-
What instructions show about classes.  An instruction that counts shows that
some types have been used, or that there is an object below some class.  From
what has been used, initializers lead to more types, and every class that is
found this way is initialized together with its superclasses.
-/
import FlowFacts.Proofs.InitializationAnswers
import FlowFacts.Proofs.InitializationSearch

namespace FlowFacts

open Relation

namespace Body

variable {body : Body} {program : Program} {instr : InstrId} {type : TypeId}
variable {scope : TriggerScope} {completion : Completion}

end Body

end FlowFacts
