/-
How the program uses its members: which fields are written where, and which
classes are initialized without anyone noticing.
-/
import FlowFacts.Program.Hierarchy

namespace FlowFacts

namespace FieldDecl

/-- Is every write of the field inside `method`?  Pinned fields may be written
from outside and never qualify. -/
def isWrittenOnlyIn (definition : FieldDecl) (method : MethodId) : Bool :=
  !definition.traits.isPinned && definition.writtenOnlyIn == some method

def isFilledByConstructors (definition : FieldDecl) : Bool :=
  !definition.traits.isStatic && !definition.traits.isPinned &&
    definition.writtenOnlyInConstructors

end FieldDecl

namespace Program

def isPinnedClass (program : Program) (type : TypeId) : Bool :=
  (program.classDecl? type).any fun definition => definition.traits.isPinned

/-- Is the type a class without a definition, or one whose own initialization
can be observed? -/
def startsObservably (program : Program) (type : TypeId) : Bool :=
  match program.classDecl? type with
  | some definition => definition.traits.hasInitializerEffects
  | none => true

/-- Can initializing `type` be observed?  The classes that the holder of the
running method extends are initialized already. -/
def initializationHasEffects (program : Program) (type : TypeId)
    (running : Option MethodId) : Except Fault Bool := do
  let initialized ←
    match running with
    | some method =>
        program.isSubclass (← program.method method).holder type
    | none => pure false
  if initialized then return false
  else program.climb program.startsObservably type

end Program

end FlowFacts
