/-
The whole program: types by descriptor, the classes defined for them, fields,
methods, and the targets that calls are known to have.
-/
import FlowFacts.Fact.Summary

namespace FlowFacts

/-- Properties of a class. -/
structure ClassTraits where
  isInterface : Bool := false
  isEnum : Bool := false
  /-- Defined outside the program, without code. -/
  isLibrary : Bool := false
  /-- Kept as it is; it may be used in ways the program does not show. -/
  isPinned : Bool := false
  /-- Initializing the class can be observed. -/
  hasInitializerEffects : Bool := false
deriving DecidableEq, Repr

/-- Properties of a field. -/
structure FieldTraits where
  isStatic : Bool := false
  isFinal : Bool := false
  /-- The field holds a constant of an enum. -/
  isEnum : Bool := false
  isPinned : Bool := false
deriving DecidableEq, Repr

/-- Properties of a method. -/
structure MethodTraits where
  isStatic : Bool := false
  isConstructor : Bool := false
  isClassInitializer : Bool := false
  isLibrary : Bool := false
deriving DecidableEq, Repr

/-- The definition of a class. -/
structure ClassDecl where
  parent : Option TypeId
  traits : ClassTraits
  interfaces : List TypeId := []
  initializer : Option MethodId := none
  fields : List FieldId := []
  methods : List MethodId := []
deriving DecidableEq, Repr

/-- A type together with its definition, if it is a class that has one. -/
structure TypeEntry where
  descriptor : Descriptor
  definition : Option ClassDecl := none
deriving DecidableEq, Repr

/-- The definition of a field. -/
structure FieldDecl where
  holder : TypeId
  name : String
  type : TypeId
  traits : FieldTraits
  /-- The one method that contains every write of the field. -/
  writtenOnlyIn : Option MethodId := none
  /-- Is every write of the field inside a constructor of its class? -/
  writtenOnlyInConstructors : Bool := false
  facts : FieldFacts := {}

/-- The definition of a method. -/
structure MethodDecl where
  holder : TypeId
  name : String
  /-- The declared parameters, without the receiver. -/
  params : List TypeId
  returns : TypeId
  traits : MethodTraits
  facts : MethodFacts := {}

namespace MethodDecl

/-- The number of arguments, the receiver included. -/
def arity (method : MethodDecl) : Nat :=
  method.params.length + if method.traits.isStatic then 0 else 1

/-- The declared type of an argument; argument `0` is the receiver. -/
def argumentType? (method : MethodDecl) (index : Nat) : Option TypeId :=
  if method.traits.isStatic then method.params[index]?
  else
    match index with
    | 0 => some method.holder
    | index + 1 => method.params[index]?

end MethodDecl

/-- A program and what is known about it. -/
structure Program where
  types : Array TypeEntry
  /-- The numbers of the descriptors that have been mentioned. -/
  numbers : List (Descriptor × TypeId) := []
  /-- The element types of the array types. -/
  elements : Table TypeId := .empty
  fields : Array FieldDecl := #[]
  methods : Array MethodDecl := #[]
  /-- Calls of the first method always arrive at the second. -/
  targets : Table MethodId := .empty

namespace Program

def descriptor (program : Program) (type : TypeId) : Descriptor :=
  match program.types[type]? with
  | some entry => entry.descriptor
  | none => .plain ""

/-- The number of a type that has been mentioned before. -/
def lookup? (program : Program) (descriptor : Descriptor) : Option TypeId :=
  program.numbers.lookup descriptor

/-- Add a type at the end, under the next number. -/
def addType (program : Program) (descriptor : Descriptor) : Program :=
  { program with
    types := program.types.push { descriptor }
    numbers := (descriptor, program.types.size) :: program.numbers }

def setElement (program : Program) (type element : TypeId) : Program :=
  { program with elements := program.elements.insert type element }

/-- Mention a name under array brackets and give its number.  A new type gets
the next number.  The elements of a new array are mentioned after it has its
number, and noted with it when they have theirs. -/
def internUnder (program : Program) (name : String) : Nat → TypeId × Program
  | 0 =>
      match program.lookup? ⟨0, name⟩ with
      | some type => (type, program)
      | none => (program.types.size, program.addType ⟨0, name⟩)
  | dimensions + 1 =>
      match program.lookup? ⟨dimensions + 1, name⟩ with
      | some type => (type, program)
      | none =>
          let type := program.types.size
          let added := program.addType ⟨dimensions + 1, name⟩
          let (element, after) := internUnder added name dimensions
          (type, after.setElement type element)

/-- Mention a type and give its number. -/
def intern (program : Program) (descriptor : Descriptor) : TypeId × Program :=
  program.internUnder descriptor.name descriptor.dimensions

def sort (program : Program) (type : TypeId) : TypeSort :=
  (program.descriptor type).sort

def isReference (program : Program) (type : TypeId) : Bool :=
  (program.sort type).isReference

def element? (program : Program) (type : TypeId) : Option TypeId :=
  program.elements.find? type

def classDecl? (program : Program) (type : TypeId) : Option ClassDecl :=
  program.types[type]?.bind TypeEntry.definition

def field (program : Program) (field : FieldId) : Except Fault FieldDecl :=
  match program.fields[field]? with
  | some definition => .ok definition
  | none => .error (.noField field)

def method (program : Program) (method : MethodId) : Except Fault MethodDecl :=
  match program.methods[method]? with
  | some definition => .ok definition
  | none => .error (.noMethod method)

theorem field_eq_ok {program : Program} {field : FieldId}
    {definition : FieldDecl} :
    program.field field = .ok definition ↔
      program.fields[field]? = some definition := by
  rw [Program.field]
  cases program.fields[field]? <;> simp

theorem method_eq_ok {program : Program} {method : MethodId}
    {definition : MethodDecl} :
    program.method method = .ok definition ↔
      program.methods[method]? = some definition := by
  rw [Program.method]
  cases program.methods[method]? <;> simp

/-- Change the definition of a class that has one. -/
def updateClass (program : Program) (type : TypeId)
    (change : ClassDecl → ClassDecl) : Program :=
  { program with
    types := program.types.modify type fun entry =>
      { entry with definition := entry.definition.map change } }

/-- Define a class.  An earlier definition is forgotten, members included. -/
def defineClass (program : Program) (type : TypeId) (parent : Option TypeId)
    (traits : ClassTraits) : Program :=
  { program with
    types := program.types.modify type fun entry =>
      { entry with definition := some { parent, traits } } }

/-- Let a defined class implement one more interface. -/
def addInterface (program : Program) (type interface : TypeId) : Program :=
  program.updateClass type fun definition =>
    { definition with interfaces := definition.interfaces ++ [interface] }

/-- Declare a field; its class lists it if the class is defined. -/
def addField (program : Program) (definition : FieldDecl) : FieldId × Program :=
  let id := program.fields.size
  (id, { program with fields := program.fields.push definition }.updateClass
    definition.holder fun holder =>
      { holder with fields := holder.fields ++ [id] })

/-- Declare a method; its class lists it if the class is defined, and takes it
as its initializer if it is one. -/
def addMethod (program : Program) (definition : MethodDecl) :
    MethodId × Program :=
  let id := program.methods.size
  (id, { program with methods := program.methods.push definition }.updateClass
    definition.holder fun holder =>
      { holder with
        methods := holder.methods ++ [id]
        initializer :=
          if definition.traits.isClassInitializer then some id
          else holder.initializer })

def updateField (program : Program) (field : FieldId)
    (change : FieldDecl → FieldDecl) : Except Fault Program := do
  let definition ← program.field field
  return { program with
    fields := program.fields.setIfInBounds field (change definition) }

def updateMethod (program : Program) (method : MethodId)
    (change : MethodDecl → MethodDecl) : Except Fault Program := do
  let definition ← program.method method
  return { program with
    methods := program.methods.setIfInBounds method (change definition) }

/-- Record that calls of a method always arrive at `target`. -/
def setTarget (program : Program) (method target : MethodId) : Program :=
  { program with targets := program.targets.insert method target }

def target? (program : Program) (method : MethodId) : Option MethodId :=
  program.targets.find? method

end Program

end FlowFacts
