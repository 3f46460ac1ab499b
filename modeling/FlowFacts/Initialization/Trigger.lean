/-
Which classes are certainly initialized once an instruction has executed.
Knowing one class to be initialized tells of others: its superclasses, and
whatever its initializer is known to initialize.
-/
import FlowFacts.Body.Effect

namespace FlowFacts

/-- How an instruction may initialize a class. -/
inductive TriggerScope
  /-- The class itself is used. -/
  | direct
  /-- Also through a callee, a subclass, or another class initializer. -/
  | transitive
deriving DecidableEq, Repr

/-- What is known about how an instruction ended. -/
inductive Completion
  /-- It completed normally. -/
  | normal
  /-- It was started, and may have thrown before it did anything. -/
  | unknown
deriving DecidableEq, Repr

namespace Program

def initializedWith (program : Program) (type : TypeId) : List TypeId :=
  match program.sort type with
  | .object =>
      match (program.classDecl? type).bind ClassDecl.initializer with
      | some method =>
          match program.methods[method]? with
          | some definition => definition.facts.initialized
          | none => []
      | none => []
  | _ => []

def isInitializedWith (program : Program) (known : List TypeId)
    (type : TypeId) : Except Fault Bool :=
  (closure program.initializedWith program.types.size known).anyM fun known =>
    if program.sort known == .object then program.isSubclass known type
    else pure false

/-- Is a class initialized once `holder` has been used, and all that is known
to come with it? -/
def isInitializedBy (program : Program) (scope : TriggerScope)
    (holder : TypeId) (others : List TypeId) (type : TypeId) :
    Except Fault Bool :=
  match scope with
  | .direct => .ok (holder == type)
  | .transitive => program.isInitializedWith (holder :: others) type

end Program

namespace Body

/-- The class of an argument: that of the value passed, or else the declared
one. -/
def argumentClass? (body : Body) (definition : MethodDecl)
    (arguments : List ValueId) (index : Nat) : Option TypeId :=
  (arguments[index]?.bind fun argument => (body.typeOf argument).referred?)
    <|> definition.argumentType? index

/-- The types known to be initialized, besides its holder, when a method has
returned: those it names, and the classes of arguments that were not null. -/
def initializedByCall (body : Body) (definition : MethodDecl)
    (arguments : List ValueId) : List TypeId :=
  let receiver := if definition.traits.isStatic then [] else [0]
  definition.facts.initialized ++
    (receiver ++ definition.facts.nonNullArguments).filterMap
      (body.argumentClass? definition arguments)

def isInitializedByCall (body : Body) (program : Program)
    (scope : TriggerScope) (method : MethodId) (arguments : List ValueId)
    (type : TypeId) : Except Fault Bool := do
  let definition ← program.method method
  program.isInitializedBy scope definition.holder
    (body.initializedByCall definition arguments) type

/-- Is a class certainly initialized after an instruction? -/
def triggers (body : Body) (program : Program) (scope : TriggerScope)
    (completion : Completion) (instr : InstrId) (type : TypeId) :
    Except Fault Bool := do
  match body.opcode instr with
  | .initClass used | .newInstance used =>
      if completion == .normal && (program.classDecl? used).isSome then
        program.isInitializedBy scope used [] type
      else return false
  | .staticGet field | .staticPut field _ =>
      match completion with
      | .unknown => return false
      | .normal =>
          program.isInitializedBy scope (← program.field field).holder [] type
  | .instanceGet field object | .instancePut field object _ =>
      -- An object exists, so its class has been initialized.
      if completion == .normal || body.isNonNull object then
        program.isInitializedBy scope (← program.field field).holder [] type
      else return false
  | .call .static method arguments =>
      match completion with
      | .unknown => return false
      | .normal =>
          body.isInitializedByCall program scope
            ((program.target? method).getD method) arguments type
  | .call .direct method arguments =>
      if completion == .normal || arguments.head?.any body.isNonNull then
        body.isInitializedByCall program scope method arguments type
      else return false
  | .call kind method arguments =>
      match scope with
      | .direct => return false
      | .transitive =>
          if completion == .normal || arguments.head?.any body.isNonNull then
            match program.target? method with
            | some target =>
                body.isInitializedByCall program scope target arguments type
            | none =>
                -- An interface says nothing about the class of the receiver.
                if kind == .interface then return false
                else
                  program.isSubclass (← program.method method).holder type
          else return false
  | _ => return false

end Body

end FlowFacts
