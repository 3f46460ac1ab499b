/-
What is known only once a method has returned.  An instruction that may have
thrown tells nothing through such knowledge, except a call on a receiver that
is not null: it is taken to have returned, and what is known about its callee
counts.
-/
import FlowFacts.Initialization.Trigger

namespace FlowFacts

/-- The method without what is known only once it has returned. -/
def MethodDecl.withoutExitFacts (definition : MethodDecl) : MethodDecl :=
  { definition with
    facts := { definition.facts with initialized := [], nonNullArguments := [] } }

namespace Program

variable {first second : Program}

/-- The programs differ at most in what is known once methods have returned
that are not the initializer of a class. -/
structure SameButExitFacts (first second : Program) : Prop where
  types : first.types = second.types
  fields : first.fields = second.fields
  targets : first.targets = second.targets
  methods : ∀ method : MethodId,
    (first.methods[method]?).map MethodDecl.withoutExitFacts =
      (second.methods[method]?).map MethodDecl.withoutExitFacts
  initializers : ∀ {type : TypeId} {definition : ClassDecl} {method : MethodId},
    first.classDecl? type = some definition →
      definition.initializer = some method →
        first.methods[method]? = second.methods[method]?

namespace SameButExitFacts

theorem classDecl?_eq (hsame : first.SameButExitFacts second) (type : TypeId) :
    first.classDecl? type = second.classDecl? type := by
  rw [classDecl?, classDecl?, hsame.types]

theorem sort_eq (hsame : first.SameButExitFacts second) (type : TypeId) :
    first.sort type = second.sort type := by
  rw [sort, sort, descriptor, descriptor, hsame.types]

theorem field_eq (hsame : first.SameButExitFacts second) (field : FieldId) :
    first.field field = second.field field := by
  rw [Program.field, Program.field, hsame.fields]

theorem target?_eq (hsame : first.SameButExitFacts second) (method : MethodId) :
    first.target? method = second.target? method := by
  rw [target?, target?, hsame.targets]

theorem lineage_eq (hsame : first.SameButExitFacts second)
    (wanted : TypeId → Bool) (steps : Nat) (type : TypeId) :
    first.lineage wanted steps type = second.lineage wanted steps type := by
  induction steps generalizing type with
  | zero => rfl
  | succ steps ih =>
      rw [lineage, lineage, parent?, parent?, hsame.classDecl?_eq]
      cases (second.classDecl? type).bind ClassDecl.parent with
      | none => rfl
      | some parent => simp only [ih]

theorem isSubclass_eq (hsame : first.SameButExitFacts second)
    (sub sup : TypeId) : first.isSubclass sub sup = second.isSubclass sub sup := by
  rw [isSubclass, isSubclass, climb, climb, superclasses, superclasses,
    hsame.types, hsame.lineage_eq]

/-- Class initializers are known alike, so classes are initialized with each
other alike. -/
theorem initializedWith_eq (hsame : first.SameButExitFacts second) :
    first.initializedWith = second.initializedWith := by
  funext type
  rw [initializedWith, initializedWith, hsame.sort_eq, ← hsame.classDecl?_eq]
  cases hdefinition : first.classDecl? type with
  | none => rfl
  | some definition =>
      cases hinitializer : definition.initializer with
      | none => simp only [Option.bind_some, hinitializer]
      | some method =>
          simp only [Option.bind_some, hinitializer,
            hsame.initializers hdefinition hinitializer]

theorem isInitializedBy_eq (hsame : first.SameButExitFacts second)
    (scope : TriggerScope) (holder : TypeId) (others : List TypeId)
    (type : TypeId) :
    first.isInitializedBy scope holder others type =
      second.isInitializedBy scope holder others type := by
  cases scope with
  | direct => rfl
  | transitive =>
      simp only [isInitializedBy, isInitializedWith, hsame.initializedWith_eq,
        hsame.types, hsame.sort_eq, hsame.isSubclass_eq]

/-- A method has the same holder, or is missing, in both. -/
theorem holder_eq (hsame : first.SameButExitFacts second) (method : MethodId) :
    MethodDecl.holder <$> first.method method =
      MethodDecl.holder <$> second.method method := by
  have hmethod := hsame.methods method
  rw [Program.method, Program.method]
  cases hfirst : first.methods[method]? <;>
    cases hsecond : second.methods[method]? <;>
    simp only [hfirst, hsecond, Option.map_some, Option.map_none,
      reduceCtorEq, Option.some.injEq] at hmethod
  · rfl
  · next a b =>
      have hholder := congrArg MethodDecl.holder hmethod
      exact congrArg Except.ok hholder

end SameButExitFacts

end Program

namespace Body

variable {body : Body} {first second : Program} {instr : InstrId}

theorem isInitializedByCall_eq (hsame : first.SameButExitFacts second)
    {method : MethodId}
    (hmethod : first.methods[method]? = second.methods[method]?)
    (scope : TriggerScope) (arguments : List ValueId) (type : TypeId) :
    body.isInitializedByCall first scope method arguments type =
      body.isInitializedByCall second scope method arguments type := by
  simp only [isInitializedByCall, Program.method, hmethod,
    hsame.isInitializedBy_eq]

theorem isSubclass_holder_eq (hsame : first.SameButExitFacts second)
    (method : MethodId) (type : TypeId) :
    (do first.isSubclass (← first.method method).holder type) =
      (do second.isSubclass (← second.method method).holder type) := by
  calc (do first.isSubclass (← first.method method).holder type)
      = MethodDecl.holder <$> first.method method >>=
          (first.isSubclass · type) := by
        simp
    _ = MethodDecl.holder <$> second.method method >>=
          (second.isSubclass · type) := by
        simp only [hsame.holder_eq, hsame.isSubclass_eq]
    _ = (do second.isSubclass (← second.method method).holder type) := by
        simp

/-- If an instruction may have thrown, what is known once methods have
returned does not matter, unless the instruction calls a method on a receiver
that is not null and what is known of this method differs. -/
theorem triggers_unknown_eq (hsame : first.SameButExitFacts second)
    (hcallee : ∀ kind method arguments callee,
      body.opcode instr = .call kind method arguments →
      kind.hasReceiver = true → arguments.head?.any body.isNonNull = true →
      first.callee? kind method = some callee →
      first.methods[callee]? = second.methods[callee]?)
    (scope : TriggerScope) (type : TypeId) :
    body.triggers first scope .unknown instr type =
      body.triggers second scope .unknown instr type := by
  simp only [triggers]
  cases hopcode : body.opcode instr with
  | call kind method arguments =>
      by_cases hreceiver : arguments.head?.any body.isNonNull = true
      · cases kind with
        | static => rfl
        | direct =>
            simp only [isInitializedByCall_eq hsame
              (hcallee _ _ _ method hopcode rfl hreceiver rfl)]
        | _ =>
            cases scope with
            | direct => rfl
            | transitive =>
                simp only [← hsame.target?_eq]
                cases htarget : first.target? method with
                | none => simp only [isSubclass_holder_eq hsame]
                | some target =>
                    simp only [isInitializedByCall_eq hsame
                      (hcallee _ _ _ target hopcode rfl hreceiver htarget)]
      · cases kind <;> simp [hreceiver]
  | _ =>
      simp only [hsame.classDecl?_eq, hsame.field_eq, hsame.isInitializedBy_eq]

/-- Two classes, and two methods of the first one.  Once the second method has
returned, the given classes are known to be initialized. -/
def twoMethods (known : List TypeId) : Program where
  types := #[
    { descriptor := .plain "LA;"
      definition := some { parent := none, traits := {}, methods := [0, 1] } },
    { descriptor := .plain "LB;"
      definition := some { parent := none, traits := {} } }]
  methods := #[
    { holder := 0, name := "first", params := [], returns := 0, traits := {}
      facts := { initialized := [1] } },
    { holder := 0, name := "second", params := [], returns := 0, traits := {}
      facts := { initialized := known } }]

theorem twoMethods_same (known : List TypeId) :
    (twoMethods []).SameButExitFacts (twoMethods known) where
  types := rfl
  fields := rfl
  targets := rfl
  methods method := by
    match method with
    | 0 => rfl
    | 1 => rfl
    | _ + 2 => rfl
  initializers := by
    intro type definition method hdefinition hinitializer
    match type with
    | 0 | 1 =>
        obtain rfl := Option.some.inj hdefinition
        cases hinitializer
    | _ + 2 => cases hdefinition

/-- A method is called on an argument that is not null. -/
def callOnArgument (method : MethodId) : Body where
  method := 0
  isStatic := true
  values := #[{ type := .reference (.object 0) .nonNull
                definition := .instruction 0, users := [1] }]
  instructions := #[⟨0, .argument 0, some 0⟩, ⟨0, .call .direct method [0], none⟩,
    ⟨0, .ret none, none⟩]
  blocks := #[⟨[0, 1, 2], [], []⟩]
  positions := #[0, 1, 2]
  incoming := #[[]]

theorem callOnArgument_triggers_eq :
    (twoMethods []).SameButExitFacts (twoMethods [1]) ∧
      (callOnArgument 0).triggers (twoMethods []) .transitive .unknown 1 1 =
        (callOnArgument 0).triggers (twoMethods [1]) .transitive .unknown 1 1 := by
  refine ⟨twoMethods_same [1],
    triggers_unknown_eq (twoMethods_same [1]) ?_ .transitive 1⟩
  intro kind method arguments callee hopcode _ _ hcallee
  obtain ⟨rfl, rfl, rfl⟩ := Opcode.call.inj hopcode
  obtain rfl := Option.some.inj hcallee
  rfl

/-- A call that may have thrown initializes what is initialized only once its
callee has returned. -/
theorem callOnArgument_triggers_ne :
    (twoMethods []).SameButExitFacts (twoMethods [1]) ∧
      (∀ definition ∈ (twoMethods []).methods,
        definition.traits.isClassInitializer = false) ∧
      (callOnArgument 1).triggers (twoMethods []) .transitive .unknown 1 1 =
        .ok false ∧
      (callOnArgument 1).triggers (twoMethods [1]) .transitive .unknown 1 1 =
        .ok true :=
  ⟨twoMethods_same [1], by simp [twoMethods], rfl, rfl⟩

end Body

end FlowFacts
