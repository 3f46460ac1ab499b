/-
What explanations of values are made of, and what exploring them collects.  A
value is made from values of the body by stores into arrays and by constructor
calls, every value that was asked for gets its explanation, and answers are
given whenever the program has all that the body mentions.
-/
import FlowFacts.Independence.Exploration
import FlowFacts.Proofs.CopyChains
import FlowFacts.Proofs.Superclasses

namespace FlowFacts

def Opcode.isConstant : Opcode → Bool
  | number _ | null | text _ | classObject _ => true
  | _ => false

namespace Program

variable {program : Program} {body : Body} {instr : InstrId}

/-- Does the program have the static field or the method that an instruction
mentions? -/
def hasMentioned (program : Program) : Opcode → Bool
  | .staticGet field | .staticPut field _ => field < program.fields.size
  | .call _ method _ => method < program.methods.size
  | _ => true

/-- The program has the method of the body, and all that is mentioned by
instructions, as the target of calls, or as the content of a field. -/
structure Covers (program : Program) (body : Body) : Prop where
  method : body.method < program.methods.size
  mentioned : ∀ instruction ∈ body.instructions,
    program.hasMentioned instruction.opcode = true
  target : ∀ {method target}, program.target? method = some target →
    target < program.methods.size
  held : ∀ definition ∈ program.fields, ∀ {field shape},
    definition.facts.knowledge = .exactly (.held field shape) →
      field < program.fields.size

theorem field_answers {field : FieldId} (hfield : field < program.fields.size) :
    Answers (program.field field) := by
  rw [Program.field, Array.getElem?_eq_getElem hfield]
  exact .ok _

theorem method_answers {method : MethodId}
    (hmethod : method < program.methods.size) :
    Answers (program.method method) := by
  rw [Program.method, Array.getElem?_eq_getElem hmethod]
  exact .ok _

theorem Covers.hasMentioned (hcovers : program.Covers body) (instr : InstrId) :
    program.hasMentioned (body.opcode instr) = true := by
  rw [Body.opcode]
  split
  · next instruction hfound =>
      exact hcovers.mentioned instruction (Array.mem_of_getElem? hfound)
  · rfl

theorem Covers.read (hcovers : program.Covers body) {field : FieldId}
    (hopcode : body.opcode instr = .staticGet field) :
    Answers (program.field field) := by
  have hmentioned := hcovers.hasMentioned instr
  rw [hopcode] at hmentioned
  exact field_answers (of_decide_eq_true hmentioned)

theorem Covers.written (hcovers : program.Covers body) {field : FieldId}
    {value : ValueId} (hopcode : body.opcode instr = .staticPut field value) :
    Answers (program.field field) := by
  have hmentioned := hcovers.hasMentioned instr
  rw [hopcode] at hmentioned
  exact field_answers (of_decide_eq_true hmentioned)

theorem Covers.called (hcovers : program.Covers body) {kind : CallKind}
    {method : MethodId} {arguments : List ValueId}
    (hopcode : body.opcode instr = .call kind method arguments) :
    Answers (program.method method) := by
  have hmentioned := hcovers.hasMentioned instr
  rw [hopcode] at hmentioned
  exact method_answers (of_decide_eq_true hmentioned)

theorem Covers.callee (hcovers : program.Covers body) {kind : CallKind}
    {method target : MethodId} {arguments : List ValueId}
    (hopcode : body.opcode instr = .call kind method arguments)
    (hcallee : program.callee? kind method = some target) :
    Answers (program.method target) := by
  rw [callee?] at hcallee
  split at hcallee
  · exact method_answers (hcovers.target hcallee)
  · obtain rfl := Option.some.inj hcallee
    exact hcovers.called hopcode

theorem circularClass_covers (hmethod : body.method = 0)
    (hmentioned : ∀ instruction ∈ body.instructions,
      circularClass.hasMentioned instruction.opcode = true) :
    circularClass.Covers body where
  method := hmethod ▸ Nat.zero_lt_one
  mentioned := hmentioned
  target htarget := by cases htarget
  held := by
    intro definition hdefinition field shape hknown
    obtain rfl : definition = _ := by simpa [circularClass] using hdefinition
    cases hknown

end Program

namespace Body

variable {body : Body} {program : Program} {value : ValueId} {instr : InstrId}

theorem startsObservably_answers (hcovers : program.Covers body)
    (hroots : program.HasRoots) (type : TypeId) :
    Answers (body.startsObservably program type) :=
  hroots.initializationHasEffects_answers type
    (Program.method_answers hcovers.method)

theorem hasEffect_answers (hcovers : program.Covers body)
    (hroots : program.HasRoots) (instr : InstrId) :
    Answers (body.hasEffect program instr) := by
  have hstarts := startsObservably_answers hcovers hroots
  rw [hasEffect]
  cases hopcode : body.opcode instr with
  | newInstance type | initClass type =>
      exact .ite (.pure true) (hstarts type)
  | staticGet field =>
      exact .bind (hcovers.read hopcode) fun _ _ => hstarts _
  | call kind method arguments =>
      apply Answers.ite (.pure true)
      cases hcallee : program.callee? kind method with
      | none => exact .pure true
      | some target =>
          exact .bind (hcovers.callee hopcode hcallee) fun definition _ =>
            .ite (.bind (hstarts definition.holder) fun _ _ => .pure _) (.pure _)
  | _ => exact .pure _

/-- A value of exactly known content is a constant, or is read from a field
with that content. -/
theorem knowledge_eq_exactly {content : KnownValue}
    (hknown : body.knowledge program value = .ok (.exactly content)) :
    (content.isConstant = true ∧ ∃ opcode,
      body.rootOpcode? value = some opcode ∧ opcode.isConstant = true) ∨
    ∃ field definition, body.rootOpcode? value = some (.staticGet field) ∧
      program.field field = .ok definition ∧
      definition.facts.knowledge = .exactly content := by
  rw [knowledge] at hknown
  split at hknown
  case h_5 field hroot =>
    obtain ⟨definition, hfield, hrest⟩ := exists_of_bind hknown
    split at hrest
    · next known hfacts =>
        obtain rfl := Knowledge.exactly.inj (Except.ok.inj hrest)
        exact Or.inr ⟨field, definition, hroot, hfield, hfacts⟩
    · cases hrest
  case h_6 => cases hknown
  all_goals
    next hroot =>
      obtain rfl := Knowledge.exactly.inj (Except.ok.inj hknown)
      exact Or.inl ⟨rfl, _, hroot, rfl⟩

variable {explanation result : Explanation} {array : ValueId} {length : Int}
variable {instrs : List InstrId}

/-- The instruction stores into the array under some name. -/
def StoresInto (body : Body) (array : ValueId) (instr : InstrId) : Prop :=
  ∃ target, body.root target = array ∧
    ((∃ index stored, body.opcode instr = .arrayPut target index stored) ∨
      ∃ data, body.opcode instr = .fillArray target data)

/-- What the next instruction does while an array is being filled. -/
theorem arrayFilling_cons
    (hfilled : body.arrayFilling program array length (instr :: instrs)
      explanation = .ok (some result)) :
    (∃ target index stored, body.opcode instr = .arrayPut target index stored ∧
      body.root target = array ∧
      (∃ place, body.number? index = some place ∧ 0 ≤ place ∧ place < length) ∧
      body.arrayFilling program array length instrs
        { explanation with
          needs := explanation.needs ++ [stored]
          consumed := explanation.consumed ++ [instr] } = .ok (some result)) ∨
    (∃ target data, body.opcode instr = .fillArray target data ∧
      body.root target = array ∧
      body.arrayFilling program array length instrs
        { explanation with consumed := explanation.consumed ++ [instr] } =
          .ok (some result)) ∨
    (¬ body.StoresInto array instr ∧
      (body.hasEffect program instr = .ok true ∧ result = explanation ∨
        body.hasEffect program instr = .ok false ∧
          body.arrayFilling program array length instrs explanation =
            .ok (some result))) := by
  have hother : (do
      if ← body.hasEffect program instr then return some explanation
      else body.arrayFilling program array length instrs explanation) =
        Except.ok (some result) →
      body.hasEffect program instr = .ok true ∧ result = explanation ∨
        body.hasEffect program instr = .ok false ∧
          body.arrayFilling program array length instrs explanation =
            .ok (some result) := by
    intro hother
    obtain ⟨effect, heffect, hrest⟩ := exists_of_bind hother
    cases effect with
    | true => exact Or.inl ⟨heffect, (Option.some.inj (Except.ok.inj hrest)).symm⟩
    | false => exact Or.inr ⟨heffect, hrest⟩
  rw [Body.arrayFilling] at hfilled
  cases hopcode : body.opcode instr with
  | arrayPut target index stored =>
      simp only [hopcode] at hfilled
      split at hfilled
      · next htarget =>
          split at hfilled
          · next hindex =>
              obtain ⟨place, hplace, hrange⟩ := (Option.any_eq_true _ _).mp hindex
              rw [Bool.and_eq_true, decide_eq_true_eq, decide_eq_true_eq] at hrange
              exact Or.inl ⟨target, index, stored, rfl, htarget,
                ⟨place, hplace, hrange⟩, hfilled⟩
          · cases hfilled
      · next htarget =>
          exact Or.inr (Or.inr ⟨by simp [StoresInto, hopcode, htarget],
            hother hfilled⟩)
  | fillArray target data =>
      simp only [hopcode] at hfilled
      split at hfilled
      · next htarget => exact Or.inr (Or.inl ⟨target, data, rfl, htarget, hfilled⟩)
      · next htarget =>
          exact Or.inr (Or.inr ⟨by simp [StoresInto, hopcode, htarget],
            hother hfilled⟩)
  | _ =>
      simp only [hopcode] at hfilled
      exact Or.inr (Or.inr ⟨by simp [StoresInto, hopcode], hother hfilled⟩)

/-- The instruction directly calls a constructor, with the object under some
name as the receiver. -/
def Constructs (body : Body) (program : Program) (object : ValueId)
    (instr : InstrId) (constructor : MethodDecl) (arguments : List ValueId) :
    Prop :=
  ∃ method, body.opcode instr = .call .direct method arguments ∧
    arguments.head?.map body.root = some object ∧
    program.method method = .ok constructor ∧
    constructor.traits.isConstructor = true

/-- Calls of constructors are what they were found as. -/
theorem constructorCall?_eq_some {object : ValueId} {call : ConstructorCall}
    (hcall : body.constructorCall? program object instr = .ok (some call)) :
    call.instr = instr ∧
      body.Constructs program object instr call.constructor call.arguments := by
  rw [constructorCall?] at hcall
  split at hcall
  · next method arguments hopcode =>
      split at hcall
      · next hreceiver =>
          obtain ⟨definition, hmethod, hrest⟩ := exists_of_bind hcall
          split at hrest
          · next hconstructor =>
              obtain rfl := Option.some.inj (Except.ok.inj hrest)
              exact ⟨rfl, method, hopcode, hreceiver, hmethod, hconstructor⟩
          · cases hrest
      · cases hcall
  · cases hcall

theorem not_constructs_of_none {object : ValueId} {constructor : MethodDecl}
    {arguments : List ValueId}
    (hcall : body.constructorCall? program object instr = .ok none) :
    ¬ body.Constructs program object instr constructor arguments := by
  rintro ⟨method, hopcode, hreceiver, hmethod, hconstructor⟩
  simp only [constructorCall?, hopcode, hreceiver, ↓reduceIte, hmethod] at hcall
  change (if constructor.traits.isConstructor = true then _ else _) = _ at hcall
  rw [if_pos hconstructor] at hcall
  cases hcall

theorem forall_none_of_soleCallAmong {object : ValueId}
    {found call : ConstructorCall}
    (hcall : body.soleCallAmong program object (some found) instrs =
      .ok (some call)) :
    call = found ∧ ∀ user ∈ instrs,
      body.constructorCall? program object user = .ok none := by
  induction instrs with
  | nil => exact ⟨(Option.some.inj (Except.ok.inj hcall)).symm, by simp⟩
  | cons user rest ih =>
      obtain ⟨next, hnext, hrest⟩ := exists_of_bind hcall
      cases next with
      | none =>
          obtain ⟨heq, hnone⟩ := ih hrest
          exact ⟨heq, List.forall_mem_cons.mpr ⟨hnext, hnone⟩⟩
      | some second => cases hrest

/-- The only constructor call among users is one of them, and no other user
is such a call. -/
theorem soleCallAmong_eq_some {object : ValueId} {call : ConstructorCall}
    (hcall : body.soleCallAmong program object none instrs = .ok (some call)) :
    call.instr ∈ instrs ∧
      body.constructorCall? program object call.instr = .ok (some call) ∧
      ∀ user ∈ instrs, user ≠ call.instr →
        body.constructorCall? program object user = .ok none := by
  induction instrs with
  | nil => cases hcall
  | cons user rest ih =>
      obtain ⟨next, hnext, hrest⟩ := exists_of_bind hcall
      cases next with
      | none =>
          obtain ⟨hmem, hfound, hnone⟩ := ih hrest
          exact ⟨List.mem_cons_of_mem user hmem, hfound,
            List.forall_mem_cons.mpr ⟨fun _ => hnext, hnone⟩⟩
      | some found =>
          obtain ⟨rfl, hnone⟩ := forall_none_of_soleCallAmong hrest
          obtain ⟨hinstr, _⟩ := constructorCall?_eq_some hnext
          rw [hinstr]
          exact ⟨List.mem_cons_self, hnext, List.forall_mem_cons.mpr
            ⟨fun hne => absurd rfl hne, fun other hother _ => hnone other hother⟩⟩

/-- A new array of known length, with the elements it is created with. -/
inductive NewArray (body : Body) : Opcode → List ValueId → Int → Prop
  | empty {type : TypeId} {size : ValueId} {length : Int}
      (hsize : body.number? size = some length) (hlength : 0 ≤ length) :
      NewArray body (.newArray type size) [] length
  | filled {type : TypeId} {elements : List ValueId} :
      NewArray body (.filledArray type elements) elements elements.length

/-- The ways in which values are explained. -/
inductive Explains (body : Body) (program : Program) :
    ValueId → Explanation → Prop
  | copy {value : ValueId} (hvalue : value < body.values.size)
      (hroot : body.root value ≠ value) :
      Explains body program value { needs := [body.root value] }
  | constant {value : ValueId} (hroot : body.root value = value)
      (hknown : body.isKnownConstant program value = .ok true) :
      Explains body program value {}
  | logical {value : ValueId} {definition : InstrId} {operator : Operator}
      {left right : ValueId} (hdefinition : body.definition? value = some definition)
      (hopcode : body.opcode definition = .binary operator left right)
      (hlogical : operator.isLogical = true) :
      Explains body program value { needs := [left, right] }
  | status {value : ValueId} {definition : InstrId}
      (hdefinition : body.definition? value = some definition)
      (hasks : body.asksAssertionStatus program (body.opcode definition) = true) :
      Explains body program value {}
  | array {value : ValueId} {definition : InstrId} {elements : List ValueId}
      {length : Int} {explanation : Explanation}
      (hdefinition : body.definition? value = some definition)
      (hnew : body.NewArray (body.opcode definition) elements length)
      (hfilled : body.arrayFilling program value length (body.after definition)
        { needs := elements, isMutable := true } = .ok (some explanation)) :
      Explains body program value explanation
  | object {value : ValueId} {definition : InstrId} {type : TypeId}
      {classDef : ClassDecl} {call : ConstructorCall} {isMutable : Bool}
      (hdefinition : body.definition? value = some definition)
      (hopcode : body.opcode definition = .newInstance type)
      (hclass : program.classDecl? type = some classDef)
      (hprogram : classDef.traits.isLibrary = false)
      (hquiet : body.startsObservably program type = .ok false)
      (hcall : body.soleConstructorCall? program value = .ok (some call))
      (hblock : body.blockOf call.instr = body.blockOf definition)
      (htrivial : (call.constructor.facts.constructs.any
        ConstructorSummary.isTrivial) = true) :
      Explains body program value
        { needs := call.arguments.tail, consumed := [call.instr], isMutable }

theorem explains_of_explainArray {definition : InstrId} {opcode : Opcode}
    (hdefinition : body.definition? value = some definition)
    (hopcode : body.opcode definition = opcode)
    (hexplain : body.explainArray program value definition opcode =
      .ok (some explanation)) : body.Explains program value explanation := by
  cases opcode with
  | newArray type size =>
      rw [explainArray] at hexplain
      split at hexplain
      · next length hsize =>
          split at hexplain
          · next hlength =>
              exact .array hdefinition (hopcode ▸ .empty hsize hlength) hexplain
          · cases hexplain
      · cases hexplain
  | filledArray type elements =>
      exact .array hdefinition (hopcode ▸ .filled) hexplain
  | _ => cases hexplain

theorem explains_of_explainObject {definition : InstrId} {type : TypeId}
    (hdefinition : body.definition? value = some definition)
    (hopcode : body.opcode definition = .newInstance type)
    (hexplain : body.explainObject program value definition type =
      .ok (some explanation)) : body.Explains program value explanation := by
  rw [explainObject] at hexplain
  split at hexplain
  · cases hexplain
  · next classDef hclass =>
      split at hexplain
      · cases hexplain
      · next hprogram =>
          obtain ⟨starts, hstarts, hexplain⟩ := exists_of_bind hexplain
          cases starts with
          | true => cases hexplain
          | false =>
              obtain ⟨sole, hsole, hexplain⟩ := exists_of_bind hexplain
              split at hexplain
              · next call =>
                  dsimp only at hexplain
                  split at hexplain
                  · next hcall =>
                      rw [Bool.and_eq_true, decide_eq_true_eq] at hcall
                      obtain ⟨fields, _, hexplain⟩ := exists_of_bind hexplain
                      obtain rfl := Option.some.inj (Except.ok.inj hexplain)
                      exact .object hdefinition hopcode hclass
                        (by simpa using hprogram) hstarts hsole hcall.1 hcall.2
                  · cases hexplain
              · cases hexplain

theorem explains_of_explainDefined
    (hexplain : body.explainDefined program value = .ok (some explanation)) :
    body.Explains program value explanation := by
  rw [explainDefined] at hexplain
  split at hexplain
  · cases hexplain
  · next definition hdefinition =>
      split at hexplain
      · next type hopcode =>
          exact explains_of_explainObject hdefinition hopcode hexplain
      · next operator left right hopcode =>
          split at hexplain
          · next hlogical =>
              obtain rfl := Option.some.inj (Except.ok.inj hexplain)
              exact .logical hdefinition hopcode hlogical
          · cases hexplain
      · split at hexplain
        · next hasks =>
            obtain rfl := Option.some.inj (Except.ok.inj hexplain)
            exact .status hdefinition hasks
        · exact explains_of_explainArray hdefinition rfl hexplain

/-- Every explanation is given in one of these ways. -/
theorem explains_of_explain
    (hexplain : body.explain program value = .ok (some explanation)) :
    body.Explains program value explanation := by
  obtain ⟨content, hvalue, hexplain⟩ := exists_of_bind hexplain
  dsimp only at hexplain
  split at hexplain
  · next hroot =>
      obtain rfl := Option.some.inj (Except.ok.inj hexplain)
      exact .copy (Array.getElem?_eq_some_iff.mp (value_eq_ok.mp hvalue)).1 hroot
  · next hroot =>
      obtain ⟨isConstant, hknown, hexplain⟩ := exists_of_bind hexplain
      cases isConstant with
      | true =>
          obtain rfl := Option.some.inj (Except.ok.inj hexplain)
          exact .constant (not_not.mp hroot) hknown
      | false => exact explains_of_explainDefined hexplain

/-- Made from values of the body, without a store into a static field. -/
structure Made (body : Body) (explanation : Explanation) : Prop where
  need_lt : ∀ need ∈ explanation.needs, need < body.values.size
  not_staticPut : ∀ instr ∈ explanation.consumed, ∀ field value,
    body.opcode instr ≠ .staticPut field value

theorem Made.extend (hmade : body.Made explanation) {needs : List ValueId}
    (hneeds : ∀ need ∈ needs, need < body.values.size)
    (hinstr : ∀ field value, body.opcode instr ≠ .staticPut field value) :
    body.Made { explanation with
      needs := explanation.needs ++ needs
      consumed := explanation.consumed ++ [instr] } where
  need_lt need hneed := by
    rcases List.mem_append.mp hneed with hold | hnew
    · exact hmade.need_lt need hold
    · exact hneeds need hnew
  not_staticPut other hother := by
    rcases List.mem_append.mp hother with hold | hnew
    · exact hmade.not_staticPut other hold
    · obtain rfl := List.mem_singleton.mp hnew
      exact hinstr

theorem Made.arrayFilling (hbody : body.WellFormed)
    (hmade : body.Made explanation)
    (hfilled : body.arrayFilling program array length instrs explanation =
      .ok (some result)) : body.Made result := by
  induction instrs generalizing explanation with
  | nil =>
      obtain rfl := Option.some.inj (Except.ok.inj hfilled)
      exact hmade
  | cons instr rest ih =>
      rcases arrayFilling_cons hfilled with
        ⟨target, index, stored, hopcode, _, _, hfilled⟩ |
        ⟨target, data, hopcode, _, hfilled⟩ | ⟨_, ⟨_, rfl⟩ | ⟨_, hfilled⟩⟩
      · have hstored : stored ∈ (body.opcode instr).inputs := by
          simp [hopcode, Opcode.inputs]
        refine ih (hmade.extend ?_ (by simp [hopcode])) hfilled
        exact List.forall_mem_singleton.mpr (hbody.input_lt hstored)
      · have hinstr : ∀ field value, body.opcode instr ≠ .staticPut field value := by
          simp [hopcode]
        have hextended := hmade.extend (List.forall_mem_nil _) hinstr
        rw [List.append_nil] at hextended
        exact ih hextended hfilled
      · exact hmade
      · exact ih hmade hfilled

end Body

namespace Exploration

variable {body : Body} {program : Program} {exploration : Exploration}
variable {value : ValueId} {explanation : Explanation}

theorem mem_seen_enqueue {other : ValueId} :
    other ∈ (exploration.enqueue value).seen ↔
      other = value ∨ other ∈ exploration.seen := by
  rw [enqueue]
  split
  · next hseen =>
      have hseen : value ∈ exploration.seen := by simpa using hseen
      constructor
      · exact Or.inr
      · rintro (rfl | hother)
        · exact hseen
        · exact hother
  · exact List.mem_cons

/-- No store into a static field took part, and every value seen is still to
be explained or is marked if its explanation says so. -/
structure Sound (body : Body) (program : Program) (exploration : Exploration) :
    Prop where
  not_staticPut : ∀ instr ∈ exploration.consumed, ∀ field value,
    body.opcode instr ≠ .staticPut field value
  marked : ∀ value ∈ exploration.seen, value ∈ exploration.pending ∨
    ∀ explanation, body.explain program value = .ok (some explanation) →
      explanation.isMutable = true → value ∈ exploration.mutables

theorem Sound.enqueue (hsound : exploration.Sound body program)
    (value : ValueId) : (exploration.enqueue value).Sound body program := by
  rw [Exploration.enqueue]
  split
  · exact hsound
  · refine ⟨hsound.not_staticPut, ?_⟩
    intro other hother
    rcases List.mem_cons.mp hother with rfl | hother
    · exact Or.inl List.mem_cons_self
    · exact (hsound.marked other hother).imp_left (List.mem_cons_of_mem value)

/-- A pending value that gets its explanation is no longer pending. -/
theorem Sound.note (hsound : exploration.Sound body program)
    {pending : List ValueId} (hpending : exploration.pending = value :: pending)
    (hexplain : body.explain program value = .ok (some explanation))
    (hmade : body.Made explanation) :
    ({ exploration with pending }.note value explanation).Sound body program := by
  rw [Exploration.note]
  apply List.foldlRecOn
  · refine ⟨?_, ?_⟩
    · intro instr hinstr
      rcases List.mem_append.mp hinstr with hold | hnew
      · exact hsound.not_staticPut instr hold
      · exact hmade.not_staticPut instr hnew
    · intro other hother
      rcases hsound.marked other hother with hwaiting | hmarked
      · rw [hpending] at hwaiting
        rcases List.mem_cons.mp hwaiting with rfl | hwaiting
        · right
          intro again hagain hmutable
          obtain rfl := Option.some.inj (Except.ok.inj (hexplain.symm.trans hagain))
          simp [hmutable]
        · exact Or.inl hwaiting
      · right
        intro again hagain hmutable
        have hmem := hmarked again hagain hmutable
        dsimp only
        split
        · exact List.mem_append_left _ hmem
        · exact hmem
  · intro later hlater need _
    have hlinked : Sound body program
        { later with graph := later.graph.addDependency value need } :=
      ⟨hlater.not_staticPut, hlater.marked⟩
    exact hlinked.enqueue need

theorem mem_seen_note {other : ValueId} :
    other ∈ (exploration.note value explanation).seen ↔
      other ∈ explanation.needs ∨ other ∈ exploration.seen := by
  have hneeds : ∀ (needs : List ValueId) (start : Exploration),
      other ∈ (needs.foldl (fun later need =>
        { later with graph := later.graph.addDependency value need }.enqueue need)
          start).seen ↔ other ∈ needs ∨ other ∈ start.seen := by
    intro needs
    induction needs with
    | nil => simp
    | cons need needs ih =>
        intro start
        rw [List.foldl_cons, ih, mem_seen_enqueue, List.mem_cons]
        tauto
  exact hneeds explanation.needs _

theorem sound_start (values : List ValueId) :
    (values.foldl enqueue {}).Sound body program := by
  apply List.foldlRecOn
  · exact ⟨by simp, by simp⟩
  · exact fun _ hsound value _ => hsound.enqueue value

theorem mem_seen_start {values : List ValueId} {other : ValueId} :
    other ∈ (values.foldl enqueue exploration).seen ↔
      other ∈ values ∨ other ∈ exploration.seen := by
  induction values generalizing exploration with
  | nil => simp
  | cons head tail ih =>
      rw [List.foldl_cons, ih, mem_seen_enqueue, List.mem_cons]
      tauto

end Exploration

namespace Body

variable {body : Body} {program : Program} {values : List ValueId}
variable {steps : Nat} {exploration result : Exploration}

/-- What noting the explanation of a pending value keeps holds when all have
been explained. -/
theorem explore_rule {P : Exploration → Prop}
    (hnote : ∀ {exploration value pending explanation},
      exploration.pending = value :: pending →
      body.explain program value = .ok (some explanation) → P exploration →
      P ({ exploration with pending }.note value explanation))
    (hstart : P exploration)
    (hexplore : body.explore program steps exploration = .ok (some result)) :
    P result ∧ result.pending = [] := by
  induction steps generalizing exploration with
  | zero => cases hexplore
  | succ steps ih =>
      rw [explore] at hexplore
      split at hexplore
      · next hpending =>
          obtain rfl := Option.some.inj (Except.ok.inj hexplore)
          exact ⟨hstart, hpending⟩
      · next value pending hpending =>
          obtain ⟨explained, hexplain, hrest⟩ := exists_of_bind hexplore
          cases explained with
          | none => cases hrest
          | some explanation =>
              exact ih (hnote hpending hexplain hstart) hrest

/-- The values have been explained, with all they were made from. -/
def explored (body : Body) (program : Program) (values : List ValueId) :
    Except Fault (Option Exploration) :=
  body.explore program (body.values.size + values.length + 1)
    (values.foldl Exploration.enqueue {})

end Body

end FlowFacts
