/-
Values that are found not to depend on the environment.  The values explored
are closed under what they were made from, and each of them is made by one of
a few rules: none of them is read from an argument, from an object or from a
field of unknown content.
-/
import FlowFacts.Proofs.Edits
import FlowFacts.Proofs.Explanations

namespace FlowFacts

open Relation

/-- Is the content of a field a constant, or a constant of an enum? -/
def Program.isFixed (program : Program) (content : KnownValue) : Bool :=
  match content with
  | .held field _ => (program.fields[field]?).any fun held => held.traits.isEnum
  | content => content.isConstant

/-- Could what the instruction gives differ from run to run, even if its
operands do not? -/
def Opcode.readsEnvironment (program : Program) : Opcode → Bool
  | number _ | null | text _ | classObject _ => false
  | newInstance _ | newArray .. | filledArray .. => false
  | binary operator _ _ => !operator.isLogical
  | staticGet field =>
      !(program.fields[field]?).any fun definition =>
        definition.facts.knowledge.single?.any program.isFixed
  | call kind method _ =>
      !(kind == .virtual && method == WellKnown.desiredAssertionStatus)
  | _ => true

namespace Body

variable {body : Body} {program : Program} {value array : ValueId}
variable {instrs : List InstrId} {instr store : InstrId} {length : Int}
variable {explanation result : Explanation}

/-- The store into the array is among the instructions, and no other
instruction before it can be observed. -/
inductive FilledBy (body : Body) (program : Program) (array : ValueId) :
    List InstrId → InstrId → Prop
  | here {store : InstrId} {rest : List InstrId}
      (hstore : body.StoresInto array store) :
      FilledBy body program array (store :: rest) store
  | later {instr store : InstrId} {rest : List InstrId}
      (hquiet : body.StoresInto array instr ∨
        body.hasEffect program instr = .ok false)
      (hrest : FilledBy body program array rest store) :
      FilledBy body program array (instr :: rest) store

theorem FilledBy.storesInto (hfilled : body.FilledBy program array instrs store) :
    body.StoresInto array store := by
  induction hfilled with
  | here hstore => exact hstore
  | later _ _ ih => exact ih

theorem filledBy_cons : body.FilledBy program array (instr :: instrs) store ↔
    instr = store ∧ body.StoresInto array store ∨
      (body.StoresInto array instr ∨ body.hasEffect program instr = .ok false) ∧
        body.FilledBy program array instrs store := by
  constructor
  · intro hfilled
    cases hfilled with
    | here hstore => exact Or.inl ⟨rfl, hstore⟩
    | later hquiet hrest => exact Or.inr ⟨hquiet, hrest⟩
  · rintro (⟨rfl, hstore⟩ | ⟨hquiet, hrest⟩)
    · exact .here hstore
    · exact .later hquiet hrest

/-- The stores that take part in making an array are those that fill it. -/
theorem mem_consumed_arrayFilling
    (hfilled : body.arrayFilling program array length instrs explanation =
      .ok (some result)) :
    store ∈ result.consumed ↔
      store ∈ explanation.consumed ∨ body.FilledBy program array instrs store := by
  induction instrs generalizing explanation with
  | nil =>
      obtain rfl := Option.some.inj (Except.ok.inj hfilled)
      exact ⟨Or.inl, fun h => h.resolve_right nofun⟩
  | cons instr rest ih =>
      -- Both kinds of stores add the instruction to those that took part.
      have hstored : body.StoresInto array instr →
          (store ∈ explanation.consumed ++ [instr] ∨
            body.FilledBy program array rest store ↔
          store ∈ explanation.consumed ∨
            body.FilledBy program array (instr :: rest) store) := by
        intro hstore
        rw [filledBy_cons, List.mem_append, List.mem_singleton]
        grind
      rcases arrayFilling_cons hfilled with
        ⟨target, index, stored, hopcode, htarget, _, hfilled⟩ |
        ⟨target, data, hopcode, htarget, hfilled⟩ |
        ⟨hother, ⟨heffect, rfl⟩ | ⟨heffect, hfilled⟩⟩
      · exact (ih hfilled).trans
          (hstored ⟨target, htarget, Or.inl ⟨index, stored, hopcode⟩⟩)
      · exact (ih hfilled).trans (hstored ⟨target, htarget, Or.inr ⟨data, hopcode⟩⟩)
      · rw [filledBy_cons, heffect]
        grind
      · rw [ih hfilled, filledBy_cons, heffect]
        grind

theorem needs_subset_arrayFilling
    (hfilled : body.arrayFilling program array length instrs explanation =
      .ok (some result)) : explanation.needs ⊆ result.needs := by
  induction instrs generalizing explanation with
  | nil =>
      obtain rfl := Option.some.inj (Except.ok.inj hfilled)
      exact List.Subset.refl _
  | cons instr rest ih =>
      rcases arrayFilling_cons hfilled with ⟨_, _, stored, _, _, _, hfilled⟩ |
        ⟨_, _, _, _, hfilled⟩ | ⟨_, ⟨_, rfl⟩ | ⟨_, hfilled⟩⟩
      · exact List.Subset.trans (List.subset_append_left _ [stored]) (ih hfilled)
      · simpa using ih hfilled
      · exact List.Subset.refl _
      · exact ih hfilled

/-- What fills an array is needed to make it, and is stored within the
array. -/
theorem stored_mem_needs {target index stored : ValueId}
    (hfilled : body.arrayFilling program array length instrs explanation =
      .ok (some result))
    (hstore : body.FilledBy program array instrs store)
    (hopcode : body.opcode store = .arrayPut target index stored) :
    stored ∈ result.needs ∧
      ∃ place, body.number? index = some place ∧ 0 ≤ place ∧ place < length := by
  induction instrs generalizing explanation with
  | nil => cases hstore
  | cons instr rest ih =>
      rcases arrayFilling_cons hfilled with
        ⟨target', index', stored', hopcode', _, hplace, hfilled⟩ |
        ⟨_, _, hopcode', _, hfilled⟩ | ⟨hother, ⟨heffect, _⟩ | ⟨_, hfilled⟩⟩
      · cases hstore with
        | here =>
            rw [hopcode', Opcode.arrayPut.injEq] at hopcode
            obtain ⟨rfl, rfl, rfl⟩ := hopcode
            exact ⟨needs_subset_arrayFilling hfilled (by simp), hplace⟩
        | later _ hrest => exact ih hfilled hrest
      · cases hstore with
        | here => rw [hopcode'] at hopcode; cases hopcode
        | later _ hrest => exact ih hfilled hrest
      · cases hstore with
        | here hstore => exact absurd hstore hother
        | later hquiet _ =>
            rcases hquiet with hstore | hquiet
            · exact absurd hstore hother
            · rw [heffect] at hquiet; cases hquiet
      · cases hstore with
        | here hstore => exact absurd hstore hother
        | later _ hrest => exact ih hfilled hrest

/-- The value is made from known values by one of the rules for values that do
not depend on the environment. -/
inductive Independent (body : Body) (program : Program) (known : List ValueId)
    (consumed : List InstrId) : ValueId → Prop
  | copy {value source : ValueId} (hcopy : body.copied? value = some source)
      (hroot : body.root value ∈ known) :
      Independent body program known consumed value
  | constant {value : ValueId} {opcode : Opcode}
      (hdefined : body.definingOpcode? value = some opcode)
      (hconstant : opcode.isConstant = true) :
      Independent body program known consumed value
  | content {value : ValueId} {field : FieldId} {definition : FieldDecl}
      {content : KnownValue}
      (hdefined : body.definingOpcode? value = some (.staticGet field))
      (hfield : program.field field = .ok definition)
      (hcontent : definition.facts.knowledge = .exactly content)
      (hfixed : program.isFixed content = true) :
      Independent body program known consumed value
  | logical {value : ValueId} {operator : Operator} {left right : ValueId}
      (hdefined : body.definingOpcode? value = some (.binary operator left right))
      (hlogical : operator.isLogical = true) (hleft : left ∈ known)
      (hright : right ∈ known) : Independent body program known consumed value
  | status {value receiver : ValueId} {arguments : List ValueId} {type : TypeId}
      {classDef : ClassDecl}
      (hdefined : body.definingOpcode? value =
        some (.call .virtual WellKnown.desiredAssertionStatus
          (receiver :: arguments)))
      (hreceiver : body.rootOpcode? receiver = some (.classObject type))
      (hclass : program.classDecl? type = some classDef)
      (hprogram : classDef.traits.isLibrary = false)
      (hpinned : classDef.traits.isPinned = false) :
      Independent body program known consumed value
  | array {value : ValueId} {definition : InstrId} {elements : List ValueId}
      {length : Int} (hdefinition : body.definition? value = some definition)
      (hnew : body.NewArray (body.opcode definition) elements length)
      (helements : elements ⊆ known)
      -- Of the stores into the array, those that fill it took part.
      (hfilling : ∀ store, body.StoresInto value store →
        (store ∈ consumed ↔
          body.FilledBy program value (body.after definition) store))
      (hstored : ∀ store ∈ consumed, ∀ target index stored,
        body.opcode store = .arrayPut target index stored →
        body.root target = value →
        stored ∈ known ∧ ∃ place, body.number? index = some place ∧
          0 ≤ place ∧ place < length) :
      Independent body program known consumed value
  | object {value : ValueId} {definition call : InstrId} {type : TypeId}
      {classDef : ClassDecl} {constructor : MethodDecl}
      {arguments : List ValueId}
      (hdefinition : body.definition? value = some definition)
      (hopcode : body.opcode definition = .newInstance type)
      (hclass : program.classDecl? type = some classDef)
      (hprogram : classDef.traits.isLibrary = false)
      (hquiet : body.startsObservably program type = .ok false)
      (hreads : value ∈ (body.opcode call).inputs)
      (hcall : body.Constructs program value call constructor arguments)
      (hsole : ∀ user other arguments, value ∈ (body.opcode user).inputs →
        body.Constructs program value user other arguments → user = call)
      (hblock : body.blockOf call = body.blockOf definition)
      (htrivial : (constructor.facts.constructs.any
        ConstructorSummary.isTrivial) = true)
      (harguments : arguments.tail ⊆ known) :
      Independent body program known consumed value

variable {known : List ValueId} {consumed : List InstrId} {definition : InstrId}

theorem definingOpcode?_eq (hdefinition : body.definition? value = some definition) :
    body.definingOpcode? value = some (body.opcode definition) := by
  rw [definingOpcode?, hdefinition, Option.map_some]

/-- The value behind a copy is known with it; any other value is given by an
instruction that reads nothing from the environment. -/
theorem Independent.copy_or_defined
    (hvalue : body.Independent program known consumed value) :
    ((body.copied? value).isSome = true ∧ body.root value ∈ known) ∨
      ∃ opcode, body.definingOpcode? value = some opcode ∧
        opcode.copied? = none ∧ opcode.readsEnvironment program = false := by
  cases hvalue with
  | copy hcopy hroot => exact Or.inl ⟨by rw [hcopy]; rfl, hroot⟩
  | @constant opcode hdefined hconstant =>
      refine Or.inr ⟨opcode, hdefined, ?_⟩
      cases opcode with
      | number | null | text | classObject => exact ⟨rfl, rfl⟩
      | _ => cases hconstant
  | content hdefined hfield hcontent hfixed =>
      have hfound := Program.field_eq_ok.mp hfield
      refine Or.inr ⟨_, hdefined, rfl, ?_⟩
      simp [Opcode.readsEnvironment, hfound, hcontent, Knowledge.single?, hfixed]
  | logical hdefined hlogical _ _ =>
      exact Or.inr ⟨_, hdefined, rfl, by simp [Opcode.readsEnvironment, hlogical]⟩
  | status hdefined _ _ _ _ => exact Or.inr ⟨_, hdefined, rfl, rfl⟩
  | array hdefinition hnew _ _ _ =>
      refine Or.inr ⟨_, definingOpcode?_eq hdefinition, ?_⟩
      generalize body.opcode _ = opcode at hnew
      cases hnew with
      | empty => exact ⟨rfl, rfl⟩
      | filled => exact ⟨rfl, rfl⟩
  | object hdefinition hopcode _ _ _ _ _ _ _ _ _ =>
      refine Or.inr ⟨_, definingOpcode?_eq hdefinition, ?_⟩
      rw [hopcode]
      exact ⟨rfl, rfl⟩

end Body

namespace Exploration

variable {body : Body} {program : Program} {exploration before after : Exploration}
variable {value : ValueId} {explanation : Explanation}

/-- Values were put on the list, and nothing else has changed. -/
structure Enlarges (after before : Exploration) : Prop where
  consumed_eq : after.consumed = before.consumed
  pending_subset : before.pending ⊆ after.pending
  fresh : ∀ value ∈ after.seen, value ∈ before.seen ∨ value ∈ after.pending

theorem Enlarges.refl (exploration : Exploration) :
    exploration.Enlarges exploration :=
  ⟨rfl, List.Subset.refl _, fun _ => Or.inl⟩

theorem Enlarges.enqueue (henlarges : after.Enlarges before) (value : ValueId) :
    (after.enqueue value).Enlarges before := by
  rw [Exploration.enqueue]
  split
  · exact henlarges
  · refine ⟨henlarges.consumed_eq,
      List.subset_cons_of_subset value henlarges.pending_subset, ?_⟩
    intro other hother
    rcases List.mem_cons.mp hother with rfl | hother
    · exact Or.inr List.mem_cons_self
    · exact (henlarges.fresh other hother).imp_right (List.mem_cons_of_mem value)

/-- What every value seen was made from has been seen too, unless the value is
still to be explained; and instructions took part for a value. -/
structure Closed (body : Body) (program : Program) (exploration : Exploration) :
    Prop where
  explained : ∀ value ∈ exploration.seen, value ∈ exploration.pending ∨
    ∃ explanation, body.explain program value = .ok (some explanation) ∧
      explanation.needs ⊆ exploration.seen ∧
      explanation.consumed ⊆ exploration.consumed
  took_part : ∀ instr ∈ exploration.consumed, ∃ value explanation,
    body.explain program value = .ok (some explanation) ∧
      instr ∈ explanation.consumed

theorem closed_start (values : List ValueId) :
    (values.foldl enqueue {}).Closed body program := by
  have henlarges : (values.foldl enqueue {}).Enlarges {} := by
    apply List.foldlRecOn (motive := fun later => Enlarges later {})
    · exact .refl _
    · exact fun _ hlater value _ => hlater.enqueue value
  constructor
  · intro value hvalue
    exact Or.inl ((henlarges.fresh value hvalue).resolve_left List.not_mem_nil)
  · intro instr hinstr
    rw [henlarges.consumed_eq] at hinstr
    cases hinstr

theorem note_enlarges : (exploration.note value explanation).Enlarges
    { exploration with
      consumed := exploration.consumed ++ explanation.consumed } := by
  rw [Exploration.note]
  apply List.foldlRecOn (motive := fun later : Exploration => later.Enlarges
    { exploration with
      consumed := exploration.consumed ++ explanation.consumed })
  · exact ⟨rfl, List.Subset.refl _, fun _ => Or.inl⟩
  · intro later hlater need _
    have hlinked : Enlarges
        { later with graph := later.graph.addDependency value need }
        { exploration with
          consumed := exploration.consumed ++ explanation.consumed } :=
      ⟨hlater.consumed_eq, hlater.pending_subset, hlater.fresh⟩
    exact hlinked.enqueue need

/-- A pending value that gets its explanation is explained from then on. -/
theorem Closed.note (hclosed : exploration.Closed body program)
    {pending : List ValueId} (hpending : exploration.pending = value :: pending)
    (hexplain : body.explain program value = .ok (some explanation)) :
    ({ exploration with pending }.note value explanation).Closed body program := by
  have henlarges :
      ({ exploration with pending }.note value explanation).Enlarges _ :=
    note_enlarges
  constructor
  · intro other hother
    rcases henlarges.fresh other hother with hold | hfresh
    · rcases hclosed.explained other hold with hwaiting | hexplained
      · rw [hpending] at hwaiting
        rcases List.mem_cons.mp hwaiting with rfl | hwaiting
        · refine Or.inr ⟨explanation, hexplain, ?_, ?_⟩
          · exact fun need hneed => mem_seen_note.mpr (Or.inl hneed)
          · rw [henlarges.consumed_eq]
            exact List.subset_append_right _ _
        · exact Or.inl (henlarges.pending_subset hwaiting)
      · obtain ⟨earlier, hearlier, hneeds, hconsumed⟩ := hexplained
        refine Or.inr ⟨earlier, hearlier, ?_, ?_⟩
        · exact fun need hneed => mem_seen_note.mpr (Or.inr (hneeds hneed))
        · rw [henlarges.consumed_eq]
          exact List.subset_append_of_subset_left _ hconsumed
    · exact Or.inl hfresh
  · intro instr hinstr
    rw [henlarges.consumed_eq] at hinstr
    rcases List.mem_append.mp hinstr with hold | hnew
    · exact hclosed.took_part instr hold
    · exact ⟨value, explanation, hexplain, hnew⟩

end Exploration

namespace Body

variable {body : Body} {program : Program} {value : ValueId}
variable {values : List ValueId} {exploration : Exploration}
variable {explanation : Explanation}

/-- A store into an array takes part in making that array only. -/
theorem eq_of_consumed {store : InstrId} {array : ValueId}
    (hexplain : body.explain program value = .ok (some explanation))
    (hconsumed : store ∈ explanation.consumed)
    (hstore : body.StoresInto array store) : value = array := by
  obtain ⟨target, htarget, hopcode⟩ := hstore
  cases explains_of_explain hexplain with
  | copy | constant | logical | status => cases hconsumed
  | array _ _ hfilled =>
      obtain ⟨target', htarget', hopcode'⟩ :=
        (((mem_consumed_arrayFilling hfilled).mp hconsumed).resolve_left
          List.not_mem_nil).storesInto
      have hsame : target = target' := by
        rcases hopcode with ⟨_, _, hopcode⟩ | ⟨_, hopcode⟩
        · simpa [hopcode] using hopcode'
        · simpa [hopcode] using hopcode'
      rw [← htarget, ← htarget', hsame]
  | object _ _ _ _ _ hcall _ _ =>
      obtain ⟨_, hfound, _⟩ := soleCallAmong_eq_some hcall
      obtain ⟨_, method, hcall, _⟩ := constructorCall?_eq_some hfound
      rw [List.mem_singleton.mp hconsumed, hcall] at hopcode
      simp at hopcode

theorem isKnownConstant_eq_true
    (hknown : body.isKnownConstant program value = .ok true) :
    (∃ opcode, body.rootOpcode? value = some opcode ∧ opcode.isConstant = true) ∨
    ∃ field definition content, body.rootOpcode? value = some (.staticGet field) ∧
      program.field field = .ok definition ∧
      definition.facts.knowledge = .exactly content ∧
      program.isFixed content = true := by
  rw [isKnownConstant] at hknown
  split at hknown
  · next hconstant =>
      rw [isConstant] at hconstant
      split at hconstant
      case h_5 => cases hconstant
      all_goals next hroot => exact Or.inl ⟨_, hroot, rfl⟩
  · obtain ⟨known, hknowledge, hknown⟩ := exists_of_bind hknown
    have hfixed : ∃ content, known = .exactly content ∧
        program.isFixed content = true := by
      split at hknown
      · next held shape =>
          obtain ⟨heldDef, hheld, hknown⟩ := exists_of_bind hknown
          refine ⟨_, rfl, ?_⟩
          rw [Program.isFixed, Program.field_eq_ok.mp hheld]
          exact Except.ok.inj hknown
      · next content hother =>
          refine ⟨content, rfl, ?_⟩
          cases content with
          | held field shape => exact absurd rfl (hother field shape)
          | _ => rfl
      · cases hknown
    obtain ⟨content, rfl, hfixed⟩ := hfixed
    rcases knowledge_eq_exactly hknowledge with
      ⟨_, hconstant⟩ | ⟨field, definition, hroot, hfield, hcontent⟩
    · exact Or.inl hconstant
    · exact Or.inr ⟨field, definition, content, hroot, hfield, hcontent, hfixed⟩

theorem asksAssertionStatus_eq_true {opcode : Opcode}
    (hasks : body.asksAssertionStatus program opcode = true) :
    ∃ receiver arguments type classDef,
      opcode = .call .virtual WellKnown.desiredAssertionStatus
        (receiver :: arguments) ∧
      body.rootOpcode? receiver = some (.classObject type) ∧
      program.classDecl? type = some classDef ∧
      classDef.traits.isLibrary = false ∧ classDef.traits.isPinned = false := by
  unfold asksAssertionStatus at hasks
  split at hasks
  · next method receiver arguments =>
      obtain ⟨hmethod, hreceiver⟩ := Bool.and_eq_true_iff.mp hasks
      obtain rfl := eq_of_beq hmethod
      split at hreceiver
      · next type hroot =>
          obtain ⟨hclass, hpinned⟩ := Bool.and_eq_true_iff.mp hreceiver
          obtain ⟨classDef, hfound, hprogram⟩ := (Option.any_eq_true _ _).mp hclass
          refine ⟨receiver, arguments, type, classDef, rfl, hroot, hfound, ?_, ?_⟩
          · simpa using hprogram
          · simpa [Program.isPinnedClass, hfound] using hpinned
      · cases hreceiver
  · cases hasks

/-- An explained value is independent if all it needs is known. -/
theorem independent_of_explain (hbody : body.Indexed)
    (hclosed : exploration.Closed body program)
    (hexplain : body.explain program value = .ok (some explanation))
    (hneeds : explanation.needs ⊆ exploration.seen)
    (hconsumed : explanation.consumed ⊆ exploration.consumed) :
    body.Independent program exploration.seen exploration.consumed value := by
  cases explains_of_explain hexplain with
  | copy _ hroot =>
      cases hcopy : body.copied? value with
      | none => exact absurd (follow_of_copied?_eq_none hcopy _) hroot
      | some source => exact .copy hcopy (hneeds List.mem_cons_self)
  | constant hroot hknown =>
      have hroots : body.rootOpcode? value = body.definingOpcode? value := by
        rw [rootOpcode?, hroot]
      rcases isKnownConstant_eq_true hknown with ⟨opcode, hopcode, hconstant⟩ |
        ⟨field, definition, content, hopcode, hfield, hcontent, hfixed⟩
      · exact .constant (hroots ▸ hopcode) hconstant
      · exact .content (hroots ▸ hopcode) hfield hcontent hfixed
  | logical hdefinition hopcode hlogical =>
      exact .logical (hopcode ▸ definingOpcode?_eq hdefinition) hlogical
        (hneeds (by simp)) (hneeds (by simp))
  | status hdefinition hasks =>
      obtain ⟨receiver, arguments, type, classDef, hopcode, hreceiver, hclass,
        hprogram, hpinned⟩ := asksAssertionStatus_eq_true hasks
      exact .status (hopcode ▸ definingOpcode?_eq hdefinition) hreceiver hclass
        hprogram hpinned
  | @array definition elements length _ hdefinition hnew hfilled =>
      have hfilling : ∀ store, body.StoresInto value store →
          (store ∈ exploration.consumed ↔
            body.FilledBy program value (body.after definition) store) := by
        intro store hstore
        constructor
        · intro hmem
          -- Whatever the store took part for, it must be this array.
          obtain ⟨other, again, hagain, hmem⟩ := hclosed.took_part store hmem
          obtain rfl := eq_of_consumed hagain hmem hstore
          obtain rfl := Option.some.inj (Except.ok.inj (hexplain.symm.trans hagain))
          exact ((mem_consumed_arrayFilling hfilled).mp hmem).resolve_left
            List.not_mem_nil
        · intro hfills
          exact hconsumed ((mem_consumed_arrayFilling hfilled).mpr (Or.inr hfills))
      refine .array hdefinition hnew ?_ hfilling ?_
      · exact List.Subset.trans (needs_subset_arrayFilling hfilled) hneeds
      · intro store hmem target index stored hopcode htarget
        have hstore : body.StoresInto value store :=
          ⟨target, htarget, Or.inl ⟨index, stored, hopcode⟩⟩
        obtain ⟨hneed, hplace⟩ :=
          stored_mem_needs hfilled ((hfilling store hstore).mp hmem) hopcode
        exact ⟨hneeds hneed, hplace⟩
  | object hdefinition hopcode hclass hprogram hquiet hcall hblock htrivial =>
      obtain ⟨huser, hfound, hnone⟩ := soleCallAmong_eq_some hcall
      refine .object hdefinition hopcode hclass hprogram hquiet
        (hbody.mem_users.mp huser) (constructorCall?_eq_some hfound).2 ?_ hblock
        htrivial hneeds
      intro user other arguments hinput hconstructs
      by_contra hne
      exact not_constructs_of_none (hnone user (hbody.mem_users.mpr hinput) hne)
        hconstructs

theorem explored_closed
    (hexplored : body.explored program values = .ok (some exploration)) :
    exploration.Closed body program ∧ exploration.pending = [] ∧
      values ⊆ exploration.seen := by
  have hkept := explore_rule
    (P := fun later => later.Closed body program ∧ values ⊆ later.seen)
    (fun hpending hexplain hlater => ⟨hlater.1.note hpending hexplain,
      fun _ hother => Exploration.mem_seen_note.mpr (Or.inr (hlater.2 hother))⟩)
    ⟨Exploration.closed_start values,
      fun _ hvalue => Exploration.mem_seen_start.mpr (Or.inl hvalue)⟩ hexplored
  exact ⟨hkept.1.1, hkept.2, hkept.1.2⟩

theorem exists_explored
    (hanswer : body.mayDependOnEnvironment program values = .ok false) :
    ∃ exploration, body.explored program values = .ok (some exploration) := by
  obtain ⟨found, hexplored, hrest⟩ := exists_of_bind hanswer
  cases found with
  | none => cases hrest
  | some exploration => exact ⟨exploration, hexplored⟩

/-- Behind its copies, a value is given by an instruction that reads nothing
from the environment, if the values known are independent. -/
theorem rootOpcode?_of_independent {known : List ValueId} {consumed : List InstrId}
    (hends : ∀ value < body.values.size, ∃ last,
      ReflTransGen body.Renames value last ∧ body.copied? last = none)
    (hknown : ∀ value ∈ known, body.Independent program known consumed value)
    (hvalue : value ∈ known) :
    ∃ opcode, body.rootOpcode? value = some opcode ∧
      opcode.readsEnvironment program = false := by
  rcases (hknown value hvalue).copy_or_defined with
    ⟨hcopy, hroot⟩ | ⟨opcode, hdefined, hcopied, hreads⟩
  · -- The value behind the copies is known too, and is no copy itself.
    obtain ⟨source, hcopy⟩ := Option.isSome_iff_exists.mp hcopy
    obtain ⟨last, hchain, hlast⟩ := hends value (lt_size_of_copied? hcopy)
    rw [← root_eq_of_chain hchain hlast] at hlast
    rcases (hknown _ hroot).copy_or_defined with
      ⟨hcopy', _⟩ | ⟨opcode, hdefined, _, hreads⟩
    · rw [hlast] at hcopy'
      cases hcopy'
    · exact ⟨opcode, hdefined, hreads⟩
  · have hroot : body.root value = value :=
      follow_of_copied?_eq_none ((copied?_eq hdefined).trans hcopied) _
    exact ⟨opcode, by rw [rootOpcode?, hroot, hdefined], hreads⟩

/-- Values that are found independent lie in a set of values that are each
made from others of the set by one of the rules, so no value of the set is
read from the environment under any name. -/
theorem independent_of_mayDependOnEnvironment_eq_false
    (haccepted : body.Accepted)
    (hends : ∀ value < body.values.size, ∃ last,
      ReflTransGen body.Renames value last ∧ body.copied? last = none)
    (hanswer : body.mayDependOnEnvironment program values = .ok false) :
    ∃ exploration, body.explored program values = .ok (some exploration) ∧
      values ⊆ exploration.seen ∧
      (∀ value ∈ exploration.seen,
        body.Independent program exploration.seen exploration.consumed value) ∧
      ∀ value ∈ exploration.seen, ∃ opcode,
        body.rootOpcode? value = some opcode ∧
          opcode.readsEnvironment program = false := by
  obtain ⟨exploration, hexplored⟩ := exists_explored hanswer
  obtain ⟨hclosed, hpending, hvalues⟩ := explored_closed hexplored
  have hknown : ∀ value ∈ exploration.seen,
      body.Independent program exploration.seen exploration.consumed value := by
    intro value hvalue
    rcases hclosed.explained value hvalue with hwaiting | hexplained
    · rw [hpending] at hwaiting
      cases hwaiting
    · obtain ⟨explanation, hexplain, hneeds, hconsumed⟩ := hexplained
      exact independent_of_explain haccepted.indexed.1 hclosed hexplain hneeds
        hconsumed
  exact ⟨exploration, hexplored, hvalues, hknown,
    fun value hvalue => rootOpcode?_of_independent hends hknown hvalue⟩

/-- An enum with one constant, whose constructor only fills fields. -/
def colours : Program where
  types := #[
    { descriptor := .plain "LColour;"
      definition := some { parent := none, traits := { isEnum := true }
                           fields := [0], methods := [1, 2] } },
    { descriptor := ⟨1, "LColour;"⟩ }]
  fields := #[{ holder := 0, name := "RED", type := 0
                traits := { isStatic := true, isFinal := true, isEnum := true }
                facts := { knowledge := .exactly (.held 0 .blank) } }]
  methods := #[
    { holder := 2, name := "desiredAssertionStatus", params := [], returns := 3
      traits := {} },
    { holder := 0, name := "main", params := [], returns := 3
      traits := { isStatic := true } },
    { holder := 0, name := "<init>", params := [3], returns := 3
      traits := { isConstructor := true }
      facts := { constructs := some
                   { otherEffects := false, receiverEscapes := false } } }]

/-- The constant is stored into a new array under another name, and an object
is made from a number that was computed. -/
def paints : Body where
  method := 1
  isStatic := true
  values := #[
    { type := .primitive .int, definition := .instruction 0, users := [5, 8] },
    { type := .primitive .int, definition := .instruction 1, users := [7, 8] },
    { type := .reference (.object 0) .maybe, definition := .instruction 2
      users := [7] },
    { type := .reference (.object 2) .nonNull, definition := .instruction 3
      users := [4] },
    { type := .primitive .boolean, definition := .instruction 4, users := [] },
    { type := .reference (.array 1) .nonNull, definition := .instruction 5
      users := [6] },
    { type := .reference (.array 1) .nonNull, definition := .instruction 6
      users := [7] },
    { type := .primitive .int, definition := .instruction 8, users := [10] },
    { type := .reference (.object 0) .nonNull, definition := .instruction 9
      users := [10] }]
  instructions := #[⟨0, .number 2, some 0⟩, ⟨0, .number 1, some 1⟩,
    ⟨0, .staticGet 0, some 2⟩, ⟨0, .classObject 0, some 3⟩,
    ⟨0, .call .virtual 0 [3], some 4⟩, ⟨0, .newArray 1 0, some 5⟩,
    ⟨0, .move 5, some 6⟩, ⟨0, .arrayPut 6 1 2, none⟩,
    ⟨0, .binary .xor 0 1, some 7⟩, ⟨0, .newInstance 0, some 8⟩,
    ⟨0, .call .direct 2 [8, 7], none⟩, ⟨0, .ret none, none⟩]
  blocks := #[⟨[0, 1, 2, 3, 4, 5, 6, 7, 8, 9, 10, 11], [], []⟩]
  positions := #[0, 1, 2, 3, 4, 5, 6, 7, 8, 9, 10, 11]
  incoming := #[[]]

theorem paints_accepted : paints.Accepted :=
  ⟨1, true,
    [.block, .value 0 (.number 2) (.primitive .int),
      .value 0 (.number 1) (.primitive .int),
      .value 0 (.staticGet 0) (.reference (.object 0) .maybe),
      .value 0 (.classObject 0) (.reference (.object 2) .nonNull),
      .value 0 (.call .virtual 0 [3]) (.primitive .boolean),
      .value 0 (.newArray 1 0) (.reference (.array 1) .nonNull),
      .value 0 (.move 5) (.reference (.array 1) .nonNull),
      .push 0 (.arrayPut 6 1 2),
      .value 0 (.binary .xor 0 1) (.primitive .int),
      .value 0 (.newInstance 0) (.reference (.object 0) .nonNull),
      .push 0 (.call .direct 2 [8, 7]), .push 0 (.ret none)],
    _, _, rfl, by decide +kernel⟩

theorem paints_independent :
    paints.Accepted ∧
      paints.mayDependOnEnvironment colours [4, 6, 8] = .ok false ∧
      ∃ exploration,
        paints.explored colours [4, 6, 8] = .ok (some exploration) ∧
        [4, 6, 8] ⊆ exploration.seen ∧
        ∀ value ∈ exploration.seen, paints.Independent colours exploration.seen
          exploration.consumed value := by
  have hends : ∀ value < paints.values.size,
      paints.copied? (paints.root value) = none := by decide
  have hanswer : paints.mayDependOnEnvironment colours [4, 6, 8] = .ok false := rfl
  obtain ⟨exploration, hexplored, hvalues, hknown, _⟩ :=
    independent_of_mayDependOnEnvironment_eq_false paints_accepted
      (fun value hvalue => ⟨_, follow_reached _ value, hends value hvalue⟩) hanswer
  exact ⟨paints_accepted, hanswer, exploration, hexplored, hvalues, hknown⟩

end Body

end FlowFacts
