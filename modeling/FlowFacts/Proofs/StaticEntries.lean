/-
Which entries of the ledger the analysis of a class initializer touches.  Every
note changes the entry of one field, and every field is noted in one step, so
what becomes of an entry is decided by this step alone: by the only write of
the field, or by its default if it is never written.
-/
import FlowFacts.FieldContents.Static
import Mathlib.Tactic.Tauto

namespace FlowFacts

def Opcode.putsInto (field : FieldId) : Opcode → Bool
  | staticPut written _ => written == field
  | _ => false

theorem Opcode.eq_staticPut_of_putsInto {opcode : Opcode} {field : FieldId}
    (hputs : opcode.putsInto field = true) :
    ∃ value, opcode = .staticPut field value := by
  cases opcode with
  | staticPut written value =>
      have heq : written = field := by simpa [putsInto] using hputs
      exact ⟨value, by rw [heq]⟩
  | _ => cases hputs

namespace Body

def putsOf (body : Body) (field : FieldId) : List InstrId :=
  body.allInstructions.filter fun instr => (body.opcode instr).putsInto field

theorem exists_opcode_of_mem_putsOf {body : Body} {field : FieldId}
    {put : InstrId} (hput : put ∈ body.putsOf field) :
    ∃ value, body.opcode put = .staticPut field value :=
  Opcode.eq_staticPut_of_putsInto (List.mem_filter.mp hput).2

end Body

namespace Findings

variable {before middle after : Findings} {field : FieldId}

/-- No entry but that of one field has changed. -/
structure ChangesOnly (field : FieldId) (before after : Findings) : Prop where
  constructors : after.constructors = before.constructors
  others : ∀ {other}, field ≠ other →
    after.fields.find? other = before.fields.find? other

theorem ChangesOnly.refl (field : FieldId) (findings : Findings) :
    ChangesOnly field findings findings := ⟨rfl, fun _ => rfl⟩

theorem ChangesOnly.trans (hfirst : ChangesOnly field before middle)
    (hsecond : ChangesOnly field middle after) :
    ChangesOnly field before after where
  constructors := hsecond.constructors.trans hfirst.constructors
  others hne := (hsecond.others hne).trans (hfirst.others hne)

theorem changesOnly_updateField (findings : Findings) (field : FieldId)
    (change : FieldFacts → FieldFacts) :
    ChangesOnly field findings (findings.updateField field change) where
  constructors := rfl
  others hne := by rw [updateField, Table.find?_alter, if_neg hne]

theorem knowledge_congr (hsame : after.fields.find? field =
    before.fields.find? field) :
    after.knowledge field = before.knowledge field := by
  rw [knowledge, knowledge, hsame]

theorem find?_noteKnowledge (findings : Findings) (field : FieldId)
    (knowledge : Knowledge) :
    (findings.noteKnowledge field knowledge).fields.find? field =
      some { (findings.fields.find? field).getD {} with knowledge } := by
  rw [noteKnowledge, updateField, Table.find?_alter, if_pos rfl]

/-- Steps that each change the entry of their own key leave an entry as the
step with its key leaves it, and leave it alone if there is none. -/
theorem find?_foldlM {α : Type} {table : Table α}
    {step : Findings → FieldId × α → Except Fault Findings}
    (hstep : ∀ {state entry state'}, step state entry = .ok state' →
      ChangesOnly entry.1 state state')
    (hfold : table.entries.foldlM step before = .ok after) :
    after.constructors = before.constructors ∧ ∀ field,
      (table.find? field = none →
        after.fields.find? field = before.fields.find? field) ∧
      ∀ value, table.find? field = some value → ∃ state state',
        state.fields.find? field = before.fields.find? field ∧
          step state (field, value) = .ok state' ∧
          after.fields.find? field = state'.fields.find? field := by
  obtain ⟨entries, hascending⟩ := table
  induction entries generalizing before with
  | nil =>
      obtain rfl := Except.ok.inj hfold
      refine ⟨rfl, fun field => ⟨fun _ => rfl, ?_⟩⟩
      intro value hvalue
      cases hvalue
  | cons head tail ih =>
      rw [List.pairwise_cons] at hascending
      rw [List.foldlM_cons] at hfold
      obtain ⟨middle, hhead, htail⟩ := exists_of_bind hfold
      obtain ⟨hconstructors, hentries⟩ := ih hascending.2 htail
      have honly := hstep hhead
      refine ⟨hconstructors.trans honly.constructors, fun field => ?_⟩
      by_cases heq : head.1 = field
      · -- keys ascend, so the steps that follow have other keys
        have hnone : Table.find? ⟨tail, hascending.2⟩ field = none := by
          rw [Table.find?, Option.map_eq_none_iff, List.find?_eq_none]
          intro entry hentry
          have hlt := hascending.1 entry hentry
          simp only [beq_iff_eq]
          omega
        have hfound : Table.find? ⟨head :: tail,
            List.pairwise_cons.mpr hascending⟩ field = some head.2 := by
          simp [Table.find?, heq]
        refine ⟨by simp [hfound], ?_⟩
        intro value hvalue
        obtain rfl := Option.some.inj (hfound.symm.trans hvalue)
        exact ⟨before, middle, rfl, heq ▸ hhead, (hentries field).1 hnone⟩
      · have hsame : Table.find? ⟨head :: tail,
            List.pairwise_cons.mpr hascending⟩ field =
              Table.find? ⟨tail, hascending.2⟩ field := by
          simp [Table.find?, heq]
        have hmiddle := honly.others heq
        rw [hsame, ← hmiddle]
        exact hentries field

end Findings

namespace ClassInitializer

open Findings

variable {init : ClassInitializer} {findings before after : Findings}
variable {field : FieldId} {type : TypeId} {value root : ValueId}

theorem noteContent_changesOnly
    (hnote : init.noteContent findings field type root = .ok after) :
    ChangesOnly field findings after := by
  obtain ⟨known, _, hnote⟩ := exists_of_bind hnote
  split at hnote
  · split at hnote
    · obtain ⟨shape, _, hnote⟩ := exists_of_bind hnote
      obtain rfl := Except.ok.inj hnote
      exact changesOnly_updateField _ _ _
    · obtain rfl := Except.ok.inj hnote
      exact .refl _ _
  · obtain rfl := Except.ok.inj hnote
    exact changesOnly_updateField _ _ _

theorem noteTypes_changesOnly
    (hnote : init.noteTypes findings field type root = .ok after) :
    ChangesOnly field findings after := by
  have hupper : ∀ condition : Bool, ChangesOnly field findings
      (if condition then findings.noteUpper field (init.body.typeOf root)
        else findings) := by
    intro condition
    cases condition
    · exact .refl _ _
    · exact changesOnly_updateField _ _ _
  simp only [noteTypes] at hnote
  split at hnote
  · obtain rfl := Except.ok.inj hnote
    exact hupper _
  · split at hnote
    · obtain rfl := Except.ok.inj hnote
      exact (hupper _).trans (changesOnly_updateField _ _ _)
    · cases hnote

theorem noteWrite_changesOnly
    (hnote : init.noteWrite findings field value = .ok after) :
    ChangesOnly field findings after := by
  obtain ⟨definition, _, hnote⟩ := exists_of_bind hnote
  obtain ⟨middle, hcontent, htypes⟩ := exists_of_bind hnote
  exact (noteContent_changesOnly hcontent).trans (noteTypes_changesOnly htypes)

theorem noteEither_changesOnly
    (hnote : init.noteEither findings field value = .ok after) :
    ChangesOnly field findings after := by
  simp only [noteEither] at hnote
  split at hnote
  · obtain ⟨known, _, hnote⟩ := exists_of_bind hnote
    split at hnote
    · split at hnote
      · obtain rfl := Except.ok.inj hnote
        exact changesOnly_updateField _ _ _
      · obtain rfl := Except.ok.inj hnote
        exact .refl _ _
    · obtain rfl := Except.ok.inj hnote
      exact .refl _ _
  · obtain rfl := Except.ok.inj hnote
    exact .refl _ _

theorem noteWrites_changesOnly {writes : List (InstrId × ValueId)}
    (hnote : init.noteWrites findings field writes = .ok after) :
    ChangesOnly field findings after := by
  unfold noteWrites at hnote
  split at hnote
  · obtain ⟨visibility, _, hnote⟩ := exists_of_bind hnote
    cases visibility with
    | «exact» => exact noteWrite_changesOnly hnote
    | afterRead => exact noteEither_changesOnly hnote
    | partially =>
        obtain rfl := Except.ok.inj hnote
        exact .refl _ _
  · obtain rfl := Except.ok.inj hnote
    exact .refl _ _

/-- Writes are noted only if there is one of them. -/
theorem noteWrites_cases {writes : List (InstrId × ValueId)}
    (hnote : init.noteWrites findings field writes = .ok after) :
    after = findings ∨ ∃ write value, writes = [(write, value)] := by
  unfold noteWrites at hnote
  split at hnote
  · next write value => exact Or.inr ⟨write, value, rfl⟩
  · exact Or.inl (Except.ok.inj hnote).symm

/-- The table of writes has, for an eligible field, all the instructions that
write it, and nothing for other fields. -/
theorem writes_find? {table : Table (List (InstrId × ValueId))}
    (hwrites : init.writes = .ok table) (field : FieldId) :
    (∀ writes, table.find? field = some writes →
      init.isEligible field = .ok true ∧
        writes.map Prod.fst = init.body.putsOf field) ∧
    (table.find? field = none → init.isEligible field = .ok true →
      init.body.putsOf field = []) := by
  rw [writes] at hwrites
  refine foldlM_induct (P := fun done table =>
    (∀ writes, table.find? field = some writes →
      init.isEligible field = .ok true ∧ writes.map Prod.fst =
        done.filter fun instr => (init.body.opcode instr).putsInto field) ∧
    (table.find? field = none → init.isEligible field = .ok true →
      (done.filter fun instr =>
        (init.body.opcode instr).putsInto field) = []))
    ?_ ⟨by simp, by simp⟩ hwrites
  rintro done instr table table' ⟨hfound, hmissing⟩ hstep
  rw [List.filter_append]
  by_cases hputs : (init.body.opcode instr).putsInto field = true
  · obtain ⟨value, hopcode⟩ := Opcode.eq_staticPut_of_putsInto hputs
    simp only [hopcode] at hstep
    obtain ⟨eligible, heligible, hstep⟩ := exists_of_bind hstep
    cases eligible with
    | true =>
        obtain rfl := Except.ok.inj hstep
        rw [Table.find?_alter, if_pos rfl]
        refine ⟨?_, by simp⟩
        rintro _ ⟨rfl⟩
        refine ⟨heligible, ?_⟩
        cases hold : table.find? field with
        | some writes => simp [(hfound writes hold).2, hputs]
        | none => simp [hmissing hold heligible, hputs]
    | false =>
        obtain rfl := Except.ok.inj hstep
        have hnot : init.isEligible field ≠ .ok true := by simp [heligible]
        exact ⟨fun writes hwrites => absurd (hfound writes hwrites).1 hnot,
          fun _ h => absurd h hnot⟩
  · have hsame : table'.find? field = table.find? field := by
      split at hstep
      · next written value hopcode =>
          have hne : written ≠ field := by
            simpa [hopcode, Opcode.putsInto] using hputs
          obtain ⟨eligible, _, hstep⟩ := exists_of_bind hstep
          split at hstep
          · obtain rfl := Except.ok.inj hstep
            rw [Table.find?_alter, if_neg hne]
          · rw [Except.ok.inj hstep]
      · rw [Except.ok.inj hstep]
    simpa [hsame, hputs] using And.intro hfound hmissing

/-- The writes of a field are listed with the values that they write. -/
theorem opcode_of_writes {table : Table (List (InstrId × ValueId))}
    (hwrites : init.writes = .ok table) (field : FieldId) :
    ∀ writes, table.find? field = some writes → ∀ write ∈ writes,
      init.body.opcode write.1 = .staticPut field write.2 := by
  refine foldlM_induct (P := fun _ (table : Table _) =>
    ∀ writes, table.find? field = some writes → ∀ write ∈ writes,
      init.body.opcode write.1 = .staticPut field write.2)
    ?_ (by simp) hwrites
  intro done instr table table' hlisted hstep
  split at hstep
  · next written value hopcode =>
      obtain ⟨eligible, _, hstep⟩ := exists_of_bind hstep
      split at hstep
      · obtain rfl := Except.ok.inj hstep
        intro writes hfound
        rw [Table.find?_alter] at hfound
        split at hfound
        · next heq =>
            subst heq
            obtain rfl := Option.some.inj hfound
            rw [List.forall_mem_append, List.forall_mem_singleton]
            refine ⟨?_, hopcode⟩
            cases hold : table.find? written with
            | none => simp
            | some writes => exact hlisted writes hold
        · exact hlisted writes hfound
      · rw [← Except.ok.inj hstep]
        exact hlisted
  · rw [← Except.ok.inj hstep]
    exact hlisted

/-- The note of a default, as one step of the fold over all defaults. -/
theorem noteDefault_cases {table : Table (List (InstrId × ValueId))}
    {value : KnownValue}
    (hnote : (if table.contains field then pure findings
      else do
        if ← init.isEligible field then
          pure (findings.noteKnowledge field (.exactly value))
        else pure findings : Except Fault Findings) = .ok after) :
    after = findings ∨ (table.find? field = none ∧
      init.isEligible field = .ok true ∧
      after = findings.noteKnowledge field (.exactly value)) := by
  split at hnote
  · exact Or.inl (Except.ok.inj hnote).symm
  · next hcontains =>
      rw [Table.contains_eq_isSome] at hcontains
      obtain ⟨eligible, heligible, hnote⟩ := exists_of_bind hnote
      cases eligible with
      | false => exact Or.inl (Except.ok.inj hnote).symm
      | true =>
          exact Or.inr ⟨by simpa using hcontains, heligible,
            (Except.ok.inj hnote).symm⟩

/-- What becomes of each entry.  If the field has writes, then the note about
them decides, made in a ledger that has the entry as it was; otherwise only a
default can change it. -/
theorem analyze_entries (hanalyze : init.analyze before = .ok after) :
    after.constructors = before.constructors ∧
    ∃ table, init.writes = .ok table ∧ ∀ field,
      (∀ writes, table.find? field = some writes → ∃ state state',
        state.fields.find? field = before.fields.find? field ∧
          init.noteWrites state field writes = .ok state' ∧
          after.fields.find? field = state'.fields.find? field) ∧
      (table.find? field = none →
        after.fields.find? field = before.fields.find? field ∨
        ∃ value, init.defaults.find? field = some value ∧
          init.isEligible field = .ok true ∧
          after.fields.find? field =
            some { (before.fields.find? field).getD {} with
              knowledge := .exactly value }) := by
  obtain ⟨table, hwrites, hanalyze⟩ := exists_of_bind hanalyze
  obtain ⟨middle, hnotes, hdefaults⟩ := exists_of_bind hanalyze
  obtain ⟨hconstructors, hmiddle⟩ :=
    find?_foldlM (fun hstep => noteWrites_changesOnly hstep) hnotes
  obtain ⟨hconstructors', hlast⟩ := find?_foldlM (fun hstep => by
    rcases noteDefault_cases hstep with rfl | ⟨_, _, rfl⟩
    · exact .refl _ _
    · exact changesOnly_updateField _ _ _) hdefaults
  refine ⟨hconstructors'.trans hconstructors, table, hwrites, fun field => ?_⟩
  obtain ⟨hunwritten, hwritten⟩ := hmiddle field
  obtain ⟨hnone, hsome⟩ := hlast field
  constructor
  · intro writes hfound
    obtain ⟨state, state', hstate, hnote, hstate'⟩ := hwritten writes hfound
    refine ⟨state, state', hstate, hnote, ?_⟩
    rw [← hstate']
    cases hdefault : init.defaults.find? field with
    | none => exact hnone hdefault
    | some value =>
        obtain ⟨last, last', hlast, hstep, hlast'⟩ := hsome value hdefault
        rcases noteDefault_cases hstep with rfl | ⟨hmissing, _⟩
        · rw [hlast', hlast]
        · rw [hfound] at hmissing
          cases hmissing
  · intro hmissing
    have hsame := hunwritten hmissing
    cases hdefault : init.defaults.find? field with
    | none => exact Or.inl ((hnone hdefault).trans hsame)
    | some value =>
        obtain ⟨last, last', hlast, hstep, hlast'⟩ := hsome value hdefault
        rcases noteDefault_cases hstep with rfl | ⟨_, heligible, rfl⟩
        · exact Or.inl (by rw [hlast', hlast, hsame])
        · refine Or.inr ⟨value, rfl, heligible, ?_⟩
          rw [hlast', find?_noteKnowledge, hlast, hsame]

/-- An eligible field that is written once gets the note about this write. -/
theorem exists_noteWrites (hanalyze : init.analyze before = .ok after)
    (heligible : init.isEligible field = .ok true) {put : InstrId}
    (hputs : init.body.putsOf field = [put])
    (hopcode : init.body.opcode put = .staticPut field value) :
    ∃ state state', state.fields.find? field = before.fields.find? field ∧
      init.noteWrites state field [(put, value)] = .ok state' ∧
      after.fields.find? field = state'.fields.find? field := by
  obtain ⟨_, table, hwrites, hentries⟩ := analyze_entries hanalyze
  obtain ⟨hfound, hmissing⟩ := writes_find? hwrites field
  cases htable : table.find? field with
  | none => simp [hmissing htable heligible] at hputs
  | some writes =>
      have hwrite := opcode_of_writes hwrites field writes htable
      have hfirst := (hfound writes htable).2.trans hputs
      match writes with
      | [(write, written)] =>
          obtain rfl : write = put := by simpa using hfirst
          have hopcode' := hwrite _ List.mem_cons_self
          rw [hopcode] at hopcode'
          obtain ⟨_, rfl⟩ := Opcode.staticPut.inj hopcode'
          exact (hentries field).1 _ htable

/-- Which entries change: those of eligible fields that are written once, and
by default those that are never written. -/
theorem analyze_changes (hanalyze : init.analyze before = .ok after)
    (hchanged : after.fields.find? field ≠ before.fields.find? field) :
    init.isEligible field = .ok true ∧
      ((∃ put, init.body.putsOf field = [put]) ∨
        init.body.putsOf field = [] ∧ ∃ value,
          init.defaults.find? field = some value ∧
          after.fields.find? field =
            some { (before.fields.find? field).getD {} with
              knowledge := .exactly value }) := by
  obtain ⟨_, table, hwrites, hentries⟩ := analyze_entries hanalyze
  obtain ⟨hfound, hmissing⟩ := writes_find? hwrites field
  obtain ⟨hwritten, hunwritten⟩ := hentries field
  cases htable : table.find? field with
  | some writes =>
      obtain ⟨heligible, hputs⟩ := hfound writes htable
      obtain ⟨state, state', hstate, hnote, hstate'⟩ := hwritten writes htable
      refine ⟨heligible, Or.inl ?_⟩
      rcases noteWrites_cases hnote with rfl | ⟨put, value, rfl⟩
      · exact absurd (hstate'.trans hstate) hchanged
      · exact ⟨put, hputs.symm⟩
  | none =>
      rcases hunwritten htable with hsame | ⟨value, hdefault, heligible, hentry⟩
      · exact absurd hsame hchanged
      · exact ⟨heligible,
          Or.inr ⟨hmissing htable heligible, value, hdefault, hentry⟩⟩

theorem isEligible_eq_true :
    init.isEligible field = .ok true ↔ ∃ definition,
      init.program.field field = .ok definition ∧
      definition.traits.isStatic = true ∧ definition.holder = init.holder ∧
      definition.writtenOnlyIn = some init.body.method ∧
      (definition.traits.isPinned = false ∨
        definition.traits.isEnum = true ∧ init.isEnum = true) := by
  rw [isEligible]
  cases init.program.field field with
  | error fault => simp [bind, Except.bind]
  | ok definition =>
      simp [bind, Except.bind, pure, Except.pure, FieldDecl.isWrittenOnlyIn]
      tauto

end ClassInitializer

namespace Body

variable {body : Body} {program : Program} {defaults : Table KnownValue}
variable {before after : Findings}

/-- The analysis leaves the constructors alone, and of the fields all but those
of its class that nothing else writes, that are not pinned unless they are
constants of an enum, and that it writes at most once.  If it does not write a
field at all, then the default is what becomes known, and nothing else. -/
theorem noteStaticContents_touches
    (hrun : body.noteStaticContents program defaults before = .ok after) :
    after.constructors = before.constructors ∧
    ∀ field, after.fields.find? field ≠ before.fields.find? field →
      ∃ running definition, program.method body.method = .ok running ∧
        running.traits.isClassInitializer = true ∧
        program.field field = .ok definition ∧
        definition.traits.isStatic = true ∧
        definition.holder = running.holder ∧
        definition.writtenOnlyIn = some body.method ∧
        (definition.traits.isPinned = false ∨
          definition.traits.isEnum = true ∧
            ∃ holder, program.classDecl? running.holder = some holder ∧
              holder.traits.isEnum = true) ∧
        (body.putsOf field).length ≤ 1 ∧
        (body.putsOf field = [] → ∃ value,
          defaults.find? field = some value ∧
          after.fields.find? field =
            some { (before.fields.find? field).getD {} with
              knowledge := .exactly value }) := by
  obtain ⟨running, hrunning, hrun⟩ := exists_of_bind hrun
  split at hrun
  · next hclass =>
      obtain ⟨hconstructors, _⟩ := ClassInitializer.analyze_entries hrun
      refine ⟨hconstructors, fun field hchanged => ?_⟩
      obtain ⟨heligible, hputs⟩ :=
        ClassInitializer.analyze_changes hrun hchanged
      obtain ⟨definition, hfield, hstatic, hholder, honly, hpinned⟩ :=
        ClassInitializer.isEligible_eq_true.mp heligible
      refine ⟨running, definition, hrunning, hclass, hfield, hstatic, hholder,
        honly, hpinned.imp id ?_, ?_⟩
      · exact And.imp_right fun henum => (Option.any_eq_true _ _).mp henum
      · rcases hputs with ⟨put, hputs⟩ | ⟨hputs, hdefault⟩
        · simp [hputs]
        · exact ⟨by simp [hputs], fun _ => hdefault⟩
  · obtain rfl := Except.ok.inj hrun
    exact ⟨rfl, fun field hchanged => absurd rfl hchanged⟩

/-- An enum with a pinned constant, a counter, and a pinned field. -/
def oneEnum : Program where
  types := #[
    { descriptor := .plain "LE;"
      definition := some { parent := none, traits := { isEnum := true } } }]
  fields := #[
    { holder := 0, name := "A", type := 0, writtenOnlyIn := some 0,
      traits := { isStatic := true, isEnum := true, isPinned := true } },
    { holder := 0, name := "count", type := 0, writtenOnlyIn := some 0,
      traits := { isStatic := true } },
    { holder := 0, name := "kept", type := 0, writtenOnlyIn := some 0,
      traits := { isStatic := true, isPinned := true } }]
  methods := #[{ holder := 0, name := "init", params := [], returns := 0,
                 traits := { isStatic := true, isClassInitializer := true } }]

/-- The two pinned fields are written, the counter is not. -/
def writePinned : Body where
  method := 0
  isStatic := true
  values := #[{ type := .primitive .int, definition := .instruction 0,
                users := [1, 2] }]
  instructions := #[⟨0, .number 7, some 0⟩, ⟨0, .staticPut 0 0, none⟩,
    ⟨0, .staticPut 2 0, none⟩, ⟨0, .ret none, none⟩]
  blocks := #[⟨[0, 1, 2, 3], [], []⟩]
  positions := #[0, 1, 2, 3]
  incoming := #[[]]

/-- The constant of the enum gets an entry although it is pinned, the counter
gets its default, and the other pinned field stays unknown. -/
theorem writePinned_touches : ∃ after,
    writePinned.noteStaticContents oneEnum (Table.empty.insert 1 (.number 5))
      {} = .ok after ∧
    after.fields.find? 0 ≠ none ∧ after.fields.find? 1 ≠ none ∧
    after.fields.find? 2 = none ∧ after.constructors = .empty ∧
    (∃ definition, oneEnum.field 0 = .ok definition ∧
      definition.traits.isPinned = true ∧ definition.traits.isEnum = true) ∧
    ∃ value, (Table.empty.insert 1 (.number 5)).find? 1 = some value ∧
      after.fields.find? 1 = some { knowledge := .exactly value } := by
  have hrun : ∃ after, writePinned.noteStaticContents oneEnum
      (Table.empty.insert 1 (.number 5)) {} = .ok after ∧
        after.fields.find? 0 ≠ none ∧ after.fields.find? 1 ≠ none ∧
        after.fields.find? 2 = none :=
    ⟨_, rfl, by decide, by decide, rfl⟩
  obtain ⟨after, hrun, hconstant, hcounter, hkept⟩ := hrun
  obtain ⟨hconstructors, htouched⟩ := noteStaticContents_touches hrun
  obtain ⟨_, definition, _, _, hfield, _, _, _, hpinned, _⟩ :=
    htouched 0 hconstant
  have hdefinition : definition.traits.isPinned = true := by
    rw [← Except.ok.inj hfield]
    rfl
  have henum : definition.traits.isEnum = true := by
    rcases hpinned with hunpinned | ⟨henum, _⟩
    · rw [hdefinition] at hunpinned
      cases hunpinned
    · exact henum
  obtain ⟨_, _, _, _, _, _, _, _, _, _, hdefault⟩ := htouched 1 hcounter
  exact ⟨after, hrun, hconstant, hcounter, hkept, hconstructors,
    ⟨definition, hfield, hdefinition, henum⟩, hdefault rfl⟩

end Body

end FlowFacts
