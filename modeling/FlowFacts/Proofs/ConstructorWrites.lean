/-
Which writes of fields of the receiver are recorded.  The origin of a field is
recorded from the only instruction that is seen to write the field.  A receiver
that was cast is not seen, and a call that fills the field may be passed by.
-/
import FlowFacts.FieldContents.Constructor
import FlowFacts.Proofs.Aliases
import FlowFacts.Proofs.Copies
import FlowFacts.Proofs.StaticWrites

namespace FlowFacts

/-- If parts make up a list of one element, then one of them is that list, and
the others are empty. -/
theorem exists_of_flatMap_eq_singleton {α β : Type} {parts : α → List β}
    {list : List α} {only : β} (hsingle : list.flatMap parts = [only]) :
    ∃ element ∈ list, parts element = [only] ∧
      ∀ other ∈ list, parts other ≠ [] → other = element := by
  induction list with
  | nil => cases hsingle
  | cons head tail ih =>
      rw [List.flatMap_cons, List.append_eq_singleton_iff] at hsingle
      rcases hsingle with ⟨hhead, htail⟩ | ⟨hhead, htail⟩
      · obtain ⟨element, hmem, honly, hothers⟩ := ih htail
        refine ⟨element, List.mem_cons_of_mem head hmem, honly, ?_⟩
        exact List.forall_mem_cons.mpr ⟨fun hne => absurd hhead hne, hothers⟩
      · refine ⟨head, List.mem_cons_self, hhead, ?_⟩
        have hnone := List.flatMap_eq_nil_iff.mp htail
        exact List.forall_mem_cons.mpr
          ⟨fun _ => rfl, fun other hother hne => absurd (hnone other hother) hne⟩

namespace Body

variable {body : Body} {program : Program} {field : FieldId} {instr : InstrId}

/-- The instruction writes a field of the receiver: by a store, or by calling
another constructor of the class that is known to fill the field. -/
inductive WritesField (body : Body) (program : Program)
    (isThis : ValueId → Prop) (field : FieldId) (instr : InstrId) : Prop
  | put {object value : ValueId}
      (hopcode : body.opcode instr = .instancePut field object value)
      (hthis : isThis object) : WritesField body program isThis field instr
  | forwarded {method : MethodId} {object : ValueId} {arguments : List ValueId}
      {constructor running : MethodDecl} {summary : ConstructorSummary}
      {origin : FieldOrigin}
      (hopcode : body.opcode instr = .call .direct method (object :: arguments))
      (hthis : isThis object)
      (hmethod : program.method method = .ok constructor)
      (hconstructor : constructor.traits.isConstructor = true)
      (hrunning : program.method body.method = .ok running)
      (hholder : constructor.holder = running.holder)
      (hsummary : constructor.facts.constructs = some summary)
      (hlisted : summary.origins.find? field = some origin) :
      WritesField body program isThis field instr

theorem isReceiver_iff_origin (hbody : body.isStatic = false) {value : ValueId} :
    body.isReceiver value = true ↔ body.Origin value (.argument 0) := by
  rw [← rootOpcode?_eq_some rfl, isReceiver, hbody, argument?]
  split
  · next index hroot => simp [hroot]
  · next hroot => simpa using hroot 0

end Body

namespace ConstructorBody

variable {init : ConstructorBody} {field : FieldId} {instr : InstrId}
variable {write : ReceiverWrite} {entries : List (FieldId × ReceiverWrite)}
variable {running : MethodDecl}

/-- The constructor is of the class under analysis, is called on the receiver
and is known to fill the field. -/
def Forwards (init : ConstructorBody) (constructor : MethodDecl)
    (arguments : List ValueId) (field : FieldId) : Prop :=
  arguments.head?.any init.body.isReceiver = true ∧
    constructor.holder = init.holder ∧ ∃ summary origin,
      constructor.facts.constructs = some summary ∧
        summary.origins.find? field = some origin

theorem forwardedWrites_eq_ok {constructor : MethodDecl} {arguments : List ValueId}
    (hwrites : init.forwardedWrites constructor arguments = .ok entries)
    (hentry : (field, write) ∈ entries) :
    arguments.head?.any init.body.isReceiver = true ∧
      constructor.holder = init.holder ∧ init.isOwnField field = .ok true ∧
      ∃ summary origin seen, constructor.facts.constructs = some summary ∧
        summary.origins.find? field = some origin ∧
        init.forwardedOrigin arguments origin = .ok seen ∧
        write = .forwarded seen := by
  rw [forwardedWrites] at hwrites
  split at hwrites
  · next hcall =>
      rw [Bool.and_eq_true, beq_iff_eq] at hcall
      split at hwrites
      · obtain rfl := Except.ok.inj hwrites
        cases hentry
      · next summary hsummary =>
          obtain ⟨⟨listed, origin⟩, hlisted, hselect⟩ :=
            exists_of_filterMapM hwrites _ hentry
          obtain ⟨own, hown, hselect⟩ := exists_of_bind hselect
          cases own with
          | false => cases hselect
          | true =>
              obtain ⟨seen, hseen, hselect⟩ := exists_of_bind hselect
              obtain ⟨rfl, rfl⟩ :=
                Prod.mk.inj (Option.some.inj (Except.ok.inj hselect))
              exact ⟨hcall.1, hcall.2, hown, summary, origin, seen, hsummary,
                Table.find?_of_mem hlisted, hseen, rfl⟩
  · obtain rfl := Except.ok.inj hwrites
    cases hentry

theorem Forwards.exists_write {constructor : MethodDecl} {arguments : List ValueId}
    (hforwards : init.Forwards constructor arguments field)
    (hown : init.isOwnField field = .ok true)
    (hwrites : init.forwardedWrites constructor arguments = .ok entries) :
    ∃ write, (field, write) ∈ entries := by
  obtain ⟨hreceiver, hholder, summary, origin, hsummary, hlisted⟩ := hforwards
  rw [forwardedWrites, hreceiver, hholder, beq_self_eq_true, Bool.true_and,
    if_pos rfl, hsummary] at hwrites
  rcases forall_of_filterMapM hwrites _ (Table.mem_of_find? hlisted) with
    hnone | ⟨⟨written, write⟩, hmem, hselect⟩
  · obtain ⟨own, hown', hnone⟩ := exists_of_bind hnone
    obtain rfl := Except.ok.inj (hown.symm.trans hown')
    obtain ⟨seen, _, hnone⟩ := exists_of_bind hnone
    cases hnone
  · obtain ⟨own, hown', hselect⟩ := exists_of_bind hselect
    obtain rfl := Except.ok.inj (hown.symm.trans hown')
    obtain ⟨seen, _, hselect⟩ := exists_of_bind hselect
    obtain ⟨rfl, rfl⟩ := Prod.mk.inj (Option.some.inj (Except.ok.inj hselect))
    exact ⟨_, hmem⟩

/-- The body under analysis is the constructor that it runs as. -/
structure Runs (init : ConstructorBody) (running : MethodDecl) : Prop where
  notStatic : init.body.isStatic = false
  method : init.program.method init.body.method = .ok running
  holder : init.holder = running.holder

/-- The instruction is seen to write the field. -/
abbrev Writes (init : ConstructorBody) (field : FieldId) (instr : InstrId) : Prop :=
  init.body.WritesField init.program
    (fun object => init.body.Origin object (.argument 0)) field instr

theorem writesOf_sound (hruns : init.Runs running)
    (hwrites : init.writesOf instr = .ok entries)
    (hentry : (field, write) ∈ entries) :
    init.Writes field instr ∧ init.isOwnField field = .ok true ∧
      ∀ written object value,
        init.body.opcode instr = .instancePut written object value →
          write = .put instr value := by
  rw [writesOf] at hwrites
  split at hwrites
  · next written object value hopcode =>
      split at hwrites
      · next hreceiver =>
          obtain ⟨own, hown, hwrites⟩ := exists_of_bind hwrites
          cases own with
          | true =>
              obtain rfl := Except.ok.inj hwrites
              obtain ⟨rfl, rfl⟩ := Prod.mk.inj (List.mem_singleton.mp hentry)
              refine ⟨.put hopcode ?_, hown, ?_⟩
              · exact (Body.isReceiver_iff_origin hruns.notStatic).mp hreceiver
              · intro _ _ _ hput
                rw [hopcode, Opcode.instancePut.injEq] at hput
                rw [hput.2.2]
          | false =>
              obtain rfl := Except.ok.inj hwrites
              cases hentry
      · obtain rfl := Except.ok.inj hwrites
        cases hentry
  · next method arguments hopcode =>
      obtain ⟨constructor, hmethod, hwrites⟩ := exists_of_bind hwrites
      split at hwrites
      · next hconstructor =>
          obtain ⟨hreceiver, hholder, hown, summary, origin, seen, hsummary,
            hlisted, _, rfl⟩ := forwardedWrites_eq_ok hwrites hentry
          obtain ⟨object, hhead, hthis⟩ := (Option.any_eq_true _ _).mp hreceiver
          obtain ⟨rest, rfl⟩ := List.head?_eq_some_iff.mp hhead
          refine ⟨.forwarded hopcode ?_ hmethod hconstructor hruns.method
            (hholder.trans hruns.holder) hsummary hlisted, hown, ?_⟩
          · exact (Body.isReceiver_iff_origin hruns.notStatic).mp hthis
          · simp [hopcode]
      · obtain rfl := Except.ok.inj hwrites
        cases hentry
  · obtain rfl := Except.ok.inj hwrites
    cases hentry

theorem writesOf_complete (hruns : init.Runs running)
    (hwrites : init.writesOf instr = .ok entries)
    (hfield : init.Writes field instr) (hown : init.isOwnField field = .ok true) :
    ∃ write, (field, write) ∈ entries := by
  cases hfield with
  | @put object value hopcode hthis =>
      have hreceiver := (Body.isReceiver_iff_origin hruns.notStatic).mpr hthis
      simp only [writesOf, hopcode, hreceiver, ↓reduceIte] at hwrites
      obtain ⟨own, hown', hwrites⟩ := exists_of_bind hwrites
      obtain rfl := Except.ok.inj (hown.symm.trans hown')
      obtain rfl := Except.ok.inj hwrites
      exact ⟨_, List.mem_singleton_self _⟩
  | @forwarded method object arguments constructor _ _ _ hopcode hthis hmethod
      hconstructor hrunning hholder hsummary hlisted =>
      have hreceiver := (Body.isReceiver_iff_origin hruns.notStatic).mpr hthis
      obtain rfl := Except.ok.inj (hruns.method.symm.trans hrunning)
      simp only [writesOf, hopcode] at hwrites
      obtain ⟨found, hfound, hwrites⟩ := exists_of_bind hwrites
      obtain rfl := Except.ok.inj (hmethod.symm.trans hfound)
      rw [if_pos hconstructor] at hwrites
      have hforwards : init.Forwards constructor (object :: arguments) field :=
        ⟨hreceiver, hholder.trans hruns.holder.symm, _, _, hsummary, hlisted⟩
      exact hforwards.exists_write hown hwrites

/-- The writes of a field that an instruction is seen to make. -/
def writesInto (init : ConstructorBody) (field : FieldId) (instr : InstrId) :
    List ReceiverWrite :=
  match init.writesOf instr with
  | .ok entries => (entries.filter fun entry => entry.1 == field).map Prod.snd
  | .error _ => []

theorem mem_writesInto : write ∈ init.writesInto field instr ↔
    ∃ entries, init.writesOf instr = .ok entries ∧ (field, write) ∈ entries := by
  rw [writesInto]
  split
  · next entries hentries => simp [hentries]
  · next hfault => simp [hfault]

theorem find?_foldl_alter (table : Table (List ReceiverWrite)) :
    ((entries.foldl (fun table (field, write) =>
      table.alter field [] (· ++ [write])) table).find? field).getD [] =
      (table.find? field).getD [] ++
        (entries.filter fun entry => entry.1 == field).map Prod.snd := by
  induction entries generalizing table with
  | nil => simp
  | cons entry rest ih =>
      obtain ⟨written, write⟩ := entry
      rw [List.foldl_cons, ih, Table.find?_alter, List.filter_cons]
      by_cases hfield : written = field
      · simp [hfield]
      · simp [hfield]

/-- The table of writes has, for a field, all that the instructions are seen to
write into it. -/
theorem writes_eq_ok {table : Table (List ReceiverWrite)}
    (hwrites : init.writes = .ok table) :
    (∀ instr ∈ init.body.allInstructions, ∃ entries,
      init.writesOf instr = .ok entries) ∧
    ∀ field, (table.find? field).getD [] =
      init.body.allInstructions.flatMap (init.writesInto field) := by
  refine foldlM_induct (P := fun done table =>
    (∀ instr ∈ done, ∃ entries, init.writesOf instr = .ok entries) ∧
    ∀ field, (table.find? field).getD [] = done.flatMap (init.writesInto field))
    ?_ ⟨by simp, by simp⟩ hwrites
  rintro done instr table after ⟨hanswers, htable⟩ hstep
  obtain ⟨entries, hentries, hstep⟩ := exists_of_bind hstep
  obtain rfl := Except.ok.inj hstep
  constructor
  · intro other hother
    rcases List.mem_append.mp hother with hother | hother
    · exact hanswers other hother
    · exact ⟨entries, (List.mem_singleton.mp hother) ▸ hentries⟩
  · intro field
    rw [find?_foldl_alter, htable field, List.flatMap_append,
      List.flatMap_singleton, writesInto, hentries]

variable {origins after : Origins} {writes : List ReceiverWrite} {other : FieldId}

theorem find?_set_ne (hne : field ≠ other) (origin : FieldOrigin) :
    (origins.set field origin).find? other = origins.find? other := by
  rw [Origins.set]
  split
  · rw [Table.find?_erase, if_neg hne]
  · rw [Table.find?_insert, if_neg hne]

theorem notePut_find?_ne {value : ValueId}
    (hnote : init.notePut origins field value = .ok after) (hne : field ≠ other) :
    after.find? other = origins.find? other := by
  obtain ⟨definition, _, hnote⟩ := exists_of_bind hnote
  split at hnote
  · obtain ⟨origin, _, hnote⟩ := exists_of_bind hnote
    split at hnote
    · obtain rfl := Except.ok.inj hnote
      exact find?_set_ne hne origin
    · split at hnote
      · dsimp only at hnote
        split at hnote
        · obtain rfl := Except.ok.inj hnote
          exact find?_set_ne hne _
        · obtain rfl := Except.ok.inj hnote
          rfl
      · obtain rfl := Except.ok.inj hnote
        rfl
  · obtain rfl := Except.ok.inj hnote
    rfl

/-- There is only one write.  If it is a store, it was found to reach all
exits. -/
def IsSole (init : ConstructorBody) (writes : List ReceiverWrite) : Prop :=
  ∃ write, writes = [write] ∧ ∀ instr value, write = .put instr value →
    init.body.reachesAllExits instr = .ok true

/-- Writes are noted only if there is one of them. -/
theorem noteWrites_cases
    (hnote : init.noteWrites origins field writes = .ok after) :
    after = origins ∨ init.IsSole writes ∧
      ∀ other, field ≠ other → after.find? other = origins.find? other := by
  unfold noteWrites at hnote
  split at hnote
  · next origin =>
      obtain rfl := Except.ok.inj hnote
      exact Or.inr ⟨⟨_, rfl, nofun⟩, fun other hne => find?_set_ne hne origin⟩
  · next instr value =>
      obtain ⟨visibility, hvisibility, hnote⟩ := exists_of_bind hnote
      cases visibility with
      | «exact» =>
          have hreaches :=
            Body.reachesAllExits_of_visibility hvisibility (by simp)
          refine Or.inr ⟨⟨_, rfl, ?_⟩, fun other hne => notePut_find?_ne hnote hne⟩
          rintro _ _ ⟨rfl, rfl⟩
          exact hreaches
      | afterRead => exact Or.inl (Except.ok.inj hnote).symm
      | partially => exact Or.inl (Except.ok.inj hnote).symm
  · exact Or.inl (Except.ok.inj hnote).symm

theorem exists_isSole {table : List (FieldId × List ReceiverWrite)}
    (hnotes : table.foldlM (fun origins (field, writes) =>
      init.noteWrites origins field writes) Table.empty = .ok origins)
    (hnoted : origins.find? field ≠ none) :
    ∃ writes, (field, writes) ∈ table ∧ init.IsSole writes := by
  have hcases : origins.find? field = none ∨
      ∃ writes, (field, writes) ∈ table ∧ init.IsSole writes := by
    refine foldlM_induct (P := fun done origins => origins.find? field = none ∨
      ∃ writes, (field, writes) ∈ done ∧ init.IsSole writes)
      ?_ (Or.inl rfl) hnotes
    rintro done ⟨written, writes⟩ origins after hdone hstep
    rcases hdone with hnone | ⟨earlier, hmem, hsole⟩
    · rcases noteWrites_cases hstep with rfl | ⟨hsole, hframe⟩
      · exact Or.inl hnone
      · by_cases hfield : written = field
        · subst hfield
          exact Or.inr ⟨writes, by simp, hsole⟩
        · exact Or.inl ((hframe field hfield).trans hnone)
    · exact Or.inr ⟨earlier, List.mem_append_left _ hmem, hsole⟩
  exact hcases.resolve_left hnoted

/-- A field has an origin only if one instruction is seen to write it. -/
theorem origins_cases (hbody : init.body.Indexed) (hruns : init.Runs running)
    (horigins : init.origins = .ok origins) (hnoted : origins.find? field ≠ none) :
    ∃ instr, (∀ other, init.Writes field other ↔ other = instr) ∧
      ∀ object value, init.body.opcode instr = .instancePut field object value →
        init.body.reachesAllExits instr = .ok true := by
  obtain ⟨table, hwrites, hnotes⟩ := exists_of_bind horigins
  obtain ⟨writes, hmem, write, rfl, hreaches⟩ := exists_isSole hnotes hnoted
  obtain ⟨hanswers, htable⟩ := writes_eq_ok hwrites
  have hsingle := htable field
  rw [Table.find?_of_mem hmem, Option.getD_some] at hsingle
  obtain ⟨instr, hinstr, honly, hothers⟩ :=
    exists_of_flatMap_eq_singleton hsingle.symm
  obtain ⟨entries, hentries, hentry⟩ :=
    mem_writesInto.mp (honly ▸ List.mem_singleton_self write)
  obtain ⟨hfield, hown, hput⟩ := writesOf_sound hruns hentries hentry
  -- The field is one of the class, so every other write of it would be listed.
  refine ⟨instr, fun other => ⟨?_, ?_⟩, ?_⟩
  · intro hother
    have hlisted : other ∈ init.body.allInstructions := by
      apply hbody.mem_allInstructions
      cases hother with
      | put hopcode => simp [hopcode]
      | forwarded hopcode => simp [hopcode]
    obtain ⟨entries, hentries⟩ := hanswers other hlisted
    obtain ⟨write, hentry⟩ := writesOf_complete hruns hentries hother hown
    exact hothers other hlisted
      (List.ne_nil_of_mem (mem_writesInto.mpr ⟨entries, hentries, hentry⟩))
  · rintro rfl
    exact hfield
  · intro object value hopcode
    exact hreaches instr value (hput field object value hopcode)

end ConstructorBody

namespace Body

variable {body : Body} {program : Program} {before after : Findings}
variable {field : FieldId} {origins : Origins}

/-- If the origin of a field is recorded, then exactly one instruction writes
the field of the receiver under its copies.  If that is a store, it is passed
on the way to every return, except in a straight body whose line comes to a
return before it. -/
theorem sole_write_of_noted (haccepted : body.Accepted)
    (hrun : body.noteConstructor program before = .ok (origins, after))
    (hnoted : origins.find? field ≠ none) :
    ∃ write, (∀ instr, body.WritesField program
        (fun object => body.Origin object (.argument 0)) field instr ↔
          instr = write) ∧
      ∀ object value, body.opcode write = .instancePut field object value →
        ((∀ exit ∈ body.returnBlocks, ∀ path,
          body.graph.Path Body.entry path exit → body.blockOf write ∈ path) ↔
        (body.isStraightLine = true →
          ∀ exit ∈ (body.line body.blocks.size Body.entry).takeWhile
            (· != body.blockOf write), exit ∉ body.returnBlocks)) := by
  obtain ⟨running, hmethod, hrun⟩ := exists_of_bind hrun
  split at hrun
  · next hconstructor =>
      rw [Bool.and_eq_true, Bool.not_eq_true'] at hconstructor
      obtain ⟨found, horigins, hrun⟩ := exists_of_bind hrun
      obtain ⟨rfl, _⟩ := Prod.mk.inj (Except.ok.inj hrun)
      obtain ⟨write, hwrites, hreaches⟩ := ConstructorBody.origins_cases
        haccepted.indexed.1 ⟨hconstructor.2, hmethod, rfl⟩ horigins hnoted
      refine ⟨write, hwrites, fun object value hopcode => ?_⟩
      exact onEveryExit_iff_of_reachesAllExits haccepted.wellFormed
        (hreaches object value hopcode)
  · obtain ⟨rfl, _⟩ := Prod.mk.inj (Except.ok.inj hrun)
    exact absurd rfl hnoted

/-- A class with two constructors; the first one is known to fill the only
field with its argument. -/
def twoConstructors : Program where
  types := #[
    { descriptor := .plain "LA;"
      definition := some { parent := none, traits := {}, fields := [0],
                           methods := [0, 1] } },
    { descriptor := .plain "I" }]
  fields := #[{ holder := 0, name := "f", type := 1,
                traits := { isFinal := true } }]
  methods := #[
    { holder := 0, name := "<init>", params := [1], returns := 1
      traits := { isConstructor := true }
      facts := { constructs := some
                   { origins := .ofList [(0, .argument 1)] } } },
    { holder := 0, name := "<init>", params := [1], returns := 1
      traits := { isConstructor := true } }]

/-- The field is filled through a copy of the receiver before the body branches
to two returns. -/
def fillThenBranch : Body where
  method := 1
  isStatic := false
  values := #[
    { type := .reference (.object 0) .nonNull, definition := .instruction 0
      users := [2] },
    { type := .primitive .int, definition := .instruction 1, users := [3, 4] },
    { type := .reference (.object 0) .nonNull, definition := .instruction 2
      users := [3] }]
  instructions := #[⟨0, .argument 0, some 0⟩, ⟨0, .argument 1, some 1⟩,
    ⟨0, .refine 0, some 2⟩, ⟨0, .instancePut 0 2 1, none⟩,
    ⟨0, .branch .eq 1 none 1 2, none⟩, ⟨1, .ret none, none⟩,
    ⟨2, .ret none, none⟩]
  blocks := #[⟨[0, 1, 2, 3, 4], [], []⟩, ⟨[5], [], []⟩, ⟨[6], [], []⟩]
  positions := #[0, 1, 2, 3, 4, 0, 0]
  incoming := #[[], [0], [0]]

theorem fillThenBranch_accepted : fillThenBranch.Accepted :=
  ⟨1, false,
    [.block, .block, .block,
      .value 0 (.argument 0) (.reference (.object 0) .nonNull),
      .value 0 (.argument 1) (.primitive .int),
      .value 0 (.refine 0) (.reference (.object 0) .nonNull),
      .push 0 (.instancePut 0 2 1), .push 0 (.branch .eq 1 none 1 2),
      .push 1 (.ret none), .push 2 (.ret none)],
    _, _, rfl, by decide +kernel⟩

theorem fillThenBranch_sole_write :
    fillThenBranch.Accepted ∧
      (∃ origins after, fillThenBranch.noteConstructor twoConstructors {} =
          .ok (origins, after) ∧ origins.find? 0 = some (.argument 1)) ∧
      (∀ instr, fillThenBranch.WritesField twoConstructors
        (fun object => fillThenBranch.Origin object (.argument 0)) 0 instr ↔
          instr = 3) ∧
      ∀ exit ∈ fillThenBranch.returnBlocks, ∀ path,
        fillThenBranch.graph.Path Body.entry path exit →
          fillThenBranch.blockOf 3 ∈ path := by
  have hnoted : ∃ origins after, fillThenBranch.noteConstructor twoConstructors
      {} = .ok (origins, after) ∧ origins.find? 0 = some (.argument 1) :=
    ⟨_, _, rfl, rfl⟩
  obtain ⟨origins, after, hrun, hfound⟩ := hnoted
  obtain ⟨write, hwrites, hpaths⟩ := sole_write_of_noted fillThenBranch_accepted
    hrun (show origins.find? 0 ≠ none by rw [hfound]; simp)
  have hthis : fillThenBranch.Origin 2 (.argument 0) :=
    .copy rfl (.defined rfl rfl)
  obtain rfl : 3 = write := (hwrites 3).mp (.put rfl hthis)
  refine ⟨fillThenBranch_accepted, ⟨origins, after, hrun, hfound⟩, hwrites, ?_⟩
  exact (hpaths 2 1 rfl).mpr fun hstraight => absurd hstraight (by decide)

/-- The other constructor is called in one of two branches. -/
def forwardWhenZero : Body where
  method := 1
  isStatic := false
  values := #[
    { type := .reference (.object 0) .nonNull, definition := .instruction 0
      users := [3] },
    { type := .primitive .int, definition := .instruction 1, users := [2, 3] }]
  instructions := #[⟨0, .argument 0, some 0⟩, ⟨0, .argument 1, some 1⟩,
    ⟨0, .branch .eq 1 none 1 2, none⟩, ⟨1, .call .direct 0 [0, 1], none⟩,
    ⟨1, .ret none, none⟩, ⟨2, .ret none, none⟩]
  blocks := #[⟨[0, 1, 2], [], []⟩, ⟨[3, 4], [], []⟩, ⟨[5], [], []⟩]
  positions := #[0, 1, 2, 0, 1, 0]
  incoming := #[[], [0], [0]]

/-- The entry returns under a handler, and only the handler fills the field. -/
def fillWhenCaught : Body where
  method := 1
  isStatic := false
  values := #[
    { type := .reference (.object 0) .nonNull, definition := .instruction 0
      users := [4] },
    { type := .top, definition := .instruction 1, users := [] },
    { type := .primitive .int, definition := .instruction 3, users := [4] }]
  instructions := #[⟨0, .argument 0, some 0⟩, ⟨0, .classObject 0, some 1⟩,
    ⟨0, .ret none, none⟩, ⟨1, .number 7, some 2⟩,
    ⟨1, .instancePut 0 0 2, none⟩, ⟨1, .ret none, none⟩]
  blocks := #[⟨[0, 1, 2], [], [⟨none, 1⟩]⟩, ⟨[3, 4, 5], [], []⟩]
  positions := #[0, 1, 2, 0, 1, 2]
  incoming := #[[], [0]]

/-- The field is filled again through a cast of the receiver. -/
def fillThroughCast : Body where
  method := 1
  isStatic := false
  values := #[
    { type := .reference (.object 0) .nonNull, definition := .instruction 0
      users := [2, 3] },
    { type := .primitive .int, definition := .instruction 1, users := [2] },
    { type := .reference (.object 0) .nonNull, definition := .instruction 3
      users := [5] },
    { type := .primitive .int, definition := .instruction 4, users := [5] }]
  instructions := #[⟨0, .argument 0, some 0⟩, ⟨0, .number 7, some 1⟩,
    ⟨0, .instancePut 0 0 1, none⟩, ⟨0, .checkCast 0 0, some 2⟩,
    ⟨0, .number 8, some 3⟩, ⟨0, .instancePut 0 2 3, none⟩,
    ⟨0, .ret none, none⟩]
  blocks := #[⟨[0, 1, 2, 3, 4, 5, 6], [], []⟩]
  positions := #[0, 1, 2, 3, 4, 5, 6]
  incoming := #[[]]

/-- The value is the receiver under some name; casts give names too. -/
def IsThis (body : Body) (object : ValueId) : Prop :=
  ∃ this, body.definingOpcode? this = some (.argument 0) ∧ body.Names this object

/-- The constructor is found to fill the field from this origin. -/
def Notes (body : Body) (program : Program) (field : FieldId)
    (origin : FieldOrigin) : Prop :=
  ∃ origins after, body.noteConstructor program {} = .ok (origins, after) ∧
    origins.find? field = some origin

/-- A recorded field can be left unfilled by a branch without the call that
fills it or by a return before the store, and can be written twice. -/
theorem noted_without_sole_write :
    (forwardWhenZero.Accepted ∧
      forwardWhenZero.Notes twoConstructors 0 (.argument 1) ∧
      forwardWhenZero.WritesField twoConstructors forwardWhenZero.IsThis 0 3 ∧
      ¬ ∀ exit ∈ forwardWhenZero.returnBlocks, ∀ path,
        forwardWhenZero.graph.Path Body.entry path exit →
          forwardWhenZero.blockOf 3 ∈ path) ∧
    (fillWhenCaught.Accepted ∧
      fillWhenCaught.Notes twoConstructors 0 (.value (.number 7)) ∧
      fillWhenCaught.WritesField twoConstructors fillWhenCaught.IsThis 0 4 ∧
      ¬ ∀ exit ∈ fillWhenCaught.returnBlocks, ∀ path,
        fillWhenCaught.graph.Path Body.entry path exit →
          fillWhenCaught.blockOf 4 ∈ path) ∧
    (fillThroughCast.Accepted ∧
      fillThroughCast.Notes twoConstructors 0 (.value (.number 7)) ∧
      fillThroughCast.WritesField twoConstructors fillThroughCast.IsThis 0 2 ∧
      fillThroughCast.WritesField twoConstructors fillThroughCast.IsThis 0 5) := by
  have hforward : forwardWhenZero.Accepted :=
    ⟨1, false,
      [.block, .block, .block,
        .value 0 (.argument 0) (.reference (.object 0) .nonNull),
        .value 0 (.argument 1) (.primitive .int),
        .push 0 (.branch .eq 1 none 1 2), .push 1 (.call .direct 0 [0, 1]),
        .push 1 (.ret none), .push 2 (.ret none)],
      _, _, rfl, by decide +kernel⟩
  have hcaught : fillWhenCaught.Accepted :=
    ⟨1, false,
      [.block, .block,
        .value 0 (.argument 0) (.reference (.object 0) .nonNull),
        .value 0 (.classObject 0) .top, .push 0 (.ret none),
        .handler 0 ⟨none, 1⟩, .value 1 (.number 7) (.primitive .int),
        .push 1 (.instancePut 0 0 2), .push 1 (.ret none)],
      _, _, rfl, by decide +kernel⟩
  have hcast : fillThroughCast.Accepted :=
    ⟨1, false,
      [.block, .value 0 (.argument 0) (.reference (.object 0) .nonNull),
        .value 0 (.number 7) (.primitive .int), .push 0 (.instancePut 0 0 1),
        .value 0 (.checkCast 0 0) (.reference (.object 0) .nonNull),
        .value 0 (.number 8) (.primitive .int), .push 0 (.instancePut 0 2 3),
        .push 0 (.ret none)],
      _, _, rfl, by decide +kernel⟩
  refine ⟨⟨hforward, ⟨_, _, rfl, rfl⟩, ?_, ?_⟩, ⟨hcaught, ⟨_, _, rfl, rfl⟩, ?_, ?_⟩,
    ⟨hcast, ⟨_, _, rfl, rfl⟩, ?_, ?_⟩⟩
  · exact .forwarded rfl ⟨0, rfl, .self⟩ rfl rfl rfl rfl rfl rfl
  · intro hevery
    have hedge : 2 ∈ forwardWhenZero.graph.next 0 := by decide
    have hpath := hevery 2 (by decide) [0, 2] (.step hedge (.single 2))
    exact absurd hpath (by decide)
  · exact .put rfl ⟨0, rfl, .self⟩
  · intro hevery
    exact absurd (hevery 0 (by decide) [0] (.single 0)) (by decide)
  · exact .put rfl ⟨0, rfl, .self⟩
  · have halias : (fillThroughCast.opcode 3).isAlias = true := rfl
    exact .put rfl ⟨0, rfl, .renamed .self halias (by decide) rfl⟩

end Body

end FlowFacts
