/-
Constructors that forward to each other.  Such a constructor only calls the
next one on the receiver, so what it is found to store is what the next one
stores, with the arguments traced back through the call.  Analyzed from the
last to the first, a chain of them gives for the first constructor what the
last one does with the arguments that reach it.
-/
import FlowFacts.Proofs.ConstructorWrites

namespace FlowFacts

universe u

variable {α : Type u}

/-- What a field of this origin holds, by the meaning of known values and the
arguments given to the constructor. -/
def FieldOrigin.content? (meaning : KnownValue → α) (given : Nat → α) :
    FieldOrigin → Option α
  | .argument index => some (given index)
  | .value known => some (meaning known)
  | .unknown | .typed _ _ => none

/-- The value of a constant; null is zero. -/
def Opcode.constant? : Opcode → Option KnownValue
  | number value => some (.number value)
  | null => some (.number 0)
  | text value => some (.text value)
  | classObject type => some (.classObject type)
  | _ => none

namespace Body

variable {body : Body} {program : Program} {value : ValueId} {opcode : Opcode}
variable {meaning : KnownValue → α} {given : Nat → α} {content : ValueId → α}
variable {known : KnownValue}

/-- The values of the body hold what they must when it runs with these
arguments: arguments, copies, constants, and static fields whose content is
recorded. -/
structure Respects (body : Body) (program : Program) (meaning : KnownValue → α)
    (given : Nat → α) (content : ValueId → α) : Prop where
  argument : ∀ value index, body.definingOpcode? value = some (.argument index) →
    content value = given index
  copy : ∀ value source, body.copied? value = some source →
    content value = content source
  constant : ∀ value opcode known, body.definingOpcode? value = some opcode →
    opcode.constant? = some known → content value = meaning known
  recorded : ∀ value field definition known,
    body.definingOpcode? value = some (.staticGet field) →
      program.field field = .ok definition →
        definition.facts.knowledge = .exactly known →
          content value = meaning known

namespace Respects

theorem exists_defined (hrespects : body.Respects program meaning given content)
    (horigin : body.Origin value opcode) :
    ∃ root, body.definingOpcode? root = some opcode ∧
      content value = content root := by
  induction horigin with
  | defined hdefined _ => exact ⟨_, hdefined, rfl⟩
  | copy hcopy _ ih =>
      obtain ⟨root, hdefined, hsame⟩ := ih
      exact ⟨root, hdefined, (hrespects.copy _ _ hcopy).trans hsame⟩

theorem content_of_argument?
    (hrespects : body.Respects program meaning given content) {index : Nat}
    (hargument : body.argument? value = some index) :
    content value = given index := by
  rw [argument?] at hargument
  split at hargument
  · next found hroot =>
      obtain rfl := Option.some.inj hargument
      obtain ⟨root, hdefined, hsame⟩ :=
        hrespects.exists_defined ((rootOpcode?_eq_some rfl).mp hroot)
      exact hsame.trans (hrespects.argument _ _ hdefined)
  · cases hargument

theorem content_of_knowledge
    (hrespects : body.Respects program meaning given content)
    (hknown : body.knowledge program value = .ok (.exactly known)) :
    content value = meaning known := by
  have hconstant : ∀ opcode, opcode.copied? = none →
      body.rootOpcode? value = some opcode → opcode.constant? = some known →
        content value = meaning known := by
    intro opcode hcopied hroot hvalue
    obtain ⟨root, hdefined, hsame⟩ :=
      hrespects.exists_defined ((rootOpcode?_eq_some hcopied).mp hroot)
    exact hsame.trans (hrespects.constant _ _ _ hdefined hvalue)
  rw [knowledge] at hknown
  split at hknown
  case h_5 field hroot =>
    obtain ⟨definition, hfield, hknown⟩ := exists_of_bind hknown
    obtain ⟨root, hdefined, hsame⟩ :=
      hrespects.exists_defined ((rootOpcode?_eq_some rfl).mp hroot)
    split at hknown
    · next recorded hrecorded =>
        obtain rfl := Knowledge.exactly.inj (Except.ok.inj hknown)
        exact hsame.trans (hrespects.recorded _ _ _ _ hdefined hfield hrecorded)
    · cases hknown
  case h_6 => cases hknown
  all_goals
    next hroot =>
      obtain rfl := Knowledge.exactly.inj (Except.ok.inj hknown)
      exact hconstant _ rfl hroot rfl

end Respects

/-- What an instruction gives, if that is determined by the arguments and by
what is recorded. -/
def outcome? (program : Program) (meaning : KnownValue → α) (given : Nat → α) :
    Opcode → Option α
  | .argument index => some (given index)
  | .staticGet field =>
      program.fields[field]?.bind fun definition =>
        definition.facts.knowledge.single?.map meaning
  | opcode => opcode.constant?.map meaning

theorem copied?_of_outcome? {x : α}
    (houtcome : outcome? program meaning given opcode = some x) :
    opcode.copied? = none := by
  cases opcode with
  | refine | move => cases houtcome
  | _ => rfl

/-- Contents of all values under these arguments; what is not determined is
left at a default. -/
def contents [Inhabited α] (body : Body) (program : Program)
    (meaning : KnownValue → α) (given : Nat → α) (value : ValueId) : α :=
  ((body.rootOpcode? value).bind (outcome? program meaning given)).getD default

theorem contents_of_defined [Inhabited α] {x : α}
    (hdefined : body.definingOpcode? value = some opcode)
    (houtcome : outcome? program meaning given opcode = some x) :
    body.contents program meaning given value = x := by
  have hcopied := copied?_of_outcome? houtcome
  rw [contents, (rootOpcode?_eq_some hcopied).mpr (.defined hdefined hcopied),
    Option.bind_some, houtcome, Option.getD_some]

/-- A copy and what it renames lead to the same instruction, or to none that
determines anything. -/
theorem contents_of_copied? [Inhabited α] {source : ValueId}
    (hcopy : body.copied? value = some source) :
    body.contents program meaning given value =
      body.contents program meaning given source := by
  rw [contents, contents]
  congr 1
  ext x
  simp only [Option.bind_eq_some_iff]
  refine exists_congr fun opcode => and_congr_left fun houtcome => ?_
  have hcopied := copied?_of_outcome? houtcome
  rw [rootOpcode?_eq_some hcopied, rootOpcode?_eq_some hcopied]
  constructor
  · intro horigin
    cases horigin with
    | defined hdefined hcopied =>
        rw [copied?_eq hdefined, hcopied] at hcopy
        cases hcopy
    | copy hcopy' hrest =>
        obtain rfl := Option.some.inj (hcopy.symm.trans hcopy')
        exact hrest
  · exact .copy hcopy

/-- Whatever the arguments are, there are contents that respect them. -/
theorem respects_contents [Inhabited α] (body : Body) (program : Program)
    (meaning : KnownValue → α) (given : Nat → α) :
    body.Respects program meaning given (body.contents program meaning given) where
  argument _ _ hdefined := contents_of_defined hdefined rfl
  copy _ _ := contents_of_copied?
  constant value opcode known hdefined hconstant := by
    apply contents_of_defined hdefined
    cases opcode <;> simp_all [Opcode.constant?, outcome?]
  recorded value field definition known hdefined hfield hknown := by
    apply contents_of_defined hdefined
    rw [Program.field_eq_ok] at hfield
    simp [outcome?, hfield, hknown, Knowledge.single?]

end Body

namespace ConstructorBody

variable {init : ConstructorBody} {value : ValueId} {operands : List ValueId}
variable {meaning : KnownValue → α} {given passed : Nat → α}
variable {content : ValueId → α} {origin seen : FieldOrigin} {x : α}

/-- The origin of a value is an argument or what the value is known to be, if
it is described at all. -/
theorem originOf_cases (horigin : init.originOf value = .ok origin) :
    origin = .unknown ∨
      (∃ index, init.body.argument? value = some index ∧
        origin = .argument index) ∨
      ∃ known, init.body.knowledge init.program value = .ok (.exactly known) ∧
        origin = .value known := by
  rw [originOf] at horigin
  split at horigin
  on_goal 1 => split at horigin
  case isFalse index hargument _ =>
    obtain rfl := Except.ok.inj horigin
    exact Or.inr (Or.inl ⟨index, hargument, rfl⟩)
  -- the receiver, and what is no argument
  all_goals
    obtain ⟨knowledge, hknowledge, horigin⟩ := exists_of_bind horigin
    split at horigin
    · next known =>
        obtain rfl := Except.ok.inj horigin
        exact Or.inr (Or.inr ⟨known, hknowledge, rfl⟩)
    · exact Or.inl (Except.ok.inj horigin).symm

/-- A value whose origin is described holds what the description says. -/
theorem eq_content_of_originOf
    (hrespects : init.body.Respects init.program meaning given content)
    (horigin : init.originOf value = .ok origin)
    (hdenotes : origin.content? meaning given = some x) : x = content value := by
  rcases originOf_cases horigin with
    rfl | ⟨index, hargument, rfl⟩ | ⟨known, hknowledge, rfl⟩
  · cases hdenotes
  · obtain rfl := Option.some.inj hdenotes
    exact (hrespects.content_of_argument? hargument).symm
  · obtain rfl := Option.some.inj hdenotes
    exact (hrespects.content_of_knowledge hknowledge).symm

/-- What the calling constructor describes is what the called one does with
the content of the operands. -/
theorem content?_of_forwardedOrigin
    (hrespects : init.body.Respects init.program meaning given content)
    (hpassed : ∀ index value, operands[index]? = some value →
      passed index = content value)
    (hseen : init.forwardedOrigin operands origin = .ok seen)
    (hdenotes : seen.content? meaning given = some x) :
    origin.content? meaning passed = some x := by
  cases origin with
  | argument index =>
      rw [forwardedOrigin] at hseen
      split at hseen
      · next operand hoperand =>
          rw [eq_content_of_originOf hrespects hseen hdenotes,
            ← hpassed index operand hoperand]
          rfl
      · obtain rfl := Except.ok.inj hseen
        cases hdenotes
  | value value =>
      obtain rfl := Except.ok.inj hseen
      exact hdenotes
  | unknown | typed =>
      obtain rfl := Except.ok.inj hseen
      cases hdenotes

end ConstructorBody

namespace Program

variable {program : Program}

def IsConstructorOf (program : Program) (method : MethodId) (holder : TypeId) :
    Prop :=
  ∃ definition, program.method method = .ok definition ∧
    definition.traits.isConstructor = true ∧ definition.holder = holder

def originsOf (program : Program) (method : MethodId) : Origins :=
  match program.methods[method]?.bind (·.facts.constructs) with
  | some summary => summary.origins
  | none => .empty

end Program

namespace Body

/-- The body is of a constructor of the class.  It stores into no field of an
object, and its only constructor call is one of `target`, on the receiver, with
these operands. -/
structure ForwardsTo (body : Body) (program : Program) (holder : TypeId)
    (target : MethodId) (operands : List ValueId) : Prop where
  isConstructor : program.IsConstructorOf body.method holder
  stores_nothing : ∀ instr ∈ body.allInstructions, ∀ field object value,
    body.opcode instr ≠ .instancePut field object value
  receiver : ∃ this, operands.head? = some this ∧ body.isReceiver this = true
  call : ∃ call ∈ body.allInstructions, ∃ kind,
    body.opcode call = .call kind target operands ∧
      ∀ instr ∈ body.allInstructions, ∀ kind method arguments holder,
        body.opcode instr = .call kind method arguments →
          program.IsConstructorOf method holder → instr = call

end Body

namespace ConstructorBody

variable {init : ConstructorBody} {holder : TypeId} {target : MethodId}
variable {operands : List ValueId} {field : FieldId} {write : ReceiverWrite}
variable {origins : Origins} {origin seen : FieldOrigin}

/-- Every write that a forwarding constructor makes is one that the called
constructor is known to make. -/
theorem forwarded_of_mem_writesInto {instr : InstrId}
    (hforwards : init.body.ForwardsTo init.program holder target operands)
    (hinstr : instr ∈ init.body.allInstructions)
    (hwrite : write ∈ init.writesInto field instr) :
    ∃ origin seen, (init.program.originsOf target).find? field = some origin ∧
      init.forwardedOrigin operands origin = .ok seen ∧
      write = .forwarded seen := by
  obtain ⟨entries, hwrites, hentry⟩ := mem_writesInto.mp hwrite
  rw [writesOf] at hwrites
  split at hwrites
  · next written object value hopcode =>
      exact absurd hopcode (hforwards.stores_nothing instr hinstr _ _ _)
  · next method arguments hopcode =>
      obtain ⟨constructor, hmethod, hwrites⟩ := exists_of_bind hwrites
      split at hwrites
      · next hconstructor =>
          obtain ⟨call, _, kind, hcall, hsole⟩ := hforwards.call
          obtain rfl := hsole instr hinstr _ _ _ _ hopcode
            ⟨constructor, hmethod, hconstructor, rfl⟩
          obtain ⟨_, rfl, rfl⟩ := Opcode.call.inj (hopcode.symm.trans hcall)
          obtain ⟨_, _, _, summary, origin, seen, hsummary, hlisted, hseen, rfl⟩ :=
            forwardedWrites_eq_ok hwrites hentry
          refine ⟨origin, seen, ?_, hseen, rfl⟩
          rw [Program.originsOf, Program.method_eq_ok.mp hmethod,
            Option.bind_some, hsummary]
          exact hlisted
      · obtain rfl := Except.ok.inj hwrites
        cases hentry
  · obtain rfl := Except.ok.inj hwrites
    cases hentry

theorem eq_of_find?_set (hfound : (origins.set field seen).find? field = some origin) :
    origin = seen := by
  rw [Origins.set] at hfound
  split at hfound
  · rw [Table.find?_erase, if_pos rfl] at hfound
    cases hfound
  · rw [Table.find?_insert, if_pos rfl] at hfound
    exact (Option.some.inj hfound).symm

/-- A field whose only write was forwarded is noted with what the write
tells. -/
theorem eq_of_forwarded {table : List (FieldId × List ReceiverWrite)}
    (hnotes : table.foldlM (fun origins (field, writes) =>
      init.noteWrites origins field writes) Table.empty = .ok origins)
    (hfound : origins.find? field = some origin) :
    ∃ writes, (field, writes) ∈ table ∧
      ∀ seen, writes = [.forwarded seen] → origin = seen := by
  revert hfound
  refine foldlM_induct (P := fun done origins => origins.find? field = some origin →
    ∃ writes, (field, writes) ∈ done ∧
      ∀ seen, writes = [.forwarded seen] → origin = seen) ?_ (by simp) hnotes
  rintro done ⟨written, writes⟩ origins after ih hstep hfound
  by_cases hfield : written = field
  · subst hfield
    refine ⟨writes, by simp, ?_⟩
    rintro seen rfl
    obtain rfl := Except.ok.inj hstep
    exact eq_of_find?_set hfound
  · have hsame : after.find? field = origins.find? field := by
      rcases noteWrites_cases hstep with rfl | ⟨_, hframe⟩
      · rfl
      · exact hframe field hfield
    obtain ⟨earlier, hmem, hearlier⟩ := ih (hsame ▸ hfound)
    exact ⟨earlier, List.mem_append_left _ hmem, hearlier⟩

/-- What a forwarding constructor is found to store comes from what is known
about the called one. -/
theorem exists_forwardedOrigin
    (hforwards : init.body.ForwardsTo init.program holder target operands)
    (horigins : init.origins = .ok origins)
    (hfound : origins.find? field = some origin) :
    ∃ inner, (init.program.originsOf target).find? field = some inner ∧
      init.forwardedOrigin operands inner = .ok origin := by
  obtain ⟨table, hwrites, hnotes⟩ := exists_of_bind horigins
  obtain ⟨writes, hlisted, hforwarded⟩ := eq_of_forwarded hnotes hfound
  obtain ⟨_, hmem, write, rfl, _⟩ := exists_isSole hnotes
    (show origins.find? field ≠ none by simp [hfound])
  -- the table has one entry for the field, and that has one write
  obtain rfl := Option.some.inj
    ((Table.find?_of_mem hlisted).symm.trans (Table.find?_of_mem hmem))
  have hsingle := (writes_eq_ok hwrites).2 field
  rw [Table.find?_of_mem hmem, Option.getD_some] at hsingle
  obtain ⟨instr, hinstr, honly, _⟩ := exists_of_flatMap_eq_singleton hsingle.symm
  obtain ⟨inner, seen, hinner, hseen, rfl⟩ :=
    forwarded_of_mem_writesInto hforwards hinstr
      (honly ▸ List.mem_singleton_self write)
  exact ⟨inner, hinner, hforwarded seen rfl ▸ hseen⟩

end ConstructorBody

namespace Program

variable {program before after : Program} {method other : MethodId}
variable {origins : Origins} {definition : MethodDecl} {holder : TypeId}

def recordOrigins (program : Program) (method : MethodId)
    (definition : MethodDecl) (origins : Origins) : Program :=
  { program with
    methods := program.methods.setIfInBounds method
      { definition with
        facts := { definition.facts with
          constructs := some
            { definition.facts.constructs.getD {} with origins } } } }

/-- Publishing what was noted about one constructor records just that. -/
theorem publish_noteOrigins
    (hpublish : (({} : Findings).noteOrigins method origins).publish program =
      .ok after) :
    ∃ definition, program.methods[method]? = some definition ∧
      after = program.recordOrigins method definition origins := by
  obtain ⟨_, hfields, hmethods⟩ := exists_of_bind hpublish
  obtain rfl := Except.ok.inj hfields
  obtain ⟨_, hupdate, hdone⟩ := exists_of_bind hmethods
  obtain rfl := Except.ok.inj hdone
  obtain ⟨definition, hmethod, hupdate⟩ := exists_of_bind hupdate
  exact ⟨definition, method_eq_ok.mp hmethod, (Except.ok.inj hupdate).symm⟩

theorem originsOf_recordOrigins_self
    (hmethod : program.methods[method]? = some definition) :
    (program.recordOrigins method definition origins).originsOf method = origins := by
  obtain ⟨hlt, _⟩ := Array.getElem?_eq_some_iff.mp hmethod
  rw [originsOf, recordOrigins, Array.getElem?_setIfInBounds_self_of_lt hlt]
  rfl

theorem originsOf_recordOrigins_ne (hne : method ≠ other) :
    (program.recordOrigins method definition origins).originsOf other =
      program.originsOf other := by
  rw [originsOf, recordOrigins, Array.getElem?_setIfInBounds_ne hne, originsOf]

/-- Two programs have the same fields and constructors.  What is recorded about
the constructors may differ. -/
structure SameDeclarations (before after : Program) : Prop where
  fields : after.fields = before.fields
  constructors : ∀ method holder,
    after.IsConstructorOf method holder ↔ before.IsConstructorOf method holder

theorem SameDeclarations.refl (program : Program) :
    program.SameDeclarations program :=
  ⟨rfl, fun _ _ => Iff.rfl⟩

theorem SameDeclarations.trans {middle : Program}
    (hfirst : before.SameDeclarations middle)
    (hsecond : middle.SameDeclarations after) : before.SameDeclarations after :=
  ⟨hsecond.fields.trans hfirst.fields, fun method holder =>
    (hsecond.constructors method holder).trans (hfirst.constructors method holder)⟩

theorem sameDeclarations_recordOrigins
    (hmethod : program.methods[method]? = some definition) :
    program.SameDeclarations (program.recordOrigins method definition origins) := by
  refine ⟨rfl, fun other holder => ?_⟩
  obtain ⟨hlt, _⟩ := Array.getElem?_eq_some_iff.mp hmethod
  simp only [IsConstructorOf, method_eq_ok]
  by_cases hother : method = other
  · subst hother
    rw [hmethod, recordOrigins, Array.getElem?_setIfInBounds_self_of_lt hlt]
    simp
  · rw [recordOrigins, Array.getElem?_setIfInBounds_ne hother]

end Program

namespace Body

variable {body : Body} {program before after : Program} {holder : TypeId}
variable {target : MethodId} {operands : List ValueId} {origins : Origins}
variable {findings : Findings} {meaning : KnownValue → α}
variable {given passed reaching : Nat → α} {content : ValueId → α}
variable {field : FieldId} {x : α}

theorem ForwardsTo.congr (hforwards : body.ForwardsTo before holder target operands)
    (hsame : before.SameDeclarations after) :
    body.ForwardsTo after holder target operands := by
  obtain ⟨call, hcall, kind, hopcode, hsole⟩ := hforwards.call
  refine ⟨(hsame.constructors _ _).mpr hforwards.isConstructor,
    hforwards.stores_nothing, hforwards.receiver, call, hcall, kind, hopcode, ?_⟩
  intro instr hinstr kind method arguments holder hother hconstructor
  exact hsole instr hinstr kind method arguments holder hother
    ((hsame.constructors _ _).mp hconstructor)

theorem Respects.congr (hrespects : body.Respects before meaning given content)
    (hsame : before.SameDeclarations after) :
    body.Respects after meaning given content := by
  refine ⟨hrespects.argument, hrespects.copy, hrespects.constant, ?_⟩
  intro value field definition known hdefined hfield
  rw [Program.field_eq_ok, hsame.fields, ← Program.field_eq_ok] at hfield
  exact hrespects.recorded value field definition known hdefined hfield

theorem ForwardsTo.noteConstructor_eq_ok
    (hforwards : body.ForwardsTo program holder target operands)
    (hrun : body.noteConstructor program {} = .ok (origins, findings)) :
    ConstructorBody.origins { program, body, holder } = .ok origins ∧
      findings = ({} : Findings).noteOrigins body.method origins := by
  obtain ⟨definition, hmethod, hconstructor, rfl⟩ := hforwards.isConstructor
  obtain ⟨this, _, hthis⟩ := hforwards.receiver
  have hstatic : body.isStatic = false := by
    rw [isReceiver, Bool.and_eq_true, Bool.not_eq_true'] at hthis
    exact hthis.1
  obtain ⟨running, hrunning, hrun⟩ := exists_of_bind hrun
  obtain rfl := Except.ok.inj (hmethod.symm.trans hrunning)
  rw [hconstructor, hstatic, Bool.not_false, Bool.and_self, if_pos rfl] at hrun
  obtain ⟨found, horigins, hrun⟩ := exists_of_bind hrun
  obtain ⟨rfl, rfl⟩ := Prod.mk.inj (Except.ok.inj hrun)
  exact ⟨horigins, rfl⟩

/-- One constructor of a chain: what it is found to store is what the next one
is known to store, with the operands as arguments. -/
theorem ForwardsTo.content?_next
    (hforwards : body.ForwardsTo program holder target operands)
    (hrespects : body.Respects program meaning given content)
    (hpassed : ∀ index value, operands[index]? = some value →
      passed index = content value)
    (hrun : body.noteConstructor program {} = .ok (origins, findings))
    (hdenotes : (origins.get field).content? meaning given = some x) :
    ((program.originsOf target).get field).content? meaning passed = some x := by
  obtain ⟨horigins, _⟩ := hforwards.noteConstructor_eq_ok hrun
  rw [Origins.get] at hdenotes ⊢
  cases hfound : origins.find? field with
  | none =>
      rw [hfound] at hdenotes
      cases hdenotes
  | some origin =>
      rw [hfound, Option.getD_some] at hdenotes
      obtain ⟨inner, hinner, hseen⟩ :=
        ConstructorBody.exists_forwardedOrigin hforwards horigins hfound
      rw [hinner, Option.getD_some]
      exact ConstructorBody.content?_of_forwardedOrigin hrespects hpassed hseen
        hdenotes

/-- Publishing what is found about a constructor changes what is known about
that constructor and nothing else. -/
theorem ForwardsTo.published
    (hforwards : body.ForwardsTo program holder target operands)
    (hrun : body.noteConstructor program {} = .ok (origins, findings))
    (hpublish : findings.publish program = .ok after) :
    after.originsOf body.method = origins ∧
      (∀ other, body.method ≠ other →
        after.originsOf other = program.originsOf other) ∧
      program.SameDeclarations after := by
  obtain ⟨_, rfl⟩ := hforwards.noteConstructor_eq_ok hrun
  obtain ⟨definition, hmethod, rfl⟩ := Program.publish_noteOrigins hpublish
  refine ⟨Program.originsOf_recordOrigins_self hmethod, ?_,
    Program.sameDeclarations_recordOrigins hmethod⟩
  exact fun other hne => Program.originsOf_recordOrigins_ne hne

/-- Analyze constructors from the last of a list to the first.  What is found
about one is published before the next is analyzed. -/
def noteInTurn (program : Program) : List Body → Except Fault (Origins × Program)
  | [] => return (.empty, program)
  | body :: rest => do
      let (_, program) ← noteInTurn program rest
      let (origins, findings) ← body.noteConstructor program {}
      return (origins, ← findings.publish program)

/-- Constructors of a class that forward one to the next.  The first is given
some arguments, the values of all bodies hold what they must, and the operands
of the calls are passed on until some arguments reach the last constructor. -/
inductive Forwarding (program : Program) (holder : TypeId)
    (meaning : KnownValue → α) (last : MethodId) (reaching : Nat → α) :
    List Body → MethodId → (Nat → α) → Prop
  | last (hlast : program.IsConstructorOf last holder) :
      Forwarding program holder meaning last reaching [] last reaching
  | forward {body : Body} {rest : List Body} {next : MethodId}
      {operands : List ValueId} {given passed : Nat → α} {content : ValueId → α}
      (hforwards : body.ForwardsTo program holder next operands)
      (hrespects : body.Respects program meaning given content)
      (hpassed : ∀ index value, operands[index]? = some value →
        passed index = content value)
      (hrest : Forwarding program holder meaning last reaching rest next passed) :
      Forwarding program holder meaning last reaching (body :: rest) body.method
        given

namespace Forwarding

variable {last method : MethodId} {first : Body} {bodies rest : List Body}

/-- A run over a chain.  The induction is on the chain: the program in which a
constructor is analyzed is the one that the rest of the chain has left. -/
theorem content?_last
    (hchain : Forwarding program holder meaning last reaching bodies method given)
    (hrun : noteInTurn program bodies = .ok (origins, after)) :
    program.SameDeclarations after ∧
      (bodies ≠ [] → after.originsOf method = origins) ∧
      (∀ other ∉ bodies.map Body.method,
        after.originsOf other = program.originsOf other) ∧
      ∀ field x,
        ((after.originsOf method).get field).content? meaning given = some x →
          ((program.originsOf last).get field).content? meaning reaching =
            some x := by
  induction hchain generalizing origins after with
  | last hlast =>
      obtain ⟨_, rfl⟩ := Prod.mk.inj (Except.ok.inj hrun)
      exact ⟨.refl program, fun hne => absurd rfl hne, fun _ _ => rfl,
        fun _ _ hdenotes => hdenotes⟩
  | @forward body rest next operands given passed content hforwards hrespects
      hpassed hrest ih =>
      obtain ⟨⟨_, later⟩, hlater, hrun⟩ := exists_of_bind hrun
      obtain ⟨⟨found, findings⟩, hnote, hrun⟩ := exists_of_bind hrun
      obtain ⟨published, hpublish, hrun⟩ := exists_of_bind hrun
      obtain ⟨rfl, rfl⟩ := Prod.mk.inj (Except.ok.inj hrun)
      obtain ⟨hsame, _, hframe, hcontent⟩ := ih hlater
      have hforwards := hforwards.congr hsame
      obtain ⟨hself, hothers, hpublished⟩ := hforwards.published hnote hpublish
      refine ⟨hsame.trans hpublished, fun _ => hself, ?_, ?_⟩
      · intro other hother
        rw [List.map_cons, List.mem_cons, not_or] at hother
        rw [hothers other (Ne.symm hother.1), hframe other hother.2]
      · intro field x hdenotes
        rw [hself] at hdenotes
        apply hcontent field x
        exact hforwards.content?_next (hrespects.congr hsame) hpassed hnote
          hdenotes

/-- Where the first of a chain of distinct constructors is found to fill a field
from an argument or with a value, this is what the last one is known to store
into the field under the arguments that reach it. -/
theorem origins_compose
    (hchain : Forwarding program holder meaning last reaching (first :: rest)
      first.method given)
    (hdistinct : ((first :: rest).map Body.method ++ [last]).Nodup)
    (hrun : noteInTurn program (first :: rest) = .ok (origins, after))
    (hdescribed : (∃ index, origins.get field = .argument index) ∨
      ∃ known, origins.get field = .value known) :
    after.originsOf first.method = origins ∧
      after.originsOf last = program.originsOf last ∧
      ∃ x, (origins.get field).content? meaning given = some x ∧
        ((after.originsOf last).get field).content? meaning reaching =
          some x := by
  obtain ⟨_, hfirst, hframe, hcontent⟩ := hchain.content?_last hrun
  have hfirst := hfirst (List.cons_ne_nil first rest)
  have hlast := hframe last fun hmem =>
    List.disjoint_of_nodup_append hdistinct hmem (List.mem_singleton_self last)
  refine ⟨hfirst, hlast, ?_⟩
  obtain ⟨x, hx⟩ : ∃ x, (origins.get field).content? meaning given = some x := by
    rcases hdescribed with ⟨index, hindex⟩ | ⟨known, hknown⟩
    · exact ⟨given index, by rw [hindex]; rfl⟩
    · exact ⟨meaning known, by rw [hknown]; rfl⟩
  refine ⟨x, hx, ?_⟩
  rw [hlast]
  exact hcontent field x (hfirst ▸ hx)

end Forwarding

/-- A class with two fields and three constructors; the first one is known to
fill the fields with its two arguments. -/
def threeConstructors : Program where
  types := #[
    { descriptor := .plain "LA;"
      definition := some { parent := none, traits := {}, fields := [0, 1],
                           methods := [0, 1, 2] } },
    { descriptor := .plain "I" }]
  fields := #[
    { holder := 0, name := "f", type := 1, traits := { isFinal := true } },
    { holder := 0, name := "g", type := 1, traits := { isFinal := true } }]
  methods := #[
    { holder := 0, name := "<init>", params := [1, 1], returns := 1
      traits := { isConstructor := true }
      facts := { constructs := some
                   { origins := .ofList [(0, .argument 1), (1, .argument 2)] } } },
    { holder := 0, name := "<init>", params := [1], returns := 1
      traits := { isConstructor := true } },
    { holder := 0, name := "<init>", params := [1, 1], returns := 1
      traits := { isConstructor := true } }]

/-- Forwards a copy of its argument and a constant to the first constructor. -/
def addConstant : Body where
  method := 1
  isStatic := false
  values := #[
    { type := .reference (.object 0) .nonNull, definition := .instruction 0
      users := [4] },
    { type := .primitive .int, definition := .instruction 1, users := [2] },
    { type := .primitive .int, definition := .instruction 2, users := [4] },
    { type := .primitive .int, definition := .instruction 3, users := [4] }]
  instructions := #[⟨0, .argument 0, some 0⟩, ⟨0, .argument 1, some 1⟩,
    ⟨0, .move 1, some 2⟩, ⟨0, .number 5, some 3⟩,
    ⟨0, .call .direct 0 [0, 2, 3], none⟩, ⟨0, .ret none, none⟩]
  blocks := #[⟨[0, 1, 2, 3, 4, 5], [], []⟩]
  positions := #[0, 1, 2, 3, 4, 5]
  incoming := #[[]]

/-- Forwards its second argument to the constructor that adds a constant. -/
def dropArgument : Body where
  method := 2
  isStatic := false
  values := #[
    { type := .reference (.object 0) .nonNull, definition := .instruction 0
      users := [2] },
    { type := .primitive .int, definition := .instruction 1, users := [2] }]
  instructions := #[⟨0, .argument 0, some 0⟩, ⟨0, .argument 2, some 1⟩,
    ⟨0, .call .direct 1 [0, 1], none⟩, ⟨0, .ret none, none⟩]
  blocks := #[⟨[0, 1, 2, 3], [], []⟩]
  positions := #[0, 1, 2, 3]
  incoming := #[[]]

theorem dropArgument_forwardsTo :
    dropArgument.ForwardsTo threeConstructors 0 1 [0, 1] := by
  refine ⟨⟨_, rfl, rfl, rfl⟩, ?_, ⟨0, rfl, by decide⟩, 2, by decide, .direct, rfl, ?_⟩
  all_goals
    intro instr hinstr
    have hcases : instr = 0 ∨ instr = 1 ∨ instr = 2 ∨ instr = 3 := by
      simpa [dropArgument, allInstructions] using hinstr
    rcases hcases with rfl | rfl | rfl | rfl <;> simp [dropArgument, opcode]

theorem addConstant_forwardsTo :
    addConstant.ForwardsTo threeConstructors 0 0 [0, 2, 3] := by
  refine ⟨⟨_, rfl, rfl, rfl⟩, ?_, ⟨0, rfl, by decide⟩, 4, by decide, .direct, rfl, ?_⟩
  all_goals
    intro instr hinstr
    have hcases : instr = 0 ∨ instr = 1 ∨ instr = 2 ∨ instr = 3 ∨ instr = 4 ∨
        instr = 5 := by
      simpa [addConstant, allInstructions] using hinstr
    rcases hcases with rfl | rfl | rfl | rfl | rfl | rfl <;>
      simp [addConstant, opcode]

def numberOf : KnownValue → Int
  | .number value => value
  | _ => 0

/-- These numbers in turn, and zero beyond. -/
def listed (numbers : List Int) (index : Nat) : Int :=
  numbers.getD index 0

theorem dropArgument_forwarding :
    Forwarding threeConstructors 0 numberOf 0 (listed [1, 20, 5])
      [dropArgument, addConstant] 2 (listed [1, 10, 20]) := by
  have hrest : Forwarding threeConstructors 0 numberOf 0 (listed [1, 20, 5])
      [addConstant] 1 (listed [1, 20]) := by
    refine .forward addConstant_forwardsTo (respects_contents _ _ _ _) ?_
      (.last ⟨_, rfl, rfl, rfl⟩)
    rintro (_ | _ | _ | index) value hvalue
    · obtain rfl := Option.some.inj hvalue
      decide
    · obtain rfl := Option.some.inj hvalue
      decide
    · obtain rfl := Option.some.inj hvalue
      decide
    · cases hvalue
  refine .forward dropArgument_forwardsTo (respects_contents _ _ _ _) ?_ hrest
  rintro (_ | _ | index) value hvalue
  · obtain rfl := Option.some.inj hvalue
    decide
  · obtain rfl := Option.some.inj hvalue
    decide
  · cases hvalue

/-- The field `0` holds the second argument of the first constructor, which
reaches the last one as its first. -/
theorem dropArgument_origins_compose :
    Forwarding threeConstructors 0 numberOf 0 (listed [1, 20, 5])
      [dropArgument, addConstant] 2 (listed [1, 10, 20]) ∧
    ∃ origins after, noteInTurn threeConstructors [dropArgument, addConstant] =
        .ok (origins, after) ∧
      origins.get 0 = .argument 2 ∧ after.originsOf 2 = origins ∧
      after.originsOf 0 = threeConstructors.originsOf 0 ∧
      ∃ x, (origins.get 0).content? numberOf (listed [1, 10, 20]) = some x ∧
        ((after.originsOf 0).get 0).content? numberOf (listed [1, 20, 5]) =
          some x := by
  have hrun : ∃ origins after, noteInTurn threeConstructors
      [dropArgument, addConstant] = .ok (origins, after) ∧
        origins.get 0 = .argument 2 := ⟨_, _, rfl, rfl⟩
  obtain ⟨origins, after, hrun, hdescribed⟩ := hrun
  refine ⟨dropArgument_forwarding, origins, after, hrun, hdescribed, ?_⟩
  exact dropArgument_forwarding.origins_compose (by decide) hrun
    (Or.inl ⟨2, hdescribed⟩)

end Body

end FlowFacts
