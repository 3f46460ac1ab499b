/-
What the analysis of a class initializer takes a written value for.  In an enum
a new array of all constants is known by its slots, and a new object that is
kept in one field of a constant is known as this constant.
-/
import FlowFacts.FieldContents.Static
import FlowFacts.Proofs.Edits

namespace FlowFacts

/-- A search that gives up unless a condition holds finds something under this
condition only. -/
theorem of_ite_none {ε α : Type} {condition : Prop} [Decidable condition]
    {search : Except ε (Option α)} {found : α}
    (hfound : (if condition then search else pure none) = .ok (some found)) :
    condition ∧ search = .ok (some found) := by
  split at hfound
  · next hcondition => exact ⟨hcondition, hfound⟩
  · cases hfound

namespace ClassInitializer

variable {init : ClassInitializer} {field : FieldId} {value : ValueId}
variable {constant content : KnownValue}

/-- The instruction sets the field of a constant of the enum. -/
def SetsConstant (init : ClassInitializer) (instr : InstrId) (field : FieldId)
    (value : ValueId) : Prop :=
  init.body.opcode instr = .staticPut field value ∧ ∃ definition,
    init.program.field field = .ok definition ∧
    definition.holder = init.holder ∧ definition.traits.isEnum = true

/-- The object is a constant of the enum: it is new, and one field of a
constant is set to it, just once. -/
structure IsConstant (init : ClassInitializer) (object : ValueId)
    (constant : KnownValue) : Prop where
  isNew : ∃ type, init.body.definingOpcode? object = some (.newInstance type) ∧
    init.isConstantClass type = true
  unmerged : init.body.phiUsers object = []
  kept : ∃ put field shape, init.SetsConstant put field object ∧
    (∀ other field, init.SetsConstant other field object → other = put) ∧
    init.shapeOf object = .ok shape ∧ constant = .held field shape

/-- The value refers to a constant of the enum: as the object itself, or as
read from a field that some instruction sets to it. -/
inductive Denotes (init : ClassInitializer) (value : ValueId)
    (constant : KnownValue) : Prop
  | object (hconstant : init.IsConstant (init.body.root value) constant)
  | field {source : FieldId} {definition : FieldDecl} {put : InstrId}
      {written : ValueId}
      (hroot : init.body.rootOpcode? value = some (.staticGet source))
      (hsource : init.program.field source = .ok definition)
      (henum : definition.traits.isEnum = true)
      (hput : init.body.opcode put = .staticPut source written)
      (hconstant : init.IsConstant (init.body.root written) constant)

/-- A further user of an object leaves what has been found alone, or it sets
the first field of a constant. -/
theorem constantField?_cons {object : ValueId} {user : InstrId}
    {rest : List InstrId} {found : Option FieldId}
    (hfield : init.constantField? object found (user :: rest) =
      .ok (some field)) :
    init.constantField? object found rest = .ok (some field) ∧
        (∀ target value, ¬ init.SetsConstant user target value) ∨
      found = none ∧ ∃ target value, init.SetsConstant user target value ∧
        init.constantField? object (some target) rest = .ok (some field) := by
  have hother : (∀ target value, init.body.opcode user ≠
      .staticPut target value) →
      ∀ target value, ¬ init.SetsConstant user target value :=
    fun hnot target value hsets => hnot target value hsets.1
  rw [constantField?] at hfield
  split at hfield
  · next hopcode =>
      exact Or.inl ⟨(of_ite_none hfield).2, hother (by simp [hopcode])⟩
  · next hopcode =>
      obtain ⟨constructor, _, hfield⟩ := exists_of_bind hfield
      exact Or.inl ⟨(of_ite_none hfield).2, hother (by simp [hopcode])⟩
  · next target value hopcode =>
      obtain ⟨definition, hdefinition, hfield⟩ := exists_of_bind hfield
      split at hfield
      · next hconstant =>
          rw [Bool.and_eq_true, beq_iff_eq] at hconstant
          split at hfield
          · cases hfield
          · exact Or.inr ⟨rfl, target, value,
              ⟨hopcode, definition, hdefinition, hconstant⟩, hfield⟩
      · next hnot =>
          refine Or.inl ⟨hfield, ?_⟩
          rintro _ _ ⟨hopcode', definition', hdefinition', hconstant⟩
          obtain ⟨rfl, _⟩ := Opcode.staticPut.inj (hopcode.symm.trans hopcode')
          obtain rfl := Except.ok.inj (hdefinition.symm.trans hdefinition')
          rw [Bool.and_eq_true, beq_iff_eq] at hnot
          exact hnot hconstant
  · cases hfield

/-- At most one user sets the field of a constant, and what is found is that
field. -/
theorem constantField?_eq_some {object : ValueId} {users : List InstrId}
    {found : Option FieldId}
    (hfield : init.constantField? object found users = .ok (some field)) :
    found = some field ∧
        (∀ user ∈ users, ∀ target value,
          ¬ init.SetsConstant user target value) ∨
      found = none ∧ ∃ put ∈ users, (∃ value,
        init.SetsConstant put field value) ∧
        ∀ user ∈ users, ∀ target value,
          init.SetsConstant user target value → user = put := by
  induction users generalizing found with
  | nil => exact Or.inl ⟨Except.ok.inj hfield, by simp⟩
  | cons user rest ih =>
      rcases constantField?_cons hfield with
        ⟨hrest, hnot⟩ | ⟨rfl, target, value, hsets, hrest⟩
      · refine (ih hrest).imp ?_ ?_
        · rintro ⟨hfound, hnone⟩
          exact ⟨hfound, List.forall_mem_cons.mpr ⟨hnot, hnone⟩⟩
        · rintro ⟨hfound, put, hput, hsets, honly⟩
          exact ⟨hfound, put, List.mem_cons_of_mem user hput, hsets,
            List.forall_mem_cons.mpr
              ⟨fun target value hsets => absurd hsets (hnot target value),
                honly⟩⟩
      · rcases ih hrest with ⟨hfound, hnone⟩ | ⟨hfound, _⟩
        · obtain rfl := Option.some.inj hfound
          refine Or.inr ⟨rfl, user, List.mem_cons_self, ⟨value, hsets⟩, ?_⟩
          refine List.forall_mem_cons.mpr ⟨fun _ _ _ => rfl, ?_⟩
          exact fun other hother target value hsets =>
            absurd hsets (hnone other hother target value)
        · cases hfound

theorem isConstant_of_enumConstant? (hindexed : init.body.Indexed)
    {object : ValueId}
    (hconstant : init.enumConstant? object = .ok (some constant)) :
    init.IsConstant object constant := by
  rw [enumConstant?] at hconstant
  split at hconstant
  · next type hnew =>
      obtain ⟨hclass, hconstant⟩ := of_ite_none hconstant
      rw [Bool.and_eq_true, List.isEmpty_iff] at hclass
      obtain ⟨found, hfound, hconstant⟩ := exists_of_bind hconstant
      split at hconstant
      · next field =>
          obtain ⟨shape, hshape, hconstant⟩ := exists_of_bind hconstant
          obtain ⟨hnone, _⟩ | ⟨_, put, hput, ⟨value, hsets⟩, honly⟩ :=
            constantField?_eq_some hfound
          · cases hnone
          · have hreads := hindexed.mem_users.mp hput
            rw [hsets.1, Opcode.inputs, List.mem_singleton] at hreads
            subst hreads
            refine ⟨⟨type, hnew, hclass.1⟩, hclass.2, put, field, shape,
              hsets, ?_, hshape, ?_⟩
            · intro other target hother
              refine honly other (hindexed.mem_users.mpr ?_) _ _ hother
              rw [hother.1, Opcode.inputs, List.mem_singleton]
            · exact (Option.some.inj (Except.ok.inj hconstant)).symm
      · cases hconstant
  · cases hconstant

theorem denotes_of_constantBehind? (hindexed : init.body.Indexed)
    (hconstant : init.constantBehind? value = .ok (some constant)) :
    init.Denotes value constant := by
  rw [constantBehind?] at hconstant
  split at hconstant
  · exact .object (isConstant_of_enumConstant? hindexed hconstant)
  · next source hroot =>
      obtain ⟨definition, hsource, hconstant⟩ := exists_of_bind hconstant
      obtain ⟨henum, hconstant⟩ := of_ite_none hconstant
      obtain ⟨put, _, hfound⟩ := exists_of_findSomeM? hconstant
      split at hfound
      · next written value hopcode =>
          obtain ⟨rfl, hobject⟩ := of_ite_none hfound
          exact .field hroot hsource henum hopcode
            (isConstant_of_enumConstant? hindexed hobject)
      · cases hfound
  · cases hconstant

/-- The list of constants has been put together from the slots of a new
array. -/
theorem enumValues?_eq_some {array : ValueId}
    (hvalues : init.enumValues? field array = .ok (some content)) :
    ∃ type size length slots,
      init.body.definingOpcode? array = some (.newArray type size) ∧
      init.body.number? size = some (Int.ofNat length) ∧
      init.slots? field array length (init.body.users array) .empty =
        .ok (some slots) ∧
      slots.size = length ∧
      content = .held field (.constants (slots.entries.map Prod.snd)) := by
  obtain ⟨definition, _, hvalues⟩ := exists_of_bind hvalues
  obtain ⟨_, hvalues⟩ := of_ite_none hvalues
  split at hvalues
  · next type size hnew =>
      split at hvalues
      · next length hlength =>
          split at hvalues
          · cases hvalues
          · obtain ⟨slots, hslots, hvalues⟩ := exists_of_bind hvalues
            split at hvalues
            · next slots =>
                obtain ⟨hsize, hvalues⟩ := of_ite_none hvalues
                exact ⟨type, size, length, slots, hnew, hlength, hslots, hsize,
                  (Option.some.inj (Except.ok.inj hvalues)).symm⟩
            · cases hvalues
      · cases hvalues
  · cases hvalues

/-- What a written value is known for: the list of all constants, a constant,
or what it is known for in any body. -/
theorem knowledgeOf_cases {root : ValueId} {known : Knowledge}
    (hknown : init.knowledgeOf field root = .ok known) :
    (∃ content, init.enumValues? field root = .ok (some content) ∧
        known = .exactly content) ∨
      (∃ constant, init.enumConstant? root = .ok (some constant) ∧
        known = .exactly constant) ∨
      init.body.knowledge init.program root = .ok known := by
  simp only [knowledgeOf] at hknown
  split at hknown
  · obtain ⟨values, hvalues, hknown⟩ := exists_of_bind hknown
    split at hknown
    · next content =>
        exact Or.inl ⟨content, hvalues, (Except.ok.inj hknown).symm⟩
    · obtain ⟨found, hfound, hknown⟩ := exists_of_bind hknown
      split at hknown
      · next constant =>
          exact Or.inr (Or.inl
            ⟨constant, hfound, (Except.ok.inj hknown).symm⟩)
      · exact Or.inr (Or.inr hknown)
  · exact Or.inr (Or.inr hknown)

theorem knowledge_of_noteTypes {findings after : Findings} {type : TypeId}
    {root : ValueId}
    (hnote : init.noteTypes findings field type root = .ok after)
    (other : FieldId) : after.knowledge other = findings.knowledge other := by
  simp only [noteTypes] at hnote
  split at hnote
  · obtain rfl := Except.ok.inj hnote
    split <;> simp
  · split at hnote
    · obtain rfl := Except.ok.inj hnote
      rw [Findings.knowledge_noteLower]
      split <;> simp
    · cases hnote

end ClassInitializer

end FlowFacts
