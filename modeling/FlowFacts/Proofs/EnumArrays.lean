/-
What is known about the array that lists the constants of an enum.  Every slot
has exactly one store, of the constant that is listed for it, and the array
has no other use than these stores and the write of its field.  Nothing is
said about phis that the array goes into, nor that the stores are all met, nor
that a field is set before its constant is read from it.  Where there are no
phis and no reads, the array holds the constants in the end exactly if every
store is met on all ways.
-/
import Mathlib.Data.List.Perm.Subperm
import Mathlib.Tactic.FinCases
import FlowFacts.Proofs.Aliases
import FlowFacts.Proofs.Copies
import FlowFacts.Proofs.StaticEntries
import FlowFacts.Proofs.WrittenValues

namespace FlowFacts

/-- Keys below a bound are all the numbers below it, if there are as many. -/
theorem Table.keys_eq_range {α : Type} {table : Table α} {bound : Nat}
    (hsize : table.size = bound)
    (hlt : ∀ entry ∈ table.entries, entry.1 < bound) :
    table.entries.map Prod.fst = List.range bound := by
  have hascending : (table.entries.map Prod.fst).Pairwise (· < ·) :=
    List.pairwise_map.mpr table.ascending
  have hsubset : table.entries.map Prod.fst ⊆ List.range bound := by
    intro key hkey
    obtain ⟨entry, hentry, rfl⟩ := List.mem_map.mp hkey
    exact List.mem_range.mpr (hlt entry hentry)
  have hnodup : (table.entries.map Prod.fst).Nodup :=
    hascending.imp Nat.ne_of_lt
  have hperm := (List.subperm_of_subset hnodup hsubset).perm_of_length_le
    (by simp [← hsize, Table.size])
  exact hperm.eq_of_pairwise
    (fun _ _ _ _ hab hba => absurd hab (Nat.lt_asymm hba)) hascending
    List.pairwise_lt_range

/-- A table with all the keys below a bound lists its values by number. -/
theorem Table.getElem?_values {α : Type} {table : Table α} {bound : Nat}
    (hsize : table.size = bound)
    (hlt : ∀ entry ∈ table.entries, entry.1 < bound) (key : Nat) :
    (table.entries.map Prod.snd)[key]? = table.find? key := by
  cases hentry : table.entries[key]? with
  | some entry =>
      have hkey : entry.1 = key := by
        have hfirst := congrArg (·[key]?) (Table.keys_eq_range hsize hlt)
        simp only [List.getElem?_map, hentry, Option.map_some] at hfirst
        obtain ⟨_, heq⟩ := List.getElem?_eq_some_iff.mp hfirst.symm
        simpa using heq.symm
      subst hkey
      rw [List.getElem?_map, hentry, Option.map_some,
        Table.find?_of_mem (List.mem_of_getElem? hentry)]
  | none =>
      rw [List.getElem?_map, hentry, Option.map_none]
      cases hfound : table.find? key with
      | none => rfl
      | some value =>
          have hmem := hlt _ (Table.mem_of_find? hfound)
          have hge := List.getElem?_eq_none_iff.mp hentry
          rw [Table.size] at hsize
          omega

namespace Body

def Stores (body : Body) (instr : InstrId) (array : ValueId) (slot : Nat)
    (value : ValueId) : Prop :=
  ∃ index, body.opcode instr = .arrayPut array index value ∧
    body.number? index = some (Int.ofNat slot)

/-- The instructions that a path executes from an instruction of its first
block on. -/
def passedAfter (body : Body) (path : List BlockId) (instr : InstrId) :
    List InstrId :=
  body.after instr ++ path.tail.flatMap body.instructionsOf

variable {body : Body} {instr : InstrId}

/-- An instruction stores one value, into one slot. -/
theorem Stores.unique {array value value' : ValueId} {slot slot' : Nat}
    (hstores : body.Stores instr array slot value)
    (hother : body.Stores instr array slot' value') :
    slot = slot' ∧ value = value' := by
  obtain ⟨index, hopcode, hindex⟩ := hstores
  obtain ⟨index', hopcode', hindex'⟩ := hother
  obtain ⟨_, rfl, hvalue⟩ := Opcode.arrayPut.inj (hopcode.symm.trans hopcode')
  have hslot := Option.some.inj (hindex.symm.trans hindex')
  exact ⟨Int.ofNat.inj hslot, hvalue⟩

/-- The names of a value, the phis that it may come out of included. -/
inductive Carries (body : Body) (value : ValueId) : ValueId → Prop
  | self : Carries body value value
  | copied {name other : ValueId} {instr : InstrId}
      (hname : Carries body value name)
      (halias : (body.opcode instr).isAlias = true)
      (hreads : name ∈ (body.opcode instr).inputs)
      (houtput : body.output? instr = some other) : Carries body value other
  | merged {name phi : ValueId} (hname : Carries body value name)
      (hphi : phi ∈ body.phiUsers name) : Carries body value phi

/-- A value without phis has no other names than its copies. -/
theorem Carries.eq_of_no_alias {value name : ValueId}
    (hname : body.Carries value name) (hphis : body.phiUsers value = [])
    (hnone : ∀ instr, value ∈ (body.opcode instr).inputs →
      (body.opcode instr).isAlias = false) : name = value := by
  induction hname with
  | self => rfl
  | copied _ halias hreads _ ih =>
      subst ih
      rw [hnone _ hreads] at halias
      cases halias
  | merged _ hphi ih =>
      subst ih
      rw [hphis] at hphi
      cases hphi

/-- A value that copies nothing and that nothing copies has one name only. -/
theorem Names.eq_of_no_alias {value name : ValueId}
    (hname : body.Names value name)
    (hnone : ∀ instr, value ∈ (body.opcode instr).inputs →
      (body.opcode instr).isAlias = false) : name = value := by
  induction hname with
  | self => rfl
  | renamed _ halias hreads _ ih =>
      subst ih
      rw [hnone _ hreads] at halias
      cases halias

/-- An array that is only filled and written into a field is not copied. -/
theorem not_isAlias_of_users {array written : ValueId} {put : InstrId}
    {field : FieldId} {bound : Nat}
    (husers : ∀ instr, array ∈ (body.opcode instr).inputs → instr = put ∨
      ∃ slot value, slot < bound ∧ value ≠ array ∧
        body.Stores instr array slot value)
    (hput : body.opcode put = .staticPut field written) :
    ∀ instr, array ∈ (body.opcode instr).inputs →
      (body.opcode instr).isAlias = false := by
  intro instr hreads
  rcases husers instr hreads with rfl | ⟨_, _, _, _, _, hopcode, _⟩
  · rw [hput]
    rfl
  · rw [hopcode]
    rfl

end Body

namespace ClassInitializer

variable {init : ClassInitializer} {field : FieldId} {array : ValueId}
variable {length slot : Nat} {user : InstrId} {users : List InstrId}
variable {slots found : Table KnownValue} {constant : KnownValue}

/-- The instruction stores a constant of the enum into a slot of the array. -/
def StoresConstant (init : ClassInitializer) (array : ValueId)
    (instr : InstrId) (slot : Nat) (constant : KnownValue) : Prop :=
  ∃ value, init.body.Stores instr array slot value ∧ value ≠ array ∧
    init.constantBehind? value = .ok (some constant)

/-- The instruction stores an object that is a constant of the enum itself. -/
def StoresObject (init : ClassInitializer) (array : ValueId)
    (instr : InstrId) (slot : Nat) (constant : KnownValue) : Prop :=
  ∃ object, init.body.Stores instr array slot object ∧
    init.IsConstant (init.body.root object) constant

/-- The array ends up with these constants.  On every way from its definition
to a return all slots are filled, and under no name, phis included, is the
array used but to be filled and to be written into its field. -/
structure HoldsInTheEnd (init : ClassInitializer) (array : ValueId)
    (definition put : InstrId) (constants : List KnownValue) : Prop where
  filled : ∀ slot constant, constants[slot]? = some constant →
    ∀ exit ∈ init.body.returnBlocks, ∀ path,
      init.body.graph.Path (init.body.blockOf definition) path exit →
        ∃ store ∈ init.body.passedAfter path definition,
          init.StoresObject array store slot constant
  unshared : ∀ name, init.body.Carries array name → ∀ instr,
    name ∈ (init.body.opcode instr).inputs → instr = put ∨
      ∃ slot constant, constants[slot]? = some constant ∧
        init.StoresObject name instr slot constant

/-- What refers to a constant and is a new object is the constant. -/
theorem Denotes.isConstant {value : ValueId} {type : TypeId}
    (hdenotes : init.Denotes value constant)
    (hnew : init.body.rootOpcode? value = some (.newInstance type)) :
    init.IsConstant (init.body.root value) constant := by
  cases hdenotes with
  | object hconstant => exact hconstant
  | field hroot => cases hnew.symm.trans hroot

/-- A further user of the array fills a free slot, or it writes the field. -/
theorem slots?_cons
    (hslots : init.slots? field array length (user :: users) slots =
      .ok (some found)) :
    (∃ slot constant, init.StoresConstant array user slot constant ∧
        slot < length ∧ slots.find? slot = none ∧
        init.slots? field array length users (slots.insert slot constant) =
          .ok (some found)) ∨
      (∃ value, init.body.opcode user = .staticPut field value) ∧
        init.slots? field array length users slots = .ok (some found) := by
  rw [slots?] at hslots
  split at hslots
  · next target index value hopcode =>
      split at hslots
      · next slot hindex =>
          obtain ⟨hfits, hslots⟩ := of_ite_none hslots
          simp only [Bool.and_eq_true, decide_eq_true_eq, Bool.not_eq_true',
            Table.contains_eq_isSome, Option.isSome_eq_false_iff,
            Option.isNone_iff_eq_none] at hfits
          obtain ⟨⟨⟨rfl, hvalue⟩, hlt⟩, hfree⟩ := hfits
          obtain ⟨constant, hconstant, hslots⟩ := exists_of_bind hslots
          split at hslots
          · next constant =>
              exact Or.inl ⟨slot, constant,
                ⟨value, ⟨index, hopcode, hindex⟩, hvalue, hconstant⟩,
                hlt, hfree, hslots⟩
          · cases hslots
      · cases hslots
  · next target value hopcode =>
      obtain ⟨rfl, hslots⟩ := of_ite_none hslots
      exact Or.inr ⟨⟨value, hopcode⟩, hslots⟩
  · cases hslots

theorem StoresConstant.slot_eq {other : Nat} {value : ValueId}
    (hstores : init.StoresConstant array user slot constant)
    (hother : init.body.Stores user array other value) : slot = other := by
  obtain ⟨_, hstore, _⟩ := hstores
  exact (hstore.unique hother).1

theorem StoresConstant.not_put {value : ValueId}
    (hstores : init.StoresConstant array user slot constant) :
    init.body.opcode user ≠ .staticPut field value := by
  obtain ⟨_, ⟨_, hopcode, _⟩, _⟩ := hstores
  simp [hopcode]

/-- A slot that is filled is not filled again. -/
theorem not_stores_of_filled
    (hslots : init.slots? field array length users slots = .ok (some found))
    (hfilled : slots.find? slot = some constant) :
    ∀ user ∈ users, ∀ constant,
      ¬ init.StoresConstant array user slot constant := by
  induction users generalizing slots with
  | nil => simp
  | cons user users ih =>
      rcases slots?_cons hslots with
        ⟨other, written, hstores, _, hfree, hrest⟩ | ⟨⟨_, hput⟩, hrest⟩
      · have hne : other ≠ slot := by
          rintro rfl
          rw [hfree] at hfilled
          cases hfilled
        refine List.forall_mem_cons.mpr ⟨?_, ih hrest ?_⟩
        · rintro constant ⟨_, hsame, _⟩
          exact hne (hstores.slot_eq hsame)
        · rw [Table.find?_insert, if_neg hne, hfilled]
      · exact List.forall_mem_cons.mpr
          ⟨fun constant hsame => hsame.not_put hput, ih hrest hfilled⟩

/-- The slots are filled by users of the array; all other users write the
field. -/
theorem slots?_eq_some
    (hslots : init.slots? field array length users slots = .ok (some found)) :
    (∀ user ∈ users, (∃ slot constant, slot < length ∧
        init.StoresConstant array user slot constant) ∨
      ∃ value, init.body.opcode user = .staticPut field value) ∧
    ∀ slot constant, found.find? slot = some constant →
      slots.find? slot = some constant ∨ slot < length ∧
        ∃ user ∈ users, init.StoresConstant array user slot constant := by
  induction users generalizing slots with
  | nil =>
      obtain rfl := Option.some.inj (Except.ok.inj hslots)
      exact ⟨by simp, fun _ _ hfound => Or.inl hfound⟩
  | cons user users ih =>
      rcases slots?_cons hslots with
        ⟨slot, constant, hstores, hlt, _, hrest⟩ | ⟨hput, hrest⟩
      · obtain ⟨husers, hfilled⟩ := ih hrest
        refine ⟨List.forall_mem_cons.mpr
          ⟨Or.inl ⟨slot, constant, hlt, hstores⟩, husers⟩, ?_⟩
        intro other written hfound
        rcases hfilled other written hfound with
          hold | ⟨hlt', store, hmem, hwrites⟩
        · rw [Table.find?_insert] at hold
          split at hold
          · next heq =>
              subst heq
              obtain rfl := Option.some.inj hold
              exact Or.inr ⟨hlt, user, List.mem_cons_self, hstores⟩
          · exact Or.inl hold
        · exact Or.inr ⟨hlt', store, List.mem_cons_of_mem user hmem, hwrites⟩
      · obtain ⟨husers, hfilled⟩ := ih hrest
        refine ⟨List.forall_mem_cons.mpr ⟨Or.inr hput, husers⟩, ?_⟩
        intro other written hfound
        refine (hfilled other written hfound).imp_right ?_
        rintro ⟨hlt, store, hmem, hwrites⟩
        exact ⟨hlt, store, List.mem_cons_of_mem user hmem, hwrites⟩

/-- What a user has filled no further user fills. -/
theorem not_stores_of_slots?
    (hslots : init.slots? field array length (user :: users) slots =
      .ok (some found))
    (hstores : init.StoresConstant array user slot constant) :
    ∀ other ∈ users, ∀ constant,
      ¬ init.StoresConstant array other slot constant := by
  rcases slots?_cons hslots with
    ⟨filled, written, hfills, _, _, hrest⟩ | ⟨⟨_, hput⟩, _⟩
  · obtain ⟨_, hstore, _⟩ := hstores
    obtain rfl := hfills.slot_eq hstore
    exact not_stores_of_filled hrest (by rw [Table.find?_insert, if_pos rfl])
  · exact absurd hput hstores.not_put

/-- Every slot is filled by one user only. -/
theorem slots?_unique {other : InstrId} {constant' : KnownValue}
    (hslots : init.slots? field array length users slots = .ok (some found))
    (huser : user ∈ users) (hother : other ∈ users)
    (hstores : init.StoresConstant array user slot constant)
    (hstores' : init.StoresConstant array other slot constant') :
    user = other := by
  induction users generalizing slots with
  | nil => cases huser
  | cons head users ih =>
      have hrest : ∃ slots, init.slots? field array length users slots =
          .ok (some found) := by
        rcases slots?_cons hslots with ⟨_, _, _, _, _, hrest⟩ | ⟨_, hrest⟩
        · exact ⟨_, hrest⟩
        · exact ⟨_, hrest⟩
      obtain ⟨slots, hrest⟩ := hrest
      rcases List.mem_cons.mp huser with rfl | hlater
      · rcases List.mem_cons.mp hother with rfl | hlater'
        · rfl
        · exact absurd hstores'
            (not_stores_of_slots? hslots hstores other hlater' _)
      · rcases List.mem_cons.mp hother with rfl | hlater'
        · exact absurd hstores
            (not_stores_of_slots? hslots hstores' user hlater _)
        · exact ih hrest hlater hlater'

/-- A new array is known for nothing but its slots. -/
theorem knowledgeOf_newArray (hindexed : init.body.Indexed) {value : ValueId}
    {type : TypeId} {size : ValueId} {known : Knowledge}
    (hnew : init.body.rootOpcode? value = some (.newArray type size))
    (hknown : init.knowledgeOf field (init.body.root value) = .ok known) :
    (∃ content, init.enumValues? field (init.body.root value) =
        .ok (some content) ∧ known = .exactly content) ∨
      known = .unknown := by
  rcases knowledgeOf_cases hknown with
    hvalues | ⟨constant, hconstant, _⟩ | hordinary
  · exact Or.inl hvalues
  · obtain ⟨_, hobject, _⟩ :=
      (isConstant_of_enumConstant? hindexed hconstant).isNew
    cases hobject.symm.trans hnew
  · refine Or.inr ?_
    have hroot : init.body.rootOpcode? (init.body.root value) =
        some (.newArray type size) := by
      rw [Body.rootOpcode?, Body.root_root hnew rfl]
      exact hnew
    rw [Body.knowledge, hroot] at hordinary
    exact (Except.ok.inj hordinary).symm

/-- A list of constants is noted for a new array only if it has been put
together from the slots of the array. -/
theorem enumValues?_of_noteWrites (hindexed : init.body.Indexed)
    {findings after : Findings} {put : InstrId} {value : ValueId}
    {type : TypeId} {size : ValueId} {constants : List KnownValue}
    (hnew : init.body.rootOpcode? value = some (.newArray type size))
    (hnote : init.noteWrites findings field [(put, value)] = .ok after)
    (hbefore : findings.knowledge field ≠
      .exactly (.held field (.constants constants)))
    (hafter : after.knowledge field =
      .exactly (.held field (.constants constants))) :
    init.enumValues? field (init.body.root value) =
      .ok (some (.held field (.constants constants))) := by
  obtain ⟨visibility, _, hnote⟩ := exists_of_bind hnote
  cases visibility with
  | «exact» =>
      obtain ⟨definition, _, hnote⟩ := exists_of_bind hnote
      obtain ⟨middle, hcontent, htypes⟩ := exists_of_bind hnote
      rw [knowledge_of_noteTypes htypes] at hafter
      obtain ⟨known, hknown, hcontent⟩ := exists_of_bind hcontent
      rcases knowledgeOf_newArray hindexed hnew hknown with
        ⟨content, hvalues, rfl⟩ | rfl
      · obtain rfl := Except.ok.inj hcontent
        rw [Findings.knowledge_noteKnowledge] at hafter
        rw [hvalues, Knowledge.exactly.inj hafter]
      · -- without slots the array is a blank object, if it is one at all
        simp only [Knowledge.isUnknown, ↓reduceIte] at hcontent
        split at hcontent
        · obtain ⟨shape, hshape, hcontent⟩ := exists_of_bind hcontent
          obtain rfl := Except.ok.inj hcontent
          rw [Findings.knowledge_noteKnowledge] at hafter
          rw [shapeOf, show init.body.definingOpcode? (init.body.root value) = _
            from hnew] at hshape
          obtain rfl := Except.ok.inj hshape
          cases hafter
        · obtain rfl := Except.ok.inj hcontent
          exact absurd hafter hbefore
  | afterRead =>
      change init.noteEither findings field value = .ok after at hnote
      simp only [noteEither, Body.knowledge, hnew] at hnote
      split at hnote
      · obtain rfl := Except.ok.inj hnote
        exact absurd hafter hbefore
      · obtain rfl := Except.ok.inj hnote
        exact absurd hafter hbefore
  | partially =>
      obtain rfl := Except.ok.inj hnote
      exact absurd hafter hbefore

/-- What the slots of a listed array are. -/
theorem enumValues?_sound (haccepted : init.body.Accepted) {type : TypeId}
    {size : ValueId} {constants : List KnownValue}
    (hvalues : init.enumValues? field array =
      .ok (some (.held field (.constants constants))))
    (hnew : init.body.definingOpcode? array = some (.newArray type size)) :
    init.body.number? size = some (Int.ofNat constants.length) ∧
    (∀ slot constant, constants[slot]? = some constant →
      ∃ store value, init.body.Stores store array slot value ∧
        init.Denotes value constant ∧
        ∀ other value', init.body.Stores other array slot value' →
          other = store) ∧
    ∀ instr, array ∈ (init.body.opcode instr).inputs →
      init.body.opcode instr = .staticPut field array ∨
        ∃ slot value, slot < constants.length ∧ value ≠ array ∧
          init.body.Stores instr array slot value := by
  have hindexed := haccepted.indexed.1
  obtain ⟨_, _, length, slots, hnew', hlength, hslots, hsize, hcontent⟩ :=
    enumValues?_eq_some hvalues
  obtain ⟨_, rfl⟩ :=
    Opcode.newArray.inj (Option.some.inj (hnew.symm.trans hnew'))
  obtain ⟨_, hconstants⟩ := KnownValue.held.inj hcontent
  obtain rfl := Shape.constants.inj hconstants
  obtain ⟨husers, hfilled⟩ := slots?_eq_some hslots
  have hbelow : ∀ entry ∈ slots.entries, entry.1 < length := by
    intro entry hentry
    rcases hfilled entry.1 entry.2 (Table.find?_of_mem hentry) with
      hempty | ⟨hlt, _⟩
    · cases hempty
    · exact hlt
  rw [List.length_map, show slots.entries.length = length from hsize]
  refine ⟨hlength, ?_, ?_⟩
  · intro slot constant hslot
    rw [Table.getElem?_values hsize hbelow] at hslot
    rcases hfilled slot constant hslot with
      hempty | ⟨_, store, hmem, hstores⟩
    · cases hempty
    · obtain ⟨value, hstore, hne, hbehind⟩ := hstores
      refine ⟨store, value, hstore,
        denotes_of_constantBehind? hindexed hbehind, ?_⟩
      intro other value' hother
      have huser : other ∈ init.body.users array := by
        obtain ⟨_, hopcode, _⟩ := hother
        exact hindexed.mem_users.mpr (by simp [hopcode, Opcode.inputs])
      rcases husers other huser with
        ⟨slot', constant', _, hstores'⟩ | ⟨_, hput⟩
      · obtain rfl := hstores'.slot_eq hother
        exact slots?_unique hslots huser hmem hstores'
          ⟨value, hstore, hne, hbehind⟩
      · obtain ⟨_, hopcode, _⟩ := hother
        rw [hopcode] at hput
        cases hput
  · intro instr hreads
    rcases husers instr (hindexed.mem_users.mpr hreads) with
      ⟨slot, _, hlt, value, hstores, hne, _⟩ | ⟨value, hput⟩
    · exact Or.inr ⟨slot, value, hlt, hne, hstores⟩
    · rw [hput, Opcode.inputs, List.mem_singleton] at hreads
      rw [hput, hreads]
      exact Or.inl rfl

section Listed

variable {put definition : InstrId} {written : ValueId}
variable {constants : List KnownValue}
variable (hslots : ∀ slot constant, constants[slot]? = some constant →
  ∃ store value, init.body.Stores store array slot value ∧
    init.Denotes value constant ∧
    ∀ other value', init.body.Stores other array slot value' → other = store)
variable (husers : ∀ instr, array ∈ (init.body.opcode instr).inputs →
  instr = put ∨ ∃ slot value, slot < constants.length ∧ value ≠ array ∧
    init.body.Stores instr array slot value)
variable (hput : init.body.opcode put = .staticPut field written)
variable (hobjects : ∀ store slot value,
  init.body.Stores store array slot value →
    ∃ type, init.body.rootOpcode? value = some (.newInstance type))

include hslots husers hput hobjects

/-- Every store into a listed array fills a slot with the constant listed for
it, if only objects are stored. -/
theorem exists_storesObject {store : InstrId} {value : ValueId}
    (hstores : init.body.Stores store array slot value) :
    ∃ constant, constants[slot]? = some constant ∧
      init.StoresObject array store slot constant := by
  have hlt : slot < constants.length := by
    have ⟨index, hopcode, _⟩ := hstores
    have hreads : array ∈ (init.body.opcode store).inputs := by
      simp [hopcode, Opcode.inputs]
    rcases husers store hreads with rfl | ⟨_, _, hlt, _, hsame⟩
    · cases hopcode.symm.trans hput
    · exact (hstores.unique hsame).1 ▸ hlt
  have hconstant := List.getElem?_eq_getElem hlt
  obtain ⟨only, stored, hstored, hdenotes, hunique⟩ := hslots slot _ hconstant
  obtain rfl := hunique store value hstores
  obtain ⟨_, rfl⟩ := hstores.unique hstored
  obtain ⟨_, hnew⟩ := hobjects store slot value hstores
  exact ⟨_, hconstant, value, hstores, hdenotes.isConstant hnew⟩

/-- A listed array without phis that only objects are stored into holds the
constants in the end exactly if all its stores are met on all ways. -/
theorem holdsInTheEnd_iff (hphis : init.body.phiUsers array = []) :
    init.HoldsInTheEnd array definition put constants ↔
      ∀ store slot value, init.body.Stores store array slot value →
        ∀ exit ∈ init.body.returnBlocks, ∀ path,
          init.body.graph.Path (init.body.blockOf definition) path exit →
            store ∈ init.body.passedAfter path definition := by
  have hfills : ∀ {store slot value}, init.body.Stores store array slot value →
      ∃ constant, constants[slot]? = some constant ∧
        init.StoresObject array store slot constant :=
    exists_storesObject hslots husers hput hobjects
  constructor
  · intro hholds store slot value hstores exit hexit path hpath
    obtain ⟨constant, hconstant, _⟩ := hfills hstores
    obtain ⟨met, hmet, _, hsame, _⟩ :=
      hholds.filled slot constant hconstant exit hexit path hpath
    obtain ⟨only, _, _, _, hunique⟩ := hslots slot constant hconstant
    rwa [hunique store value hstores, ← hunique met _ hsame]
  · intro hways
    refine ⟨?_, ?_⟩
    · intro slot constant hconstant exit hexit path hpath
      obtain ⟨store, value, hstores, _⟩ := hslots slot constant hconstant
      obtain ⟨same, hsame, hobject⟩ := hfills hstores
      obtain rfl := Option.some.inj (hconstant.symm.trans hsame)
      exact ⟨store, hways store slot value hstores exit hexit path hpath, hobject⟩
    · intro name hname instr hreads
      obtain rfl := hname.eq_of_no_alias hphis
        (Body.not_isAlias_of_users husers hput)
      refine (husers instr hreads).imp_right ?_
      rintro ⟨slot, value, _, _, hstores⟩
      exact ⟨slot, hfills hstores⟩

end Listed

/-- If a list of constants becomes known about a field that is set to a new
array, then this is the only write of the field, and the list has been put
together from the slots of the array. -/
theorem enumValues?_of_analyze (hindexed : init.body.Indexed)
    {before after : Findings} {put : InstrId} {value : ValueId}
    {type : TypeId} {size : ValueId} {constants : List KnownValue}
    (hanalyze : init.analyze before = .ok after)
    (hbefore : before.knowledge field ≠
      .exactly (.held field (.constants constants)))
    (hafter : after.knowledge field =
      .exactly (.held field (.constants constants)))
    (hput : init.body.opcode put = .staticPut field value)
    (hnew : init.body.rootOpcode? value = some (.newArray type size)) :
    (∀ {instr written}, init.body.opcode instr = .staticPut field written →
      instr = put) ∧
      init.enumValues? field (init.body.root value) =
        .ok (some (.held field (.constants constants))) := by
  have hchanged : after.fields.find? field ≠ before.fields.find? field := by
    intro hsame
    rw [Findings.knowledge_congr hsame] at hafter
    exact hbefore hafter
  have hlisted : ∀ {instr written},
      init.body.opcode instr = .staticPut field written →
        instr ∈ init.body.putsOf field := by
    intro instr written hopcode
    refine List.mem_filter.mpr ⟨hindexed.mem_allInstructions ?_, ?_⟩
    · simp [hopcode]
    · simp [hopcode, Opcode.putsInto]
  obtain ⟨heligible, ⟨only, honly⟩ | ⟨hnone, _⟩⟩ :=
    analyze_changes hanalyze hchanged
  · have hsole : ∀ {instr written},
        init.body.opcode instr = .staticPut field written → instr = only := by
      intro instr written hopcode
      have hmem := hlisted hopcode
      rwa [honly, List.mem_singleton] at hmem
    obtain rfl := hsole hput
    obtain ⟨state, state', hstate, hnote, hstate'⟩ :=
      exists_noteWrites hanalyze heligible honly hput
    rw [Findings.knowledge_congr hstate'] at hafter
    rw [← Findings.knowledge_congr hstate] at hbefore
    exact ⟨hsole,
      enumValues?_of_noteWrites hindexed hnew hnote hbefore hafter⟩
  · have hmem := hlisted hput
    rw [hnone] at hmem
    cases hmem

end ClassInitializer

namespace Body

variable {body : Body} {program : Program} {defaults : Table KnownValue}
variable {before after : Findings} {running : MethodDecl} {field : FieldId}
variable {put definition : InstrId} {value size : ValueId} {type : TypeId}
variable {constants : List KnownValue}

/-- If a list of constants is recorded for a field that is set to a new array,
then the array is as long as the list, and each slot has exactly one store, of
the constant listed for it.  The array has no other names, and nothing else is
done with it than to set the field.  If it goes into no phi either, and the
constants are stored as objects, then it holds them in the end exactly if no
way from the array to a return misses a store. -/
theorem enumValues_of_recorded (haccepted : body.Accepted)
    (hrunning : program.method body.method = .ok running)
    (hrun : body.noteStaticContents program defaults before = .ok after)
    (hbefore : before.knowledge field ≠
      .exactly (.held field (.constants constants)))
    (hafter : after.knowledge field =
      .exactly (.held field (.constants constants)))
    (hput : body.opcode put = .staticPut field value)
    (hdefinition : body.definition? (body.root value) = some definition)
    (hnew : body.opcode definition = .newArray type size) :
    body.number? size = some (Int.ofNat constants.length) ∧
    (∀ slot constant, constants[slot]? = some constant →
      ∃ store stored, body.Stores store (body.root value) slot stored ∧
        ClassInitializer.Denotes ⟨program, body, running.holder, defaults⟩
          stored constant ∧
        ∀ other stored', body.Stores other (body.root value) slot stored' →
          other = store) ∧
    (∀ instr, body.root value ∈ (body.opcode instr).inputs → instr = put ∨
      ∃ slot stored, slot < constants.length ∧ stored ≠ body.root value ∧
        body.Stores instr (body.root value) slot stored) ∧
    (∀ name, body.Names (body.root value) name → name = body.root value) ∧
    (body.phiUsers (body.root value) = [] →
      (∀ store slot stored, body.Stores store (body.root value) slot stored →
        ∃ type, body.rootOpcode? stored = some (.newInstance type)) →
      (ClassInitializer.HoldsInTheEnd ⟨program, body, running.holder, defaults⟩
          (body.root value) definition put constants ↔
        ∀ store slot stored, body.Stores store (body.root value) slot stored →
          ∀ exit ∈ body.returnBlocks, ∀ path,
            body.graph.Path (body.blockOf definition) path exit →
              store ∈ body.passedAfter path definition)) := by
  have hroot : body.rootOpcode? value = some (.newArray type size) := by
    rw [rootOpcode?, definingOpcode?, hdefinition, Option.map_some, hnew]
  obtain ⟨found, hfound, hrun⟩ := exists_of_bind hrun
  obtain rfl := Except.ok.inj (hrunning.symm.trans hfound)
  split at hrun
  · obtain ⟨hsole, hvalues⟩ := ClassInitializer.enumValues?_of_analyze
      haccepted.indexed.1 hrun hbefore hafter hput hroot
    obtain ⟨hlength, hslots, husers⟩ :=
      ClassInitializer.enumValues?_sound haccepted hvalues hroot
    have husers : ∀ instr, body.root value ∈ (body.opcode instr).inputs →
        instr = put ∨ ∃ slot stored, slot < constants.length ∧
          stored ≠ body.root value ∧
            body.Stores instr (body.root value) slot stored :=
      fun instr hreads => (husers instr hreads).imp_left hsole
    refine ⟨hlength, hslots, husers, ?_, ?_⟩
    · intro name hname
      exact hname.eq_of_no_alias (not_isAlias_of_users husers hput)
    · intro hphis hobjects
      exact ClassInitializer.holdsInTheEnd_iff hslots husers hput hobjects hphis
  · obtain rfl := Except.ok.inj hrun
    exact absurd hafter hbefore

/-- An enum with two constants, the list of them, and a constructor that reads
no field. -/
def twoConstants : Program where
  types := #[
    { descriptor := .plain "LE;"
      definition := some { parent := none, traits := { isEnum := true } } },
    { descriptor := .array (.plain "LE;") }]
  elements := .ofList [(1, 0)]
  fields := #[
    { holder := 0, name := "A", type := 0, writtenOnlyIn := some 0,
      traits := { isStatic := true, isEnum := true } },
    { holder := 0, name := "B", type := 0, writtenOnlyIn := some 0,
      traits := { isStatic := true, isEnum := true } },
    { holder := 0, name := "$VALUES", type := 1, writtenOnlyIn := some 0,
      traits := { isStatic := true } }]
  methods := #[
    { holder := 0, name := "init", params := [], returns := 0,
      traits := { isStatic := true, isClassInitializer := true } },
    { holder := 0, name := "new", params := [], returns := 0,
      traits := { isConstructor := true }, facts := { reads := some [] } }]

/-- The first constant is stored as an object, the second as it is read from
its field. -/
def listBoth : Body where
  method := 0
  isStatic := true
  values := #[
    { type := .reference (.object 0) .nonNull, definition := .instruction 0,
      users := [1, 2, 9] },
    { type := .reference (.object 0) .nonNull, definition := .instruction 3,
      users := [4, 5] },
    { type := .primitive .int, definition := .instruction 6, users := [7] },
    { type := .reference (.array 1) .nonNull, definition := .instruction 7,
      users := [9, 12, 13] },
    { type := .primitive .int, definition := .instruction 8, users := [9] },
    { type := .primitive .int, definition := .instruction 10, users := [12] },
    { type := .reference (.object 0) .maybe, definition := .instruction 11,
      users := [12] }]
  instructions := #[⟨0, .newInstance 0, some 0⟩, ⟨0, .call .direct 1 [0], none⟩,
    ⟨0, .staticPut 0 0, none⟩, ⟨0, .newInstance 0, some 1⟩,
    ⟨0, .call .direct 1 [1], none⟩, ⟨0, .staticPut 1 1, none⟩,
    ⟨0, .number 2, some 2⟩, ⟨0, .newArray 1 2, some 3⟩, ⟨0, .number 0, some 4⟩,
    ⟨0, .arrayPut 3 4 0, none⟩, ⟨0, .number 1, some 5⟩,
    ⟨0, .staticGet 1, some 6⟩, ⟨0, .arrayPut 3 5 6, none⟩,
    ⟨0, .staticPut 2 3, none⟩, ⟨0, .ret none, none⟩]
  blocks := #[⟨List.range 15, [], []⟩]
  positions := #[0, 1, 2, 3, 4, 5, 6, 7, 8, 9, 10, 11, 12, 13, 14]
  incoming := #[[]]

theorem listBoth_accepted : listBoth.Accepted :=
  ⟨0, true,
    [.block, .value 0 (.newInstance 0) (.reference (.object 0) .nonNull),
      .push 0 (.call .direct 1 [0]), .push 0 (.staticPut 0 0),
      .value 0 (.newInstance 0) (.reference (.object 0) .nonNull),
      .push 0 (.call .direct 1 [1]), .push 0 (.staticPut 1 1),
      .value 0 (.number 2) (.primitive .int),
      .value 0 (.newArray 1 2) (.reference (.array 1) .nonNull),
      .value 0 (.number 0) (.primitive .int), .push 0 (.arrayPut 3 4 0),
      .value 0 (.number 1) (.primitive .int),
      .value 0 (.staticGet 1) (.reference (.object 0) .maybe),
      .push 0 (.arrayPut 3 5 6), .push 0 (.staticPut 2 3),
      .push 0 (.ret none)],
    _, _, rfl, by decide +kernel⟩

/-- One of the constants is made and listed as an object. -/
def listOne : Body where
  method := 0
  isStatic := true
  values := #[
    { type := .reference (.object 0) .nonNull, definition := .instruction 0,
      users := [1, 2, 6] },
    { type := .primitive .int, definition := .instruction 3, users := [4] },
    { type := .reference (.array 1) .nonNull, definition := .instruction 4,
      users := [6, 7] },
    { type := .primitive .int, definition := .instruction 5, users := [6] }]
  instructions := #[⟨0, .newInstance 0, some 0⟩, ⟨0, .call .direct 1 [0], none⟩,
    ⟨0, .staticPut 0 0, none⟩, ⟨0, .number 1, some 1⟩,
    ⟨0, .newArray 1 1, some 2⟩, ⟨0, .number 0, some 3⟩,
    ⟨0, .arrayPut 2 3 0, none⟩, ⟨0, .staticPut 2 2, none⟩, ⟨0, .ret none, none⟩]
  blocks := #[⟨List.range 9, [], []⟩]
  positions := #[0, 1, 2, 3, 4, 5, 6, 7, 8]
  incoming := #[[]]

theorem listOne_accepted : listOne.Accepted :=
  ⟨0, true,
    [.block, .value 0 (.newInstance 0) (.reference (.object 0) .nonNull),
      .push 0 (.call .direct 1 [0]), .push 0 (.staticPut 0 0),
      .value 0 (.number 1) (.primitive .int),
      .value 0 (.newArray 1 1) (.reference (.array 1) .nonNull),
      .value 0 (.number 0) (.primitive .int), .push 0 (.arrayPut 2 3 0),
      .push 0 (.staticPut 2 2), .push 0 (.ret none)],
    _, _, rfl, by decide +kernel⟩

theorem listOne_stores {store slot : Nat} {stored : ValueId}
    (hstores : listOne.Stores store 2 slot stored) :
    store = 6 ∧ stored = 0 := by
  obtain ⟨index, hopcode, _⟩ := hstores
  have hreads : 2 ∈ (listOne.opcode store).inputs := by
    simp [hopcode, Opcode.inputs]
  have huser : store ∈ [6, 7] := listOne_accepted.indexed.1.mem_users.mpr hreads
  fin_cases huser <;> cases hopcode
  exact ⟨rfl, rfl⟩

/-- Both lists are recorded.  The second slot of the first list has one store,
and the second list is what its array holds in the end. -/
theorem listBoth_enumValues : listBoth.Accepted ∧
    (∃ after, listBoth.noteStaticContents twoConstants .empty {} = .ok after ∧
      after.knowledge 2 = .exactly (.held 2
        (.constants [.held 0 .blank, .held 1 .blank]))) ∧
    (∃ store stored, listBoth.Stores store 3 1 stored ∧
      ClassInitializer.Denotes ⟨twoConstants, listBoth, 0, .empty⟩ stored
        (.held 1 .blank)) ∧
    listOne.Accepted ∧
    (∃ after, listOne.noteStaticContents twoConstants .empty {} = .ok after ∧
      after.knowledge 2 = .exactly (.held 2 (.constants [.held 0 .blank]))) ∧
    ClassInitializer.HoldsInTheEnd ⟨twoConstants, listOne, 0, .empty⟩ 2 4 7
      [.held 0 .blank] := by
  have hboth : ∃ after,
      listBoth.noteStaticContents twoConstants .empty {} = .ok after ∧
        after.knowledge 2 = .exactly (.held 2
          (.constants [.held 0 .blank, .held 1 .blank])) := ⟨_, rfl, rfl⟩
  have hone : ∃ after,
      listOne.noteStaticContents twoConstants .empty {} = .ok after ∧
        after.knowledge 2 = .exactly (.held 2 (.constants [.held 0 .blank])) :=
    ⟨_, rfl, rfl⟩
  refine ⟨listBoth_accepted, hboth, ?_, listOne_accepted, hone, ?_⟩
  · obtain ⟨after, hrun, hafter⟩ := hboth
    obtain ⟨_, hslots, _⟩ := enumValues_of_recorded listBoth_accepted
      (show twoConstants.method 0 = _ from rfl) hrun nofun hafter
      (show listBoth.opcode 13 = .staticPut 2 3 from rfl)
      (show listBoth.definition? 3 = some 7 from rfl) rfl
    obtain ⟨store, stored, hstores, hdenotes, _⟩ := hslots 1 _ rfl
    exact ⟨store, stored, hstores, hdenotes⟩
  · obtain ⟨after, hrun, hafter⟩ := hone
    obtain ⟨_, _, _, _, hfinal⟩ := enumValues_of_recorded listOne_accepted
      (show twoConstants.method 0 = _ from rfl) hrun nofun hafter
      (show listOne.opcode 7 = .staticPut 2 2 from rfl)
      (show listOne.definition? 2 = some 4 from rfl) rfl
    refine (hfinal rfl ?_).mpr ?_
    · intro store slot stored hstores
      obtain ⟨_, rfl⟩ := listOne_stores hstores
      exact ⟨0, rfl⟩
    · intro store slot stored hstores exit hexit path hpath
      obtain ⟨rfl, _⟩ := listOne_stores hstores
      exact List.mem_append_left _ (by decide)

/-- The first slot is filled with what the field of the first constant holds
before it is set.  The second slot is filled on one of two ways only, and then
overwritten through a phi. -/
def listInPart : Body where
  method := 0
  isStatic := true
  values := #[
    { type := .primitive .int, definition := .instruction 0, users := [3] },
    { type := .primitive .int, definition := .instruction 1, users := [5] },
    { type := .primitive .int, definition := .instruction 2,
      users := [13, 15] },
    { type := .reference (.array 1) .nonNull, definition := .instruction 3,
      users := [5, 13, 16], phiUsers := [7] },
    { type := .reference (.object 0) .maybe, definition := .instruction 4,
      users := [5, 12, 15] },
    { type := .reference (.object 0) .nonNull, definition := .instruction 6,
      users := [7, 8] },
    { type := .reference (.object 0) .nonNull, definition := .instruction 9,
      users := [10, 11, 13] },
    { type := .reference (.array 1) .nonNull, definition := .phi 2 [3, 3],
      users := [15] }]
  instructions := #[⟨0, .number 2, some 0⟩, ⟨0, .number 0, some 1⟩,
    ⟨0, .number 1, some 2⟩, ⟨0, .newArray 1 0, some 3⟩,
    ⟨0, .staticGet 0, some 4⟩, ⟨0, .arrayPut 3 1 4, none⟩,
    ⟨0, .newInstance 0, some 5⟩, ⟨0, .call .direct 1 [5], none⟩,
    ⟨0, .staticPut 0 5, none⟩, ⟨0, .newInstance 0, some 6⟩,
    ⟨0, .call .direct 1 [6], none⟩, ⟨0, .staticPut 1 6, none⟩,
    ⟨0, .branch .eq 4 none 1 2, none⟩, ⟨1, .arrayPut 3 2 6, none⟩,
    ⟨1, .goto 2, none⟩, ⟨2, .arrayPut 7 2 4, none⟩, ⟨2, .staticPut 2 3, none⟩,
    ⟨2, .ret none, none⟩]
  blocks := #[⟨List.range 13, [], []⟩, ⟨[13, 14], [], []⟩,
    ⟨[15, 16, 17], [7], []⟩]
  positions := #[0, 1, 2, 3, 4, 5, 6, 7, 8, 9, 10, 11, 12, 0, 1, 0, 1, 2]
  incoming := #[[], [0], [0, 1]]

/-- The list is recorded although the array ends up with other contents: a way
misses the store of the second slot, a phi of the array is stored into, and
the first slot gets what its field holds before it is set. -/
theorem listInPart_not_final : listInPart.Accepted ∧
    (∃ after, listInPart.noteStaticContents twoConstants .empty {} =
      .ok after ∧ after.knowledge 2 = .exactly (.held 2
        (.constants [.held 0 .blank, .held 1 .blank]))) ∧
    (∃ exit ∈ listInPart.returnBlocks, ∃ path,
      listInPart.graph.Path (listInPart.blockOf 3) path exit ∧
        ∀ store ∈ listInPart.passedAfter path 3, ∀ stored,
          ¬ listInPart.Stores store 3 1 stored) ∧
    (7 ∈ listInPart.phiUsers 3 ∧ listInPart.Stores 15 7 1 4) ∧
    (listInPart.Stores 5 3 0 4 ∧ listInPart.definition? 4 = some 4 ∧
      listInPart.opcode 4 = .staticGet 0 ∧ listInPart.putsOf 0 = [8] ∧
      listInPart.precedes 4 8 = true) := by
  have haccepted : listInPart.Accepted :=
    ⟨0, true,
      [.block, .block, .block, .value 0 (.number 2) (.primitive .int),
        .value 0 (.number 0) (.primitive .int),
        .value 0 (.number 1) (.primitive .int),
        .value 0 (.newArray 1 0) (.reference (.array 1) .nonNull),
        .value 0 (.staticGet 0) (.reference (.object 0) .maybe),
        .push 0 (.arrayPut 3 1 4),
        .value 0 (.newInstance 0) (.reference (.object 0) .nonNull),
        .push 0 (.call .direct 1 [5]), .push 0 (.staticPut 0 5),
        .value 0 (.newInstance 0) (.reference (.object 0) .nonNull),
        .push 0 (.call .direct 1 [6]), .push 0 (.staticPut 1 6),
        .push 0 (.branch .eq 4 none 1 2), .push 1 (.arrayPut 3 2 6),
        .push 1 (.goto 2), .phi 2 (.reference (.array 1) .nonNull),
        .operands 7 [3, 3], .push 2 (.arrayPut 7 2 4),
        .push 2 (.staticPut 2 3), .push 2 (.ret none)],
      _, _, rfl, by decide +kernel⟩
  have hrun : (do
      let after ← listInPart.noteStaticContents twoConstants .empty {}
      return after.knowledge 2) = Except.ok (.exactly (.held 2
        (.constants [.held 0 .blank, .held 1 .blank]))) := by
    decide +kernel
  obtain ⟨after, hafter, hknown⟩ := exists_of_bind hrun
  refine ⟨haccepted, ⟨after, hafter, Except.ok.inj hknown⟩,
    ⟨2, by decide, [0, 2], ?_, ?_⟩, ⟨by decide, 2, rfl, rfl⟩,
    ⟨1, rfl, rfl⟩, rfl, rfl, rfl, rfl⟩
  · exact .step (by decide) (.single 2)
  · intro store hstore stored hstores
    obtain ⟨index, hopcode, hindex⟩ := hstores
    have hpassed : store ∈ [4, 5, 6, 7, 8, 9, 10, 11, 12, 15, 16, 17] := hstore
    fin_cases hpassed <;> cases hopcode
    cases hindex

end Body

end FlowFacts
