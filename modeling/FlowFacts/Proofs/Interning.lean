/-
Interning.  Types are numbered in the order in which they are mentioned, and a
new array type gets its number before its elements have one.  Whatever a
program is told, a descriptor has at most one number, keeps it, and has one if
arrays of it do.
-/
import Mathlib.Data.List.Nodup
import FlowFacts.Proofs.Subtyping

namespace FlowFacts

namespace Descriptor

variable {descriptor element : Descriptor}

/-- All leading brackets are counted as dimensions; the name starts with
none. -/
def Proper (descriptor : Descriptor) : Prop :=
  descriptor.name.toList.head? ≠ some '['

instance : DecidablePred Proper := fun descriptor =>
  inferInstanceAs (Decidable (descriptor.name.toList.head? ≠ some '['))

theorem text_array (element : Descriptor) :
    element.array.text = "[" ++ element.text := by
  apply String.toList_inj.mp
  simp [text, array, List.replicate_succ]

theorem proper_ofChars (chars : List Char) : (ofChars chars).Proper := by
  fun_induction ofChars chars with
  | case1 rest ih => exact ih
  | case2 name hname =>
      intro hhead
      rw [plain, String.toList_ofList, List.head?_eq_some_iff] at hhead
      obtain ⟨rest, rfl⟩ := hhead
      exact hname rest rfl

theorem proper_ofString (text : String) : (ofString text).Proper :=
  proper_ofChars text.toList

theorem text_ofChars (chars : List Char) :
    (ofChars chars).text = String.ofList chars := by
  fun_induction ofChars chars with
  | case1 rest ih =>
      rw [text_array, ih]
      apply String.toList_inj.mp
      simp
  | case2 name _ => simp [plain, text]

theorem text_ofString (text : String) : (ofString text).text = text := by
  rw [ofString, text_ofChars, String.ofList_toList]

theorem ofChars_append_brackets (dimensions : Nat) {name : String}
    (hname : (plain name).Proper) :
    ofChars (List.replicate dimensions '[' ++ name.toList) =
      ⟨dimensions, name⟩ := by
  induction dimensions with
  | zero =>
      rw [List.replicate_zero, List.nil_append, ofChars]
      · rw [plain, String.ofList_toList]
      · intro rest hrest
        exact hname (by rw [plain, hrest]; rfl)
  | succ dimensions ih =>
      rw [List.replicate_succ, List.cons_append, ofChars, ih]
      rfl

theorem Proper.ofString_text (hproper : descriptor.Proper) :
    ofString descriptor.text = descriptor := by
  rw [ofString, text, String.toList_append, String.toList_ofList]
  exact ofChars_append_brackets descriptor.dimensions hproper

theorem Proper.ofString_eq_iff (hproper : descriptor.Proper) {text : String} :
    ofString text = descriptor ↔ descriptor.text = text := by
  constructor
  · rintro rfl
    exact text_ofString text
  · rintro rfl
    exact hproper.ofString_text

theorem ofString_bracket (text : String) :
    ofString ("[" ++ text) = (ofString text).array := by
  rw [ofString, String.toList_append]
  rfl

theorem array_inj : descriptor.array = element.array ↔ descriptor = element := by
  obtain ⟨dimensions, name⟩ := descriptor
  obtain ⟨depth, other⟩ := element
  simp [array]

end Descriptor

namespace Program

variable {program : Program} {descriptor : Descriptor} {type : TypeId}

def descriptors (program : Program) : List Descriptor :=
  program.types.toList.map TypeEntry.descriptor

@[simp] theorem length_descriptors (program : Program) :
    program.descriptors.length = program.types.size := by
  simp [descriptors]

@[simp] theorem descriptors_addType (program : Program)
    (descriptor : Descriptor) :
    (program.addType descriptor).descriptors =
      program.descriptors ++ [descriptor] := by
  simp [descriptors, addType]

theorem getElem?_descriptors_eq_some :
    program.descriptors[type]? = some descriptor ↔
      type < program.types.size ∧ program.descriptor type = descriptor := by
  rw [descriptors, List.getElem?_map, Array.getElem?_toList, Program.descriptor]
  by_cases htype : type < program.types.size
  · simp [htype]
  · simp [htype]

theorem lookup?_addType (program : Program) (descriptor other : Descriptor) :
    (program.addType descriptor).lookup? other =
      if other = descriptor then some program.types.size
      else program.lookup? other := by
  rw [lookup?, addType, List.lookup_cons]
  by_cases hother : other = descriptor
  · simp [hother]
  · rw [beq_eq_false_iff_ne.mpr hother, if_neg hother]
    rfl

theorem element?_setElement (program : Program) (type element other : TypeId) :
    (program.setElement type element).element? other =
      if type = other then some element else program.element? other :=
  program.elements.find?_insert type other element

/-- Changing definitions does not change descriptors. -/
theorem descriptors_modify (program : Program) (type : TypeId)
    {change : TypeEntry → TypeEntry}
    (hchange : ∀ entry, (change entry).descriptor = entry.descriptor) :
    (program.types.modify type change).toList.map TypeEntry.descriptor =
      program.descriptors := by
  apply List.ext_getElem?
  intro index
  rw [descriptors, List.getElem?_map, List.getElem?_map, Array.getElem?_toList,
    Array.getElem?_toList, Array.getElem?_modify]
  split
  · cases program.types[index]? with
    | none => rfl
    | some entry => exact congrArg some (hchange entry)
  · rfl

@[simp] theorem descriptors_updateClass (program : Program) (type : TypeId)
    (change : ClassDecl → ClassDecl) :
    (program.updateClass type change).descriptors = program.descriptors := by
  apply descriptors_modify
  exact fun _ => rfl

@[simp] theorem descriptors_defineClass (program : Program) (type : TypeId)
    (parent : Option TypeId) (traits : ClassTraits) :
    (program.defineClass type parent traits).descriptors =
      program.descriptors := by
  apply descriptors_modify
  exact fun _ => rfl

/-- The tables agree: a descriptor is found under the number that it has and
under no other, and an array has the type that it is an array of.  Arrays in
`pending` have their number, but the note of their elements is yet to come. -/
structure Interned (program : Program) (pending : List TypeId) : Prop where
  proper : ∀ descriptor ∈ program.descriptors, descriptor.Proper
  numbered : ∀ {descriptor : Descriptor} {type : TypeId},
    program.lookup? descriptor = some type ↔
      program.descriptors[type]? = some descriptor
  array_of_element : ∀ {type element : TypeId},
    program.element? type = some element → ∃ descriptor,
      program.descriptors[element]? = some descriptor ∧
        program.descriptors[type]? = some descriptor.array
  element_of_array : ∀ {type : TypeId} {descriptor : Descriptor},
    program.descriptors[type]? = some descriptor.array → type ∉ pending →
      ∃ element, program.element? type = some element

namespace Interned

variable {pending : List TypeId} {element : TypeId}

theorem not_mem_of_lookup? (hprogram : program.Interned pending)
    (hnew : program.lookup? descriptor = none) :
    descriptor ∉ program.descriptors := by
  intro hmem
  obtain ⟨type, htype⟩ := List.mem_iff_getElem?.mp hmem
  cases hnew.symm.trans (hprogram.numbered.mpr htype)

/-- A type that is new gets the next number.  If it is an array, its elements
are pending then. -/
theorem addType (hprogram : program.Interned pending)
    (hnew : program.lookup? descriptor = none) (hproper : descriptor.Proper) :
    (program.addType descriptor).Interned (program.types.size :: pending) := by
  have hfresh := hprogram.not_mem_of_lookup? hnew
  have hold : ∀ {type : TypeId} {other : Descriptor},
      program.descriptors[type]? = some other →
      (program.descriptors ++ [descriptor])[type]? = some other := by
    intro type other hother
    obtain ⟨hlt, _⟩ := List.getElem?_eq_some_iff.mp hother
    rwa [List.getElem?_append_left hlt]
  -- a number is that of the new type, or it has been given before
  have hcases : ∀ {type : TypeId} {other : Descriptor},
      (program.descriptors ++ [descriptor])[type]? = some other →
        program.descriptors[type]? = some other ∨
          type = program.types.size ∧ other = descriptor := by
    intro type other hother
    by_cases hlt : type < program.descriptors.length
    · rw [List.getElem?_append_left hlt] at hother
      exact Or.inl hother
    · rw [List.getElem?_append_right (Nat.not_lt.mp hlt),
        List.getElem?_singleton] at hother
      split at hother
      · next hzero =>
          rw [length_descriptors] at hlt hzero
          exact Or.inr ⟨Nat.le_antisymm (Nat.sub_eq_zero_iff_le.mp hzero)
            (Nat.not_lt.mp hlt), (Option.some.inj hother).symm⟩
      · cases hother
  refine ⟨?_, ?_, ?_, ?_⟩
  · rw [descriptors_addType]
    refine List.forall_mem_append.mpr ⟨hprogram.proper, ?_⟩
    exact List.forall_mem_singleton.mpr hproper
  · intro other type
    rw [lookup?_addType, descriptors_addType]
    by_cases hother : other = descriptor
    · subst hother
      rw [if_pos rfl, Option.some.injEq]
      constructor
      · rintro rfl
        rw [← length_descriptors]
        exact List.getElem?_concat_length
      · intro htype
        rcases hcases htype with htype | ⟨rfl, _⟩
        · exact absurd (List.mem_of_getElem? htype) hfresh
        · rfl
    · rw [if_neg hother, hprogram.numbered]
      constructor
      · exact hold
      · intro htype
        exact (hcases htype).resolve_right fun hnew => hother hnew.2
  · intro type element helement
    obtain ⟨other, hother, harray⟩ := hprogram.array_of_element helement
    rw [descriptors_addType]
    exact ⟨other, hold hother, hold harray⟩
  · intro type other harray hpending
    rw [List.mem_cons, not_or] at hpending
    rw [descriptors_addType] at harray
    rcases hcases harray with harray | ⟨heq, _⟩
    · exact hprogram.element_of_array harray hpending.2
    · exact absurd heq hpending.1

/-- What is no array needs no elements. -/
theorem of_plain (hprogram : program.Interned (type :: pending))
    (hplain : ∀ descriptor : Descriptor,
      program.descriptors[type]? ≠ some descriptor.array) :
    program.Interned pending := by
  refine ⟨hprogram.proper, hprogram.numbered, hprogram.array_of_element, ?_⟩
  intro other descriptor harray hpending
  refine hprogram.element_of_array harray fun hmem => ?_
  rcases List.mem_cons.mp hmem with rfl | hmem
  · exact hplain descriptor harray
  · exact hpending hmem

theorem setElement (hprogram : program.Interned (type :: pending))
    (helement : program.descriptors[element]? = some descriptor)
    (htype : program.descriptors[type]? = some descriptor.array) :
    (program.setElement type element).Interned pending := by
  refine ⟨hprogram.proper, hprogram.numbered, ?_, ?_⟩
  · intro other found hfound
    rw [element?_setElement] at hfound
    split at hfound
    · next heq =>
        subst heq
        obtain rfl := Option.some.inj hfound
        exact ⟨descriptor, helement, htype⟩
    · exact hprogram.array_of_element hfound
  · intro other otherDescriptor harray hpending
    rw [element?_setElement]
    split
    · exact ⟨element, rfl⟩
    · next hne =>
        refine hprogram.element_of_array harray fun hmem => ?_
        rcases List.mem_cons.mp hmem with rfl | hmem
        · exact hne rfl
        · exact hpending hmem

end Interned

theorem isPrefix_descriptors_internUnder (program : Program) (name : String)
    (dimensions : Nat) :
    program.descriptors <+: (program.internUnder name dimensions).2.descriptors := by
  induction dimensions generalizing program with
  | zero =>
      rw [internUnder]
      split
      · exact List.prefix_rfl
      · simp
  | succ dimensions ih =>
      rw [internUnder]
      split
      · exact List.prefix_rfl
      · refine List.IsPrefix.trans ?_ (ih (program.addType ⟨dimensions + 1, name⟩))
        simp

/-- The induction is on the brackets: the array is pending while its elements
are mentioned, and these get their number before it is noted with the array. -/
theorem Interned.internUnder {pending : List TypeId}
    (hprogram : program.Interned pending) {name : String}
    (hname : (Descriptor.plain name).Proper) (dimensions : Nat) :
    (program.internUnder name dimensions).2.Interned pending ∧
      (program.internUnder name dimensions).2.descriptors[
        (program.internUnder name dimensions).1]? =
          some ⟨dimensions, name⟩ := by
  induction dimensions generalizing program pending with
  | zero =>
      rw [Program.internUnder]
      split
      · next type hfound => exact ⟨hprogram, hprogram.numbered.mp hfound⟩
      · next hnew =>
          have htype : (program.addType ⟨0, name⟩).descriptors[
              program.types.size]? = some ⟨0, name⟩ := by simp
          refine ⟨(hprogram.addType hnew hname).of_plain ?_, htype⟩
          intro descriptor harray
          cases htype.symm.trans harray
  | succ dimensions ih =>
      rw [Program.internUnder]
      split
      · next type hfound => exact ⟨hprogram, hprogram.numbered.mp hfound⟩
      · next hnew =>
          obtain ⟨hafter, helement⟩ := ih (hprogram.addType hnew hname)
          have hprefix := isPrefix_descriptors_internUnder
            (program.addType ⟨dimensions + 1, name⟩) name dimensions
          have htype := List.prefix_iff_getElem?.mp hprefix program.types.size
            (by simp)
          simp only [descriptors_addType, ← length_descriptors program,
            List.getElem_concat_length] at htype
          rw [length_descriptors] at htype
          exact ⟨hafter.setElement helement htype, htype⟩

theorem Interned.intern {pending : List TypeId}
    (hprogram : program.Interned pending) (hproper : descriptor.Proper) :
    (program.intern descriptor).2.Interned pending ∧
      (program.intern descriptor).2.descriptors[
        (program.intern descriptor).1]? = some descriptor :=
  hprogram.internUnder hproper descriptor.dimensions

/-- There is a type with this number, and this is the text of its
descriptor. -/
def HasText (program : Program) (type : TypeId) (text : String) : Prop :=
  type < program.types.size ∧ (program.descriptor type).text = text

/-- One thing that a program is told. -/
inductive Declaration
  | mention (text : String)
  | defineClass (text : String) (parent : Option TypeId) (traits : ClassTraits)
  | addInterface (type interface : TypeId)
  | addField (definition : FieldDecl)
  | addMethod (definition : MethodDecl)

/-- Tell a program one thing.  A class that is defined is mentioned first. -/
def declare (program : Program) : Declaration → Program
  | .mention text => (program.intern (.ofString text)).2
  | .defineClass text parent traits =>
      let (type, program) := program.intern (.ofString text)
      program.defineClass type parent traits
  | .addInterface type interface => program.addInterface type interface
  | .addField definition => (program.addField definition).2
  | .addMethod definition => (program.addMethod definition).2

def declareAll (program : Program) (declarations : List Declaration) : Program :=
  declarations.foldl declare program

/-- Two programs have the same tables of types. -/
structure SameTables (first second : Program) : Prop where
  descriptors : first.descriptors = second.descriptors
  numbers : first.numbers = second.numbers
  elements : first.elements = second.elements

/-- A declaration changes the tables by a mention or not at all. -/
theorem sameTables_declare (program : Program) (declaration : Declaration) :
    (program.declare declaration).SameTables program ∨
      ∃ text, (program.declare declaration).SameTables
        (program.intern (.ofString text)).2 := by
  cases declaration with
  | mention text => exact Or.inr ⟨text, rfl, rfl, rfl⟩
  | defineClass text parent traits =>
      exact Or.inr ⟨text, descriptors_defineClass _ _ _ _, rfl, rfl⟩
  | addInterface type interface =>
      exact Or.inl ⟨descriptors_updateClass _ _ _, rfl, rfl⟩
  | addField definition =>
      exact Or.inl ⟨descriptors_updateClass _ _ _, rfl, rfl⟩
  | addMethod definition =>
      exact Or.inl ⟨descriptors_updateClass _ _ _, rfl, rfl⟩

theorem Interned.congr {other : Program} {pending : List TypeId}
    (hprogram : program.Interned pending) (hsame : other.SameTables program) :
    other.Interned pending := by
  obtain ⟨hdescriptors, hnumbers, helements⟩ := hsame
  obtain ⟨hproper, hnumbered, harray, helement⟩ := hprogram
  constructor <;> simp only [lookup?, element?, hdescriptors, hnumbers,
    helements] <;> assumption

theorem Interned.declare (hprogram : program.Interned [])
    (declaration : Declaration) : (program.declare declaration).Interned [] := by
  rcases program.sameTables_declare declaration with hsame | ⟨text, hsame⟩
  · exact hprogram.congr hsame
  · exact (hprogram.intern (Descriptor.proper_ofString text)).1.congr hsame

theorem Interned.declareAll (hprogram : program.Interned [])
    (declarations : List Declaration) :
    (program.declareAll declarations).Interned [] := by
  induction declarations generalizing program with
  | nil => exact hprogram
  | cons declaration rest ih => exact ih (hprogram.declare declaration)

theorem isPrefix_descriptors_declareAll (program : Program)
    (declarations : List Declaration) :
    program.descriptors <+: (program.declareAll declarations).descriptors := by
  induction declarations generalizing program with
  | nil => exact List.prefix_rfl
  | cons declaration rest ih =>
      refine List.IsPrefix.trans ?_ (ih (program.declare declaration))
      rcases program.sameTables_declare declaration with hsame | ⟨text, hsame⟩
      · exact hsame.descriptors ▸ List.prefix_rfl
      · rw [hsame.descriptors]
        exact isPrefix_descriptors_internUnder _ _ _

theorem HasText.declareAll {text : String} (htype : program.HasText type text)
    (declarations : List Declaration) :
    (program.declareAll declarations).HasText type text := by
  obtain ⟨hlt, htext⟩ := htype
  have hentry := getElem?_descriptors_eq_some.mpr ⟨hlt, rfl⟩
  obtain ⟨added, hadded⟩ := program.isPrefix_descriptors_declareAll declarations
  have hlater : (program.descriptors ++ added)[type]? =
      program.descriptors[type]? :=
    List.getElem?_append_left (by simpa using hlt)
  rw [hadded, hentry, getElem?_descriptors_eq_some] at hlater
  exact ⟨hlater.1, by rw [hlater.2, htext]⟩

theorem interned_initial : Program.initial.Interned [] := by
  have hplain : ∀ descriptor ∈ Program.initial.descriptors,
      descriptor.dimensions = 0 := by decide
  have hlisted : ∀ entry ∈ Program.initial.numbers,
      Program.initial.descriptors[entry.2]? = some entry.1 := by
    decide +kernel
  have hfound : ∀ type < Program.initial.types.size,
      Program.initial.lookup? (Program.initial.descriptor type) = some type := by
    decide +kernel
  refine ⟨by decide +kernel, ?_, ?_, ?_⟩
  · intro descriptor type
    constructor
    · intro hnumber
      obtain ⟨before, after, hsplit, _⟩ := List.lookup_eq_some_iff.mp hnumber
      exact hlisted (descriptor, type) (by simp [hsplit])
    · intro htype
      obtain ⟨hlt, rfl⟩ := getElem?_descriptors_eq_some.mp htype
      exact hfound type hlt
  · intro type element helement
    cases helement
  · intro type descriptor harray _
    cases hplain _ (List.mem_of_getElem? harray)

def told (declarations : List Declaration) : Program :=
  Program.initial.declareAll declarations

theorem interned_told (declarations : List Declaration) :
    (told declarations).Interned [] :=
  interned_initial.declareAll declarations

namespace Interned

variable {text : String} {element : TypeId}

theorem hasText_iff (hprogram : program.Interned []) :
    program.HasText type text ↔
      program.descriptors[type]? = some (.ofString text) := by
  rw [HasText, getElem?_descriptors_eq_some]
  refine and_congr_right fun htype => ?_
  have hentry := getElem?_descriptors_eq_some.mpr ⟨htype, rfl⟩
  have hproper := hprogram.proper _ (List.mem_of_getElem? hentry)
  rw [← hproper.ofString_eq_iff, eq_comm]

theorem lookup?_ofString (hprogram : program.Interned []) :
    program.lookup? (.ofString text) = some type ↔ program.HasText type text := by
  rw [hprogram.numbered, hprogram.hasText_iff]

theorem hasText_unique (hprogram : program.Interned []) {other : TypeId}
    (htype : program.HasText type text) (hother : program.HasText other text) :
    type = other := by
  rw [← hprogram.lookup?_ofString] at htype hother
  exact Option.some.inj (htype.symm.trans hother)

theorem element?_eq_some_iff (hprogram : program.Interned []) :
    program.element? type = some element ↔
      ∃ text, program.HasText element text ∧
        program.HasText type ("[" ++ text) := by
  simp only [hprogram.hasText_iff, Descriptor.ofString_bracket]
  constructor
  · intro helement
    obtain ⟨descriptor, hdescriptor, harray⟩ := hprogram.array_of_element helement
    have hproper := hprogram.proper _ (List.mem_of_getElem? hdescriptor)
    refine ⟨descriptor.text, ?_, ?_⟩ <;> rwa [hproper.ofString_text]
  · rintro ⟨text, helement, htype⟩
    obtain ⟨found, hfound⟩ :=
      hprogram.element_of_array htype List.not_mem_nil
    obtain ⟨descriptor, hdescriptor, harray⟩ := hprogram.array_of_element hfound
    -- the element that is noted has the same descriptor, and so the same number
    obtain rfl : descriptor = .ofString text :=
      Descriptor.array_inj.mp (Option.some.inj (harray.symm.trans htype))
    rw [← hprogram.numbered] at hdescriptor helement
    rw [hfound, ← hdescriptor, helement]

/-- The type of a text that is mentioned under a bracket. -/
theorem exists_hasText_of_bracket (hprogram : program.Interned [])
    (htype : program.HasText type ("[" ++ text)) :
    ∃ element, program.HasText element text := by
  have harray := hprogram.hasText_iff.mp htype
  rw [Descriptor.ofString_bracket] at harray
  obtain ⟨element, helement⟩ :=
    hprogram.element_of_array harray List.not_mem_nil
  obtain ⟨other, hother, hbracket⟩ :=
    hprogram.element?_eq_some_iff.mp helement
  have hsame := hbracket.2.symm.trans htype.2
  obtain rfl : other = text := by
    apply String.toList_inj.mp
    simpa using congrArg String.toList hsame
  exact ⟨element, hother⟩

theorem exists_hasText_of_brackets (hprogram : program.Interned [])
    {depth : Nat}
    (htype : program.HasText type
      (String.ofList (List.replicate depth '[') ++ text)) :
    ∃ element, program.HasText element text := by
  induction depth generalizing type with
  | zero => exact ⟨type, by simpa using htype⟩
  | succ depth ih =>
      have hbracket : String.ofList (List.replicate (depth + 1) '[') ++ text =
          "[" ++ (String.ofList (List.replicate depth '[') ++ text) := by
        apply String.toList_inj.mp
        simp [List.replicate_succ]
      rw [hbracket] at htype
      obtain ⟨element, helement⟩ := hprogram.exists_hasText_of_bracket htype
      exact ih helement

end Interned

/-- Whatever a program has been told: the number that a text is given is one of
that text, numbers keep their texts, no two numbers have one text, a text is
found under its number and no other, and the elements of an array are the type
whose text lacks the first bracket.  So there is a type for every text under
any number of brackets. -/
theorem told_interns (declarations : List Declaration) :
    (∀ text type after, (told declarations).intern (.ofString text) =
      (type, after) → after.HasText type text) ∧
    (∀ further type text, (told declarations).HasText type text →
      (told (declarations ++ further)).HasText type text) ∧
    (∀ type other text, (told declarations).HasText type text →
      (told declarations).HasText other text → type = other) ∧
    (∀ text type, (told declarations).lookup? (.ofString text) = some type ↔
      (told declarations).HasText type text) ∧
    (∀ type element, (told declarations).element? type = some element ↔
      ∃ text, (told declarations).HasText element text ∧
        (told declarations).HasText type ("[" ++ text)) ∧
    ∀ depth type text, (told declarations).HasText type
        (String.ofList (List.replicate depth '[') ++ text) →
      ∃ element, (told declarations).HasText element text := by
  have hprogram := interned_told declarations
  refine ⟨?_, ?_, fun _ _ _ => hprogram.hasText_unique,
    fun _ _ => hprogram.lookup?_ofString,
    fun _ _ => hprogram.element?_eq_some_iff,
    fun _ _ _ => hprogram.exists_hasText_of_brackets⟩
  · intro text type after hintern
    obtain ⟨hafter, hnumber⟩ :=
      hprogram.intern (Descriptor.proper_ofString text)
    rw [hintern] at hafter hnumber
    exact hafter.hasText_iff.mpr hnumber
  · intro further type text htype
    rw [told, declareAll, List.foldl_append]
    exact htype.declareAll further

/-- An array of arrays is mentioned before its elements, and the class of those
is defined in between. -/
def nestedArrays : List Declaration :=
  [.mention "[[LA;", .defineClass "LA;" (some WellKnown.object) {},
    .mention "[[[LA;", .addInterface 23 1]

theorem nestedArrays_interns :
    ((told nestedArrays).HasText 21 "[[LA;" ∧
      (told nestedArrays).HasText 22 "[LA;" ∧
      (told nestedArrays).HasText 23 "LA;" ∧
      (told nestedArrays).HasText 24 "[[[LA;") ∧
    (told nestedArrays).element? 24 = some 21 ∧
    (told nestedArrays).element? 21 = some 22 ∧
    (told nestedArrays).lookup? (.ofString "LA;") = some 23 ∧
    (told (nestedArrays ++ [.mention "LB;"])).HasText 24 "[[[LA;" := by
  obtain ⟨_, hkeeps, _, hfound, helement, _⟩ := told_interns nestedArrays
  have hmatrix : (told nestedArrays).HasText 21 "[[LA;" := by
    constructor <;> decide +kernel
  have harray : (told nestedArrays).HasText 22 "[LA;" := by
    constructor <;> decide +kernel
  have hclass : (told nestedArrays).HasText 23 "LA;" := by
    constructor <;> decide +kernel
  have hcube : (told nestedArrays).HasText 24 "[[[LA;" := by
    constructor <;> decide +kernel
  exact ⟨⟨hmatrix, harray, hclass, hcube⟩,
    (helement 24 21).mpr ⟨"[[LA;", hmatrix, hcube⟩,
    (helement 21 22).mpr ⟨"[LA;", harray, hmatrix⟩, (hfound "LA;" 23).mpr hclass,
    hkeeps _ _ _ hcube⟩

end Program

end FlowFacts
