/-
Subtyping.  A class is below what its superclasses and interfaces lead to,
also when these run in circles; arrays are ordered like their elements, and
everything held by reference is an object.  If objects extend nothing
themselves, the order is transitive across all of these cases.
-/
import FlowFacts.Program.Hierarchy
import FlowFacts.Proofs.Closures

namespace FlowFacts

namespace Program

open Relation

variable {program : Program} {a b c x y type sub sup : TypeId}

/-- The definition of `sub` names `sup` as its superclass or as an
interface. -/
def Extends (program : Program) (sub sup : TypeId) : Prop :=
  ∃ definition, program.classDecl? sub = some definition ∧
    (definition.parent = some sup ∨ sup ∈ definition.interfaces)

theorem mem_supertypes :
    sup ∈ program.supertypes sub ↔ program.Extends sub sup := by
  rw [supertypes, Extends]
  cases program.classDecl? sub with
  | some definition => simp
  | none => simp

/-- A number that names no type extends nothing. -/
theorem supertypes_eq_nil (htype : program.types.size ≤ type) :
    program.supertypes type = [] := by
  simp [supertypes, classDecl?, Array.getElem?_eq_none htype]

theorem exists_exhausts_supertypes (program : Program) (sub : TypeId) :
    ∃ rounds ≤ program.types.size + 1, ∃ found,
      Exhausts program.supertypes rounds [] [sub] found := by
  apply exists_exhausts (List.range program.types.size)
  · intro type htype
    exact supertypes_eq_nil (Nat.not_lt.mp fun hlt => htype (List.mem_range.mpr hlt))
  · simp
  · simp

/-- As many rounds as there are types are enough to find what a search without
a limit finds. -/
theorem inherits_iff_mem_found {rounds : Nat} {found : List TypeId}
    (hrounds : rounds ≤ program.types.size + 1)
    (hends : Exhausts program.supertypes rounds [] [sub] found) :
    program.inherits sub sup = true ↔ sup ∈ found := by
  have hclosure : closure program.supertypes program.types.size [sub] = found :=
    hends.expandRounds_eq hrounds
  rw [inherits, hclosure, List.contains_iff_mem]

theorem inherits_iff_reaches : program.inherits sub sup = true ↔
    ReflTransGen program.Extends sub sup := by
  obtain ⟨rounds, hrounds, found, hends⟩ :=
    program.exists_exhausts_supertypes sub
  rw [inherits_iff_mem_found hrounds hends, hends.mem_found]
  simp only [mem_supertypes]

/-- The search for `sup` through superclasses and interfaces, run without a
limit, ends with this answer.  The first list is in line; the second holds the
types that have been expanded. -/
inductive InheritanceSearch (program : Program) (sup : TypeId) :
    List TypeId → List TypeId → Bool → Prop
  | nothing (visited : List TypeId) :
      InheritanceSearch program sup [] visited false
  | found (rest visited : List TypeId) :
      InheritanceSearch program sup (sup :: rest) visited true
  | again {current : TypeId} {rest visited : List TypeId} {answer : Bool}
      (hne : current ≠ sup) (hvisited : current ∈ visited)
      (hrest : InheritanceSearch program sup rest visited answer) :
      InheritanceSearch program sup (current :: rest) visited answer
  | onward {current : TypeId} {rest visited : List TypeId} {answer : Bool}
      (hne : current ≠ sup) (hfresh : current ∉ visited)
      (hrest : InheritanceSearch program sup
        (rest ++ program.supertypes current) (visited ++ [current]) answer) :
      InheritanceSearch program sup (current :: rest) visited answer

theorem exists_inheritanceSearch (program : Program) (sup : TypeId)
    (line visited : List TypeId) :
    ∃ answer, program.InheritanceSearch sup line visited answer := by
  have hsinks : ∀ type, program.types.size ≤ type →
      program.supertypes type = [] := fun _ => supertypes_eq_nil
  induction line, visited using line_induct hsinks with
  | hnil visited => exact ⟨false, .nothing visited⟩
  | hcons current rest visited ihRest ihOnward =>
      by_cases hsup : current = sup
      · exact ⟨true, hsup ▸ .found rest visited⟩
      · by_cases hvisited : current ∈ visited
        · obtain ⟨answer, hrest⟩ := ihRest
          exact ⟨answer, .again hsup hvisited hrest⟩
        · obtain ⟨answer, hrest⟩ := ihOnward hvisited
          exact ⟨answer, .onward hsup hvisited hrest⟩

theorem InheritanceSearch.exists_of_true {line visited : List TypeId}
    (hsearch : program.InheritanceSearch sup line visited true) :
    ∃ seed ∈ line, ReflTransGen program.Extends seed sup := by
  generalize hanswer : true = answer at hsearch
  induction hsearch with
  | nothing => cases hanswer
  | found => exact ⟨sup, List.mem_cons_self, .refl⟩
  | again _ _ _ ih =>
      obtain ⟨seed, hseed, hreach⟩ := ih hanswer
      exact ⟨seed, List.mem_cons_of_mem _ hseed, hreach⟩
  | @onward current _ _ _ _ _ _ ih =>
      obtain ⟨seed, hseed, hreach⟩ := ih hanswer
      rcases List.mem_append.mp hseed with hrest | hnamed
      · exact ⟨seed, List.mem_cons_of_mem _ hrest, hreach⟩
      · exact ⟨current, List.mem_cons_self,
          .head (mem_supertypes.mp hnamed) hreach⟩

/-- What has been expanded is not the type sought, and the types it names have
been expanded or are in line. -/
def Surveyed (program : Program) (sup : TypeId)
    (line visited : List TypeId) : Prop :=
  ∀ known ∈ visited, known ≠ sup ∧
    ∀ other, program.Extends known other → other ∈ visited ∨ other ∈ line

theorem InheritanceSearch.forall_of_false {line visited : List TypeId}
    (hsearch : program.InheritanceSearch sup line visited false)
    (hsurveyed : program.Surveyed sup line visited) {seed : TypeId}
    (hseed : seed ∈ visited ∨ seed ∈ line) :
    ¬ ReflTransGen program.Extends seed sup := by
  generalize hanswer : false = answer at hsearch
  induction hsearch with
  | nothing visited =>
      -- nothing is in line, so all that can be reached has been expanded
      have hall : ∀ type, ReflTransGen program.Extends seed type →
          type ∈ visited := by
        intro type hreach
        induction hreach with
        | refl => simpa using hseed
        | tail _ hstep ih => simpa using (hsurveyed _ ih).2 _ hstep
      exact fun hreach => (hsurveyed sup (hall sup hreach)).1 rfl
  | found => cases hanswer
  | @again current rest visited _ _ hvisited _ ih =>
      have hskip : ∀ {other}, other ∈ visited ∨ other ∈ current :: rest →
          other ∈ visited ∨ other ∈ rest := by
        rintro other (hother | hother)
        · exact Or.inl hother
        · rcases List.mem_cons.mp hother with rfl | hrest
          · exact Or.inl hvisited
          · exact Or.inr hrest
      refine ih (fun known hknown => ?_) (hskip hseed) hanswer
      obtain ⟨hne, hnamed⟩ := hsurveyed known hknown
      exact ⟨hne, fun other hother => hskip (hnamed other hother)⟩
  | @onward current rest visited _ hne _ _ ih =>
      have hmove : ∀ {other}, other ∈ visited ∨ other ∈ current :: rest →
          other ∈ visited ++ [current] ∨
            other ∈ rest ++ program.supertypes current := by
        rintro other (hother | hother)
        · exact Or.inl (List.mem_append_left _ hother)
        · rcases List.mem_cons.mp hother with rfl | hrest
          · exact Or.inl (List.mem_append_right _ (List.mem_singleton_self other))
          · exact Or.inr (List.mem_append_left _ hrest)
      refine ih (fun known hknown => ?_) (hmove hseed) hanswer
      rcases List.mem_append.mp hknown with hknown | hknown
      · obtain ⟨hother, hnamed⟩ := hsurveyed known hknown
        exact ⟨hother, fun other hother => hmove (hnamed other hother)⟩
      · obtain rfl := List.mem_singleton.mp hknown
        exact ⟨hne, fun other hother => Or.inr
          (List.mem_append_right _ (mem_supertypes.mpr hother))⟩

/-- The search through the line finds what is found round by round. -/
theorem inheritanceSearch (program : Program) (sub sup : TypeId) :
    program.InheritanceSearch sup [sub] [] (program.inherits sub sup) := by
  obtain ⟨answer, hsearch⟩ := program.exists_inheritanceSearch sup [sub] []
  have hanswer : program.inherits sub sup = answer := by
    cases answer with
    | true =>
        obtain ⟨seed, hseed, hreach⟩ := hsearch.exists_of_true
        obtain rfl := List.mem_singleton.mp hseed
        exact inherits_iff_reaches.mpr hreach
    | false =>
        rw [← Bool.not_eq_true, inherits_iff_reaches]
        exact hsearch.forall_of_false (by simp [Surveyed]) (by simp)
  rwa [hanswer]

theorem isReference_of_array (hsort : program.sort type = .array) :
    program.isReference type = true := by
  rw [isReference, hsort]
  rfl

theorem isReference_of_object (hsort : program.sort type = .object) :
    program.isReference type = true := by
  rw [isReference, hsort]
  rfl

theorem sort_eq_object_of_isReference (htype : program.isReference type = true)
    (hplain : program.sort type ≠ .array) : program.sort type = .object := by
  rw [isReference] at htype
  generalize program.sort type = sort at htype hplain ⊢
  cases sort with
  | object => rfl
  | array => exact absurd rfl hplain
  | primitive _ => cases htype
  | void => cases htype

/-- One type is below another, by the rules of subtyping, without an order of
trying them.  The rule for arrays is used at most `depth` times. -/
inductive Below (program : Program) : Nat → TypeId → TypeId → Prop
  | refl (depth : Nat) (type : TypeId) : Below program depth type type
  | object {depth : Nat} {type : TypeId}
      (htype : program.isReference type = true)
      (hobject : program.sort WellKnown.object = .object) :
      Below program depth type WellKnown.object
  | inherited {depth : Nat} {sub sup : TypeId}
      (hsub : program.sort sub = .object) (hsup : program.sort sup = .object)
      (hreach : ReflTransGen program.Extends sub sup) :
      Below program depth sub sup
  | array {depth : Nat} {a b x y : TypeId} (ha : program.sort a = .array)
      (hb : program.sort b = .array) (hx : program.element? a = some x)
      (hy : program.element? b = some y) (hxref : program.isReference x = true)
      (hyref : program.isReference y = true)
      (hbelow : Below program depth x y) : Below program (depth + 1) a b

theorem isSubtypeOutright_iff : program.isSubtypeOutright a b = true ↔
    a = b ∨
    (program.isReference a = true ∧ program.sort WellKnown.object = .object ∧
      b = WellKnown.object) ∨
    (program.sort a = .object ∧ program.sort b = .object ∧
      ReflTransGen program.Extends a b) := by
  rw [isSubtypeOutright, Bool.or_eq_true, beq_iff_eq]
  refine or_congr_right ?_
  constructor
  · intro hrest
    split at hrest
    · next hsub hsup =>
        rcases Bool.or_eq_true_iff.mp hrest with hobject | hinherits
        · obtain rfl := eq_of_beq hobject
          exact Or.inl ⟨isReference_of_object hsub, hsup, rfl⟩
        · exact Or.inr ⟨hsub, hsup, inherits_iff_reaches.mp hinherits⟩
    · next hsub hsup =>
        obtain rfl := eq_of_beq hrest
        exact Or.inl ⟨isReference_of_array hsub, hsup, rfl⟩
    · cases hrest
  · rintro (⟨href, hsup, rfl⟩ | ⟨hsub, hsup, hreach⟩)
    · by_cases harray : program.sort a = .array
      · simp [harray, hsup]
      · simp [sort_eq_object_of_isReference href harray, hsup]
    · simp [hsub, hsup, inherits_iff_reaches.mpr hreach]

theorem below_of_isSubtypeOutright {depth : Nat}
    (houtright : program.isSubtypeOutright a b = true) :
    program.Below depth a b := by
  rcases isSubtypeOutright_iff.mp houtright with
    rfl | ⟨href, hobject, rfl⟩ | ⟨hsub, hsup, hreach⟩
  · exact .refl depth a
  · exact .object href hobject
  · exact .inherited hsub hsup hreach

/-- The test tries the rules, and that for arrays last. -/
theorem isSubtypeUnder_iff_below {depth : Nat} :
    program.isSubtypeUnder depth a b = true ↔ program.Below depth a b := by
  induction depth generalizing a b with
  | zero =>
      rw [isSubtypeUnder]
      refine ⟨below_of_isSubtypeOutright, fun hbelow => ?_⟩
      rw [isSubtypeOutright_iff]
      cases hbelow with
      | refl => exact Or.inl rfl
      | object htype hobject => exact Or.inr (Or.inl ⟨htype, hobject, rfl⟩)
      | inherited hsub hsup hreach => exact Or.inr (Or.inr ⟨hsub, hsup, hreach⟩)
  | succ depth ih =>
      rw [isSubtypeUnder, Bool.or_eq_true]
      constructor
      · rintro (houtright | harrays)
        · exact below_of_isSubtypeOutright houtright
        · split at harrays
          · next ha hb =>
              split at harrays
              · next x y hx hy =>
                  simp only [Bool.and_eq_true] at harrays
                  obtain ⟨⟨hxref, hyref⟩, hunder⟩ := harrays
                  exact .array ha hb hx hy hxref hyref (ih.mp hunder)
              · cases harrays
          · cases harrays
      · intro hbelow
        rw [isSubtypeOutright_iff]
        cases hbelow with
        | refl => exact Or.inl (Or.inl rfl)
        | object htype hobject =>
            exact Or.inl (Or.inr (Or.inl ⟨htype, hobject, rfl⟩))
        | inherited hsub hsup hreach =>
            exact Or.inl (Or.inr (Or.inr ⟨hsub, hsup, hreach⟩))
        | array ha hb hx hy hxref hyref hbelow =>
            right
            simp [ha, hb, hx, hy, hxref, hyref, ih.mpr hbelow]

/-- Nothing but itself is above the class of objects. -/
theorem Below.eq_object {depth : Nat}
    (hroot : ∀ sup, ¬ program.Extends WellKnown.object sup)
    (hobject : program.sort WellKnown.object = .object)
    (hbelow : program.Below depth WellKnown.object b) : b = WellKnown.object := by
  cases hbelow with
  | refl => rfl
  | object => rfl
  | inherited _ _ hreach =>
      rcases ReflTransGen.cases_head hreach with heq | ⟨next, hnext, _⟩
      · exact heq.symm
      · exact absurd hnext (hroot next)
  | array ha => cases ha.symm.trans hobject

/-- The induction is on the first of the two facts: only the rule for arrays
goes on to other types. -/
theorem Below.trans {depth : Nat}
    (hroot : ∀ sup, ¬ program.Extends WellKnown.object sup)
    (hab : program.Below depth a b) (hbc : program.Below depth b c) :
    program.Below depth a c := by
  induction hab generalizing c with
  | refl => exact hbc
  | object htype hobject =>
      rw [hbc.eq_object hroot hobject]
      exact .object htype hobject
  | inherited hsub hsup hreach =>
      cases hbc with
      | refl => exact .inherited hsub hsup hreach
      | object _ hobject => exact .object (isReference_of_object hsub) hobject
      | inherited _ hlast hrest => exact .inherited hsub hlast (hreach.trans hrest)
      | array hb => cases hb.symm.trans hsup
  | array ha hb hx hy hxref hyref hbelow ih =>
      cases hbc with
      | refl => exact .array ha hb hx hy hxref hyref hbelow
      | object _ hobject => exact .object (isReference_of_array ha) hobject
      | inherited hsub => cases hb.symm.trans hsub
      | array _ hc hy' hz _ hzref hrest =>
          obtain rfl := Option.some.inj (hy.symm.trans hy')
          exact .array ha hc hx hz hxref hzref (ih hrest)

theorem Below.mono {depth deeper : Nat} (hbelow : program.Below depth a b)
    (hle : depth ≤ deeper) : program.Below deeper a b := by
  induction hbelow generalizing deeper with
  | refl _ type => exact .refl deeper type
  | object htype hobject => exact .object htype hobject
  | inherited hsub hsup hreach => exact .inherited hsub hsup hreach
  | array ha hb hx hy hxref hyref _ ih =>
      cases deeper with
      | zero => cases hle
      | succ deeper =>
          exact .array ha hb hx hy hxref hyref (ih (Nat.le_of_succ_le_succ hle))

def Layered (program : Program) : Prop :=
  ∀ type element, program.element? type = some element →
    (program.descriptor type).dimensions =
      (program.descriptor element).dimensions + 1

/-- The rule for arrays is used once for every bracket at most. -/
theorem Below.le_dimensions {depth : Nat} (hlayered : program.Layered)
    (hbelow : program.Below depth a b) :
    program.Below (program.descriptor a).dimensions a b := by
  induction hbelow with
  | refl _ type => exact .refl _ type
  | object htype hobject => exact .object htype hobject
  | inherited hsub hsup hreach => exact .inherited hsub hsup hreach
  | array ha hb hx hy hxref hyref _ ih =>
      rw [hlayered _ _ hx]
      exact .array ha hb hx hy hxref hyref ih

theorem dimensions_le_brackets (program : Program) (type : TypeId) :
    (program.descriptor type).dimensions ≤ program.brackets := by
  have hmax : ∀ (entries : List TypeEntry) (most : Nat),
      most ≤ entries.foldl
        (fun most entry => max most entry.descriptor.dimensions) most ∧
      ∀ entry ∈ entries, entry.descriptor.dimensions ≤ entries.foldl
        (fun most entry => max most entry.descriptor.dimensions) most := by
    intro entries
    induction entries with
    | nil => simp
    | cons entry rest ih =>
        intro most
        obtain ⟨hmost, hrest⟩ := ih (max most entry.descriptor.dimensions)
        refine ⟨Nat.le_trans (Nat.le_max_left _ _) hmost, ?_⟩
        exact List.forall_mem_cons.mpr
          ⟨Nat.le_trans (Nat.le_max_right _ _) hmost, hrest⟩
  rw [descriptor]
  split
  · next entry hentry =>
      exact (hmax _ 0).2 entry
        (Array.mem_toList_iff.mpr (Array.mem_of_getElem? hentry))
  · exact Nat.zero_le _

/-- As many brackets as any type has are enough for every proof that one type
is below another. -/
theorem isSubtype_iff_below (hlayered : program.Layered) :
    program.isSubtype a b = true ↔ ∃ depth, program.Below depth a b := by
  rw [isSubtype, isSubtypeUnder_iff_below]
  constructor
  · exact fun hbelow => ⟨_, hbelow⟩
  · rintro ⟨depth, hbelow⟩
    exact (hbelow.le_dimensions hlayered).mono (program.dimensions_le_brackets a)

theorem isSubtype_refl (program : Program) (a : TypeId) :
    program.isSubtype a a = true :=
  isSubtypeUnder_iff_below.mpr (.refl _ a)

theorem isSubtype_trans (hroot : ∀ sup, ¬ program.Extends WellKnown.object sup)
    (hab : program.isSubtype a b = true) (hbc : program.isSubtype b c = true) :
    program.isSubtype a c = true := by
  rw [isSubtype, isSubtypeUnder_iff_below] at hab hbc ⊢
  exact hab.trans hroot hbc

theorem isSubtype_iff_reaches (ha : program.sort a = .object)
    (hb : program.sort b = .object) (hne : b ≠ WellKnown.object) :
    program.isSubtype a b = true ↔ ReflTransGen program.Extends a b := by
  rw [isSubtype, isSubtypeUnder_iff_below]
  generalize program.brackets = depth
  constructor
  · intro hbelow
    cases hbelow with
    | refl => exact .refl
    | object => exact absurd rfl hne
    | inherited _ _ hreach => exact hreach
    | array harray => cases harray.symm.trans ha
  · exact .inherited ha hb

theorem isSubtype_eq_inherits (ha : program.sort a = .object)
    (hb : program.sort b = .object) (hne : b ≠ WellKnown.object) :
    program.isSubtype a b = program.inherits a b := by
  rw [Bool.eq_iff_iff, isSubtype_iff_reaches ha hb hne, inherits_iff_reaches]

/-- Between classes, subtyping is what a search without a limit finds through
superclasses and interfaces, first in line first or round by round, and such a
search ends.  Over all types it is reflexive, and transitive if objects extend
nothing; and arrays of any depth are compared down to their elements. -/
theorem isSubtype_reaches_and_preorder (program : Program) :
    (∀ a b, program.sort a = .object → program.sort b = .object →
      b ≠ WellKnown.object →
        program.InheritanceSearch b [a] [] (program.isSubtype a b) ∧
        (∃ rounds found, Exhausts program.supertypes rounds [] [a] found ∧
          (program.isSubtype a b = true ↔ b ∈ found)) ∧
        (program.isSubtype a b = true ↔ ReflTransGen program.Extends a b)) ∧
    ((∀ sup, ¬ program.Extends WellKnown.object sup) →
      (∀ a, program.isSubtype a a = true) ∧
      ∀ a b c, program.isSubtype a b = true → program.isSubtype b c = true →
        program.isSubtype a c = true) ∧
    (program.Layered → ∀ a b,
      program.isSubtype a b = true ↔ ∃ depth, program.Below depth a b) := by
  refine ⟨?_, ?_, fun hlayered _ _ => isSubtype_iff_below hlayered⟩
  · intro a b ha hb hne
    have hiff := isSubtype_iff_reaches ha hb hne
    obtain ⟨rounds, hrounds, found, hends⟩ :=
      program.exists_exhausts_supertypes a
    refine ⟨?_, ⟨rounds, found, hends, ?_⟩, hiff⟩
    · rw [isSubtype_eq_inherits ha hb hne]
      exact program.inheritanceSearch a b
    · rw [hiff, ← inherits_iff_reaches, inherits_iff_mem_found hrounds hends]
  · intro hroot
    exact ⟨program.isSubtype_refl, fun a b c => isSubtype_trans hroot⟩

/-- A class `1` of interface `2`, which extends interface `3` and is extended
by it, a class `4` of a superclass `5` without definition, and arrays of
these. -/
def circularInterfaces : Program where
  types := #[
    { descriptor := .plain "Ljava/lang/Object;"
      definition := some { parent := none, traits := {} } },
    { descriptor := .plain "LA;"
      definition := some { parent := some 0, traits := {}, interfaces := [2] } },
    { descriptor := .plain "LI;"
      definition := some { parent := some 0, traits := { isInterface := true }
                           interfaces := [3] } },
    { descriptor := .plain "LJ;"
      definition := some { parent := some 0, traits := { isInterface := true }
                           interfaces := [2] } },
    { descriptor := .plain "LB;"
      definition := some { parent := some 5, traits := {} } },
    { descriptor := .plain "LU;" },
    { descriptor := ⟨2, "LA;"⟩ }, { descriptor := ⟨1, "LA;"⟩ },
    { descriptor := ⟨2, "LJ;"⟩ }, { descriptor := ⟨1, "LJ;"⟩ },
    { descriptor := ⟨1, "Ljava/lang/Object;"⟩ }]
  elements := .ofList [(6, 7), (7, 1), (8, 9), (9, 3), (10, 0)]

theorem circularInterfaces_root (sup : TypeId) :
    ¬ circularInterfaces.Extends WellKnown.object sup := by
  rintro ⟨definition, hdefinition, hextends⟩
  obtain rfl := Option.some.inj hdefinition
  simp at hextends

theorem circularInterfaces_layered : circularInterfaces.Layered := by
  intro type element helement
  have hentries : circularInterfaces.elements.entries =
      [(6, 7), (7, 1), (8, 9), (9, 3), (10, 0)] := rfl
  have hmem := Table.mem_of_find? helement
  rw [hentries] at hmem
  simp only [List.mem_cons, Prod.mk.injEq, List.not_mem_nil, or_false] at hmem
  rcases hmem with ⟨rfl, rfl⟩ | ⟨rfl, rfl⟩ | ⟨rfl, rfl⟩ | ⟨rfl, rfl⟩ |
    ⟨rfl, rfl⟩ <;> rfl

theorem circularInterfaces_isSubtype :
    circularInterfaces.InheritanceSearch 3 [1] []
      (circularInterfaces.isSubtype 1 3) ∧
    (∃ rounds found,
      Exhausts circularInterfaces.supertypes rounds [] [1] found ∧
        (circularInterfaces.isSubtype 1 3 = true ↔ 3 ∈ found)) ∧
    ReflTransGen circularInterfaces.Extends 1 3 ∧
    ¬ ReflTransGen circularInterfaces.Extends 3 5 ∧
    circularInterfaces.isSubtype 6 8 = true ∧
    circularInterfaces.isSubtype 8 10 = true ∧
    circularInterfaces.isSubtype 6 10 = true ∧
    ∃ depth, circularInterfaces.Below depth 6 8 := by
  have hexact := isSubtype_reaches_and_preorder circularInterfaces
  have hdeep : circularInterfaces.isSubtype 6 8 = true := by decide
  have hobjects : circularInterfaces.isSubtype 8 10 = true := by decide
  have hup := hexact.1 1 3 (by decide) (by decide) (by decide)
  have hapart := hexact.1 3 5 (by decide) (by decide) (by decide)
  refine ⟨hup.1, hup.2.1, hup.2.2.mp (by decide), ?_, hdeep, hobjects, ?_, ?_⟩
  · exact fun hreach => absurd (hapart.2.2.mpr hreach) (by decide)
  · exact (hexact.2.1 circularInterfaces_root).2 6 8 10 hdeep hobjects
  · exact (hexact.2.2 circularInterfaces_layered 6 8).mp hdeep

end Program

end FlowFacts
