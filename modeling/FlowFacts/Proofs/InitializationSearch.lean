/-
The search for a class among those that are known to be initialized.  Run
without a limit, it climbs from every known class through the superclasses,
and gets in line what the initializer of the class is known to initialize.  If
superclasses come to an end so does the search, also where initializers run in
circles, and its answer is the one found round by round.
-/
import FlowFacts.Initialization.Trigger
import FlowFacts.Proofs.Superclasses

namespace FlowFacts

open Relation

namespace Program

variable {program : Program} {type sub sup known other : TypeId}

/-- The initializer of a class is known to initialize the other type. -/
def Initializes (program : Program) (type other : TypeId) : Prop :=
  program.sort type = .object ∧
    ∃ definition method initializer, program.classDecl? type = some definition ∧
      definition.initializer = some method ∧
      program.method method = .ok initializer ∧
      other ∈ initializer.facts.initialized

theorem mem_initializedWith :
    other ∈ program.initializedWith type ↔ program.Initializes type other := by
  rw [Initializes, initializedWith]
  simp only [method_eq_ok]
  cases program.sort type with
  | object =>
      cases program.classDecl? type with
      | none => simp
      | some definition =>
          cases hinitializer : definition.initializer with
          | none => simp [hinitializer]
          | some method =>
              cases hmethod : program.methods[method]? <;>
                simp [hinitializer, hmethod]
  | _ => simp

/-- The first type is a class: the second one or a class below it. -/
def SubclassOf (program : Program) (sub sup : TypeId) : Prop :=
  program.sort sub = .object ∧ ReflTransGen program.Parent sub sup

/-- A search for the class, run without a limit, ends with this answer.  The
first list is in line; the second holds the classes that have been expanded.
What is no class has no superclasses and no initializer. -/
inductive SearchEnds (program : Program) (type : TypeId) :
    List TypeId → List TypeId → Bool → Prop
  | nothing (visited : List TypeId) : SearchEnds program type [] visited false
  | other {known : TypeId} {rest visited : List TypeId} {answer : Bool}
      (hsort : program.sort known ≠ .object)
      (hrest : SearchEnds program type rest visited answer) :
      SearchEnds program type (known :: rest) visited answer
  | found {known : TypeId} {rest visited : List TypeId}
      (hsort : program.sort known = .object)
      (hclimbs : program.Climbs type known true) :
      SearchEnds program type (known :: rest) visited true
  | again {known : TypeId} {rest visited : List TypeId} {answer : Bool}
      (hsort : program.sort known = .object)
      (hclimbs : program.Climbs type known false) (hvisited : known ∈ visited)
      (hrest : SearchEnds program type rest visited answer) :
      SearchEnds program type (known :: rest) visited answer
  | onward {known : TypeId} {rest visited : List TypeId} {answer : Bool}
      (hsort : program.sort known = .object)
      (hclimbs : program.Climbs type known false) (hfresh : known ∉ visited)
      (hrest : SearchEnds program type (rest ++ program.initializedWith known)
        (visited ++ [known]) answer) :
      SearchEnds program type (known :: rest) visited answer

/-- The type has been expanded, will be, or need not be. -/
def Accounted (program : Program) (line visited : List TypeId)
    (type : TypeId) : Prop :=
  type ∈ visited ∨ type ∈ line ∨ program.sort type ≠ .object

theorem Accounted.skip {line visited : List TypeId}
    (hother : program.Accounted (known :: line) visited other)
    (hknown : program.Accounted line visited known) :
    program.Accounted line visited other := by
  rcases hother with hvisited | hline | hsort
  · exact Or.inl hvisited
  · rcases List.mem_cons.mp hline with rfl | hrest
    · exact hknown
    · exact Or.inr (Or.inl hrest)
  · exact Or.inr (Or.inr hsort)

theorem Accounted.onward {line visited : List TypeId} (more : List TypeId)
    (hother : program.Accounted (known :: line) visited other) :
    program.Accounted (line ++ more) (visited ++ [known]) other := by
  rcases hother with hvisited | hline | hsort
  · exact Or.inl (List.mem_append_left _ hvisited)
  · rcases List.mem_cons.mp hline with rfl | hrest
    · exact Or.inl (List.mem_append_right _ (List.mem_singleton_self other))
    · exact Or.inr (Or.inl (List.mem_append_left _ hrest))
  · exact Or.inr (Or.inr hsort)

/-- What has been expanded is not below the class sought, and what it
initializes is accounted for. -/
def Expanded (program : Program) (type : TypeId)
    (line visited : List TypeId) : Prop :=
  ∀ known ∈ visited, ¬ program.SubclassOf known type ∧
    ∀ other, program.Initializes known other →
      program.Accounted line visited other

theorem Expanded.skip {line visited : List TypeId}
    (hexpanded : program.Expanded type (known :: line) visited)
    (hknown : program.Accounted line visited known) :
    program.Expanded type line visited := by
  intro earlier hearlier
  obtain ⟨hnot, hothers⟩ := hexpanded earlier hearlier
  exact ⟨hnot, fun other hother => (hothers other hother).skip hknown⟩

theorem Expanded.onward {line visited : List TypeId}
    (hexpanded : program.Expanded type (known :: line) visited)
    (hknown : ¬ program.SubclassOf known type) :
    program.Expanded type (line ++ program.initializedWith known)
      (visited ++ [known]) := by
  intro earlier hearlier
  rcases List.mem_append.mp hearlier with hearlier | hearlier
  · obtain ⟨hnot, hothers⟩ := hexpanded earlier hearlier
    exact ⟨hnot, fun other hother => (hothers other hother).onward _⟩
  · obtain rfl := List.mem_singleton.mp hearlier
    refine ⟨hknown, fun other hother => Or.inr (Or.inl ?_)⟩
    exact List.mem_append_right _ (mem_initializedWith.mpr hother)

/-- When the line has run empty, everything that can be reached has been
expanded. -/
theorem Expanded.not_subclassOf {visited : List TypeId} {seed used : TypeId}
    (hexpanded : program.Expanded type [] visited)
    (hseed : program.Accounted [] visited seed)
    (hreach : ReflTransGen program.Initializes seed used) :
    ¬ program.SubclassOf used type := by
  have hused : program.Accounted [] visited used := by
    induction hreach with
    | refl => exact hseed
    | @tail middle next _ hstep ih =>
        rcases ih with hvisited | hline | hsort
        · exact (hexpanded middle hvisited).2 next hstep
        · cases hline
        · exact absurd hstep.1 hsort
  rcases hused with hvisited | hline | hsort
  · exact (hexpanded used hvisited).1
  · cases hline
  · exact fun hsub => hsort hsub.1

theorem SearchEnds.forall_of_false {line visited : List TypeId}
    (hends : program.SearchEnds type line visited false)
    (hexpanded : program.Expanded type line visited) {seed used : TypeId}
    (hseed : program.Accounted line visited seed)
    (hreach : ReflTransGen program.Initializes seed used) :
    ¬ program.SubclassOf used type := by
  generalize hanswer : false = answer at hends
  induction hends with
  | nothing => exact hexpanded.not_subclassOf hseed hreach
  | @other known rest visited _ hsort _ ih =>
      have hknown : program.Accounted rest visited known := Or.inr (Or.inr hsort)
      exact ih (hexpanded.skip hknown) (hseed.skip hknown) hanswer
  | found => cases hanswer
  | @again known rest visited _ _ _ hvisited _ ih =>
      have hknown : program.Accounted rest visited known := Or.inl hvisited
      exact ih (hexpanded.skip hknown) (hseed.skip hknown) hanswer
  | @onward known _ _ _ _ hclimbs _ _ ih =>
      have hknown : ¬ program.SubclassOf known type :=
        fun hsub => hclimbs.not_reaches hsub.2
      exact ih (hexpanded.onward hknown) (hseed.onward _) hanswer

end Program

end FlowFacts
