/-
Substitution in constraints.  Every test is replaced by a constraint in normal
form and the operands are combined anew.  So the result is in normal form
whatever the constraint looked like before, it means what the constraint means
with the replacements read for the tests, and two substitutions in a row are
one, provided that the second keeps complements apart.
-/
import FlowFacts.Inlining.Signature
import FlowFacts.Proofs.ConstraintLaws

namespace FlowFacts

namespace Connective

open Constraint

variable {c : Connective} {x y z : Constraint}
variable {operands others : List Constraint}

/-- Constraints combined from the last to the first. -/
def combineAll (c : Connective) (operands : List Constraint) : Constraint :=
  operands.foldr c.combine c.neutral

theorem combineAll_cons (c : Connective) (x : Constraint)
    (operands : List Constraint) :
    c.combineAll (x :: operands) = c.combine x (c.combineAll operands) :=
  rfl

theorem normal_neutral (c : Connective) : c.neutral.Normal := by
  cases c
  · exact .always
  · exact .never

theorem normal_combineAll (hoperands : ∀ x ∈ operands, x.Normal) :
    (c.combineAll operands).Normal := by
  induction operands with
  | nil => exact c.normal_neutral
  | cons head rest ih =>
      rw [List.forall_mem_cons] at hoperands
      exact normal_combine hoperands.1 (ih hoperands.2)

/-- The order in which constraints are taken up does not matter. -/
theorem foldl_combine_eq (hx : x.Normal)
    (hoperands : ∀ y ∈ operands, y.Normal) :
    operands.foldl c.combine x = c.combine x (c.combineAll operands) := by
  induction operands generalizing x with
  | nil => exact (c.combine_neutral_right x).symm
  | cons head rest ih =>
      rw [List.forall_mem_cons] at hoperands
      rw [List.foldl_cons, ih (normal_combine hx hoperands.1) hoperands.2,
        combine_assoc hx hoperands.1 (normal_combineAll hoperands.2),
        combineAll_cons]

theorem combineAll_append (hoperands : ∀ x ∈ operands, x.Normal)
    (hothers : ∀ x ∈ others, x.Normal) :
    c.combineAll (operands ++ others) =
      c.combine (c.combineAll operands) (c.combineAll others) := by
  induction operands with
  | nil => exact (c.combine_neutral_left _).symm
  | cons head rest ih =>
      rw [List.forall_mem_cons] at hoperands
      rw [List.cons_append, combineAll_cons, combineAll_cons, ih hoperands.2,
        combine_assoc hoperands.1 (normal_combineAll hoperands.2)
          (normal_combineAll hothers)]

/-- A constraint that has been combined already adds nothing. -/
theorem combine_combineAll_of_mem (hoperands : ∀ y ∈ operands, y.Normal)
    (hx : x ∈ operands) :
    c.combine x (c.combineAll operands) = c.combineAll operands := by
  have hnormal := hoperands x hx
  induction operands with
  | nil => cases hx
  | cons head rest ih =>
      rw [List.forall_mem_cons] at hoperands
      have hrest : (c.combineAll rest).Normal := normal_combineAll hoperands.2
      rw [combineAll_cons, ← combine_assoc hnormal hoperands.1 hrest]
      rcases List.mem_cons.mp hx with rfl | hmem
      · rw [combine_self hnormal]
      · rw [combine_comm hnormal hoperands.1,
          combine_assoc hoperands.1 hnormal hrest, ih hoperands.2 hmem]

theorem combine_combineAll_of_subset (hothers : ∀ x ∈ others, x.Normal)
    (hsubset : operands ⊆ others) :
    c.combine (c.combineAll operands) (c.combineAll others) =
      c.combineAll others := by
  induction operands with
  | nil => exact c.combine_neutral_left _
  | cons head rest ih =>
      rw [List.cons_subset] at hsubset
      have hrest : (c.combineAll rest).Normal :=
        normal_combineAll fun x hx => hothers x (hsubset.2 hx)
      rw [combineAll_cons, combine_assoc (hothers head hsubset.1) hrest
        (normal_combineAll hothers), ih hsubset.2,
        combine_combineAll_of_mem hothers hsubset.1]

/-- Only which constraints are combined matters. -/
theorem combineAll_congr (hoperands : ∀ x ∈ operands, x.Normal)
    (hsame : ∀ x, x ∈ operands ↔ x ∈ others) :
    c.combineAll operands = c.combineAll others := by
  have hothers : ∀ x ∈ others, x.Normal :=
    fun x hx => hoperands x ((hsame x).mpr hx)
  calc c.combineAll operands
      = c.combine (c.combineAll others) (c.combineAll operands) :=
        (combine_combineAll_of_subset hoperands fun x => (hsame x).mpr).symm
    _ = c.combine (c.combineAll operands) (c.combineAll others) :=
        combine_comm (normal_combineAll hothers) (normal_combineAll hoperands)
    _ = c.combineAll others :=
        combine_combineAll_of_subset hothers fun x => (hsame x).mp

/-- Two constraints that decide a combination between them decide a larger
one. -/
theorem combineAll_eq_absorbing (hoperands : ∀ z ∈ operands, z.Normal)
    (hx : x ∈ operands) (hy : y ∈ operands)
    (hdecide : c.combine x y = c.absorbing) :
    c.combineAll operands = c.absorbing := by
  have hall : (c.combineAll operands).Normal := normal_combineAll hoperands
  calc c.combineAll operands
      = c.combine x (c.combine y (c.combineAll operands)) := by
        rw [combine_combineAll_of_mem hoperands hy,
          combine_combineAll_of_mem hoperands hx]
    _ = c.combine (c.combine x y) (c.combineAll operands) :=
        (combine_assoc (hoperands x hx) (hoperands y hy) hall).symm
    _ = c.absorbing := by rw [hdecide, combine_absorbing_left]

/-- What a combination asks of a property of its operands. -/
def Holds (c : Connective) (property : Constraint → Prop)
    (operands : List Constraint) : Prop :=
  match c with
  | both => ∀ x ∈ operands, property x
  | either => ∃ x ∈ operands, property x

theorem Holds.imp {property other : Constraint → Prop}
    (himp : ∀ x ∈ operands, property x → other x)
    (hholds : c.Holds property operands) : c.Holds other operands := by
  cases c with
  | both => exact fun x hx => himp x hx (hholds x hx)
  | either =>
      obtain ⟨x, hx, hproperty⟩ := hholds
      exact ⟨x, hx, himp x hx hproperty⟩

theorem holds_congr {property other : Constraint → Prop}
    (hiff : ∀ x ∈ operands, (property x ↔ other x)) :
    c.Holds property operands ↔ c.Holds other operands :=
  ⟨Holds.imp fun x hx => (hiff x hx).mp, Holds.imp fun x hx => (hiff x hx).mpr⟩

theorem holds_map {property : Constraint → Prop}
    {change : Constraint → Constraint} :
    c.Holds property (operands.map change) ↔
      c.Holds (fun x => property (change x)) operands := by
  cases c <;> simp [Holds]

variable {truth : ArgumentTest → Bool}

theorem eval_whole : (c.whole operands).eval truth = true ↔
    c.Holds (fun x => x.eval truth = true) operands := by
  cases c
  · exact evalAll_eq_true
  · exact evalAny_eq_true

theorem tests_combineAll_subset :
    (c.combineAll operands).tests ⊆ testsOfAll operands := by
  induction operands with
  | nil => cases c <;> simp [combineAll, neutral, tests]
  | cons head rest ih =>
      have hcombine : (c.combine head (c.combineAll rest)).tests ⊆
          head.tests ++ (c.combineAll rest).tests := by
        cases c
        · exact tests_meet_subset
        · exact tests_join_subset
      intro t ht
      rw [testsOfAll, List.mem_append]
      exact (List.mem_append.mp (hcombine ht)).imp id (@ih t)

theorem eval_combineAll (hopposed : Opposed truth (testsOfAll operands)) :
    (c.combineAll operands).eval truth = true ↔
      c.Holds (fun x => x.eval truth = true) operands := by
  induction operands with
  | nil => cases c <;> simp [combineAll, neutral, eval, Holds]
  | cons head rest ih =>
      have hrest := ih fun t ht => hopposed t (List.mem_append_right _ ht)
      have hpair : Opposed truth
          (head.tests ++ (c.combineAll rest).tests) := by
        intro t ht
        apply hopposed
        rw [testsOfAll, List.mem_append]
        exact (List.mem_append.mp ht).imp id (@tests_combineAll_subset c rest t)
      cases c with
      | both =>
          rw [combineAll_cons, combine, eval_meet hpair, hrest]
          simp [Holds]
      | either =>
          rw [combineAll_cons, combine, eval_join hpair, hrest]
          simp [Holds]

end Connective

namespace Constraint

open Connective

variable {c : Connective} {x y : Constraint} {operands : List Constraint}
variable {truth other : ArgumentTest → Bool}
variable {change : ArgumentTest → Constraint}

/-- Induction over constraints; both connectives make up one case. -/
@[elab_as_elim]
theorem induct_whole {motive : Constraint → Prop} (always : motive always)
    (never : motive never) (test : ∀ t, motive (test t))
    (whole : ∀ (c : Connective) operands, (∀ x ∈ operands, motive x) →
      motive (c.whole operands)) : ∀ x, motive x
  | .always => always
  | .never => never
  | .test t => test t
  | .all operands =>
      whole both operands fun x _ => induct_whole always never test whole x
  | .any operands =>
      whole either operands fun x _ => induct_whole always never test whole x

theorem tests_whole (c : Connective) (operands : List Constraint) :
    (c.whole operands).tests = testsOfAll operands := by
  cases c <;> rfl

/-- Constraints have no negation: with more tests true they stay true. -/
theorem eval_mono (himp : ∀ t ∈ x.tests, truth t = true → other t = true)
    (htrue : x.eval truth = true) : x.eval other = true := by
  induction x using induct_whole with
  | always => rfl
  | never => cases htrue
  | test t => exact himp t (List.mem_singleton_self t) htrue
  | whole c operands ih =>
      rw [eval_whole] at htrue ⊢
      refine htrue.imp fun y hy => ih y hy ?_
      intro t ht
      apply himp
      rw [tests_whole]
      exact mem_testsOfAll.mpr ⟨y, hy, ht⟩

theorem eval_congr (hsame : ∀ t ∈ x.tests, truth t = other t) :
    x.eval truth = x.eval other := by
  rw [Bool.eq_iff_iff]
  exact ⟨eval_mono fun t ht htrue => hsame t ht ▸ htrue,
    eval_mono fun t ht htrue => (hsame t ht).symm ▸ htrue⟩

theorem substituteAll_eq_foldl (done : Constraint) :
    substituteAll change done operands =
      (operands.map (substitute change)).foldl meet done := by
  induction operands generalizing done with
  | nil => rw [substituteAll, List.map_nil, List.foldl_nil]
  | cons head rest ih => rw [substituteAll, ih, List.map_cons, List.foldl_cons]

theorem substituteAny_eq_foldl (done : Constraint) :
    substituteAny change done operands =
      (operands.map (substitute change)).foldl join done := by
  induction operands generalizing done with
  | nil => rw [substituteAny, List.map_nil, List.foldl_nil]
  | cons head rest ih => rw [substituteAny, ih, List.map_cons, List.foldl_cons]

theorem substitute_whole_eq_foldl (change : ArgumentTest → Constraint)
    (c : Connective) (operands : List Constraint) :
    (c.whole operands).substitute change =
      (operands.map (substitute change)).foldl c.combine c.neutral := by
  cases c
  · rw [whole, substitute, substituteAll_eq_foldl, combine, neutral]
  · rw [whole, substitute, substituteAny_eq_foldl, combine, neutral]

/-- A substitution brings any constraint into normal form. -/
theorem normal_substitute (hchange : ∀ t, (change t).Normal) (x : Constraint) :
    (x.substitute change).Normal := by
  induction x using induct_whole with
  | always => exact .always
  | never => exact .never
  | test t => exact hchange t
  | whole c operands ih =>
      have hoperands : ∀ x ∈ operands.map (substitute change), x.Normal :=
        List.forall_mem_map.mpr ih
      rw [substitute_whole_eq_foldl,
        foldl_combine_eq c.normal_neutral hoperands]
      exact normal_combine c.normal_neutral (normal_combineAll hoperands)

theorem normal_of_mem_map_substitute (hchange : ∀ t, (change t).Normal) :
    ∀ x ∈ operands.map (substitute change), x.Normal :=
  List.forall_mem_map.mpr fun x _ => normal_substitute hchange x

theorem substitute_whole (hchange : ∀ t, (change t).Normal) :
    (c.whole operands).substitute change =
      c.combineAll (operands.map (substitute change)) := by
  rw [substitute_whole_eq_foldl, foldl_combine_eq c.normal_neutral
    (normal_of_mem_map_substitute hchange), combine_neutral_left]

/-- Tests come from the replacements of tests. -/
theorem exists_of_mem_tests_substitute (hchange : ∀ t, (change t).Normal)
    {u : ArgumentTest} (hu : u ∈ (x.substitute change).tests) :
    ∃ t ∈ x.tests, u ∈ (change t).tests := by
  induction x using induct_whole with
  | always | never => cases hu
  | test t => exact ⟨t, List.mem_singleton_self t, hu⟩
  | whole c operands ih =>
      rw [substitute_whole hchange] at hu
      obtain ⟨_, hmem, hu⟩ := mem_testsOfAll.mp (tests_combineAll_subset hu)
      obtain ⟨y, hy, rfl⟩ := List.mem_map.mp hmem
      obtain ⟨t, ht, hu⟩ := ih y hy hu
      exact ⟨t, tests_whole c operands ▸ mem_testsOfAll.mpr ⟨y, hy, ht⟩, hu⟩

/-- After a substitution, tests are read as their replacements. -/
theorem eval_substitute (hchange : ∀ t, (change t).Normal)
    (hopposed : ∀ t ∈ x.tests, Opposed truth (change t).tests) :
    (x.substitute change).eval truth =
      x.eval fun t => (change t).eval truth := by
  rw [Bool.eq_iff_iff]
  induction x using induct_whole with
  | always | never => rfl
  | test t => rfl
  | whole c operands ih =>
      have hoperand : ∀ x ∈ operands, ∀ t ∈ x.tests,
          Opposed truth (change t).tests := by
        intro x hx t ht
        apply hopposed
        rw [tests_whole]
        exact mem_testsOfAll.mpr ⟨x, hx, ht⟩
      have hreplaced : Opposed truth
          (testsOfAll (operands.map (substitute change))) := by
        intro u hu
        obtain ⟨_, hmem, hu⟩ := mem_testsOfAll.mp hu
        obtain ⟨x, hx, rfl⟩ := List.mem_map.mp hmem
        obtain ⟨t, ht, hu⟩ := exists_of_mem_tests_substitute hchange hu
        exact hoperand x hx t ht u hu
      rw [substitute_whole hchange, eval_combineAll hreplaced, holds_map,
        eval_whole]
      exact holds_congr fun x hx => ih x hx (hoperand x hx)

/-- A test and its complement are replaced by constraints of which one holds
always and both never do. -/
def KeepsComplements (change : ArgumentTest → Constraint) : Prop :=
  ∀ (c : Connective) (t : ArgumentTest),
    c.combine (change t) (change t.complement) = c.absorbing

theorem substitute_neutral (change : ArgumentTest → Constraint)
    (c : Connective) : c.neutral.substitute change = c.neutral := by
  cases c <;> rfl

theorem substitute_absorbing (change : ArgumentTest → Constraint)
    (c : Connective) : c.absorbing.substitute change = c.absorbing := by
  cases c <;> rfl

/-- Substituting in a combination is combining what the operands become, even
where operands cancel each other. -/
theorem substitute_total (hchange : ∀ t, (change t).Normal)
    (hkeeps : KeepsComplements change) (operands : List Constraint) :
    (c.total operands).substitute change =
      c.combineAll (operands.map (substitute change)) := by
  cases hcontra : hasContradiction operands with
  | true =>
      obtain ⟨t, ht, hcomplement⟩ := hasContradiction_eq_true.mp hcontra
      rw [total_eq_absorbing hcontra, substitute_absorbing]
      symm
      exact combineAll_eq_absorbing (normal_of_mem_map_substitute hchange)
        (List.mem_map_of_mem ht) (List.mem_map_of_mem hcomplement) (hkeeps c t)
  | false =>
      have hordered : c.combineAll (operands.map (substitute change)) =
          c.combineAll ((ordered operands).map (substitute change)) :=
        combineAll_congr (normal_of_mem_map_substitute hchange) (by simp)
      rw [hordered]
      obtain ⟨hnone, htotal⟩ | ⟨single, hsingle, htotal⟩ | ⟨_, htotal⟩ :=
        total_cases (c := c) hcontra
      · rw [htotal, hnone, substitute_neutral]
        rfl
      · rw [htotal, hsingle]
        exact (c.combine_neutral_right _).symm
      · rw [htotal, substitute_whole hchange]

theorem substitute_combine (hchange : ∀ t, (change t).Normal)
    (hkeeps : KeepsComplements change) (hx : x.Normal) (hy : y.Normal) :
    (c.combine x y).substitute change =
      c.combine (x.substitute change) (y.substitute change) := by
  by_cases hx' : x = c.absorbing
  · rw [hx', combine_absorbing_left, substitute_absorbing,
      combine_absorbing_left]
  by_cases hy' : y = c.absorbing
  · rw [hy', combine_absorbing_right, substitute_absorbing,
      combine_absorbing_right]
  rw [combine_eq_total hx hx' hy hy', substitute_total hchange hkeeps,
    List.map_append, combineAll_append (normal_of_mem_map_substitute hchange)
      (normal_of_mem_map_substitute hchange), ← substitute_total hchange hkeeps,
    ← substitute_total hchange hkeeps, total_terms hx hx', total_terms hy hy']

theorem substitute_combineAll (hchange : ∀ t, (change t).Normal)
    (hkeeps : KeepsComplements change)
    (hoperands : ∀ x ∈ operands, x.Normal) :
    (c.combineAll operands).substitute change =
      c.combineAll (operands.map (substitute change)) := by
  induction operands with
  | nil => exact substitute_neutral change c
  | cons head rest ih =>
      rw [List.forall_mem_cons] at hoperands
      rw [combineAll_cons, substitute_combine hchange hkeeps hoperands.1
        (normal_combineAll hoperands.2), ih hoperands.2, List.map_cons,
        combineAll_cons]

/-- Two substitutions in a row are one, for any constraint. -/
theorem substitute_substitute {next : ArgumentTest → Constraint}
    (hchange : ∀ t, (change t).Normal) (hnext : ∀ t, (next t).Normal)
    (hkeeps : KeepsComplements next) (x : Constraint) :
    (x.substitute change).substitute next =
      x.substitute fun t => (change t).substitute next := by
  induction x using induct_whole with
  | always | never => rfl
  | test t => rfl
  | whole c operands ih =>
      have hboth : ∀ t, ((change t).substitute next).Normal :=
        fun t => normal_substitute hnext (change t)
      rw [substitute_whole hchange, substitute_combineAll hnext hkeeps
        (normal_of_mem_map_substitute hchange), substitute_whole hboth,
        List.map_map]
      exact congrArg c.combineAll (List.map_congr_left ih)

end Constraint

end FlowFacts
