/-
What constraints on arguments mean.  Sorting, dropping repetitions and
cancelling a test against its complement leave the meaning alone, for every
reading of the tests that makes complements opposite.
-/
import Mathlib.Data.List.Basic
import FlowFacts.Inlining.Constraint

namespace FlowFacts

theorem Predicate.eq_of_compare {a b : Predicate} (heq : a.compare b = .eq) :
    a = b := by
  rw [Predicate.compare, Ordering.then_eq_eq] at heq
  have hrank := Std.LawfulEqCmp.eq_of_compare heq.1
  have hoperand := Std.LawfulEqCmp.eq_of_compare heq.2
  cases a <;> cases b <;> simp_all [Predicate.rank, Predicate.operand]

theorem ArgumentTest.eq_of_compare {a b : ArgumentTest}
    (heq : a.compare b = .eq) : a = b := by
  rw [ArgumentTest.compare, Ordering.then_eq_eq] at heq
  have hindex := Std.LawfulEqCmp.eq_of_compare heq.1
  have hpredicate := Predicate.eq_of_compare heq.2
  cases a
  cases b
  simp_all

namespace Constraint

mutual

theorem eq_of_compare {a b : Constraint} (heq : compare a b = .eq) : a = b := by
  cases a <;> cases b <;>
    simp [compare, rank, Std.LawfulEqCmp.compare_eq_iff_eq] at heq ⊢
  case test.test t u => exact ArgumentTest.eq_of_compare heq
  case all.all as bs => exact eq_of_compareLists heq
  case any.any as bs => exact eq_of_compareLists heq

theorem eq_of_compareLists {as bs : List Constraint}
    (heq : compareLists as bs = .eq) : as = bs := by
  cases as with
  | nil =>
      cases bs with
      | nil => rfl
      | cons b bs => simp [compareLists] at heq
  | cons a as =>
      cases bs with
      | nil => simp [compareLists] at heq
      | cons b bs =>
          rw [compareLists, Ordering.then_eq_eq] at heq
          rw [eq_of_compare heq.1, eq_of_compareLists heq.2]

end

theorem mem_insertOperand {operand other : Constraint}
    {operands : List Constraint} :
    other ∈ insertOperand operand operands ↔
      other = operand ∨ other ∈ operands := by
  induction operands with
  | nil => simp [insertOperand]
  | cons head rest ih =>
      rw [insertOperand]
      cases hcompare : compare operand head with
      | lt => simp
      | eq =>
          rw [eq_of_compare hcompare]
          simp
      | gt =>
          simp only [List.mem_cons, ih]
          tauto

@[simp] theorem mem_ordered {operand : Constraint}
    {operands : List Constraint} :
    operand ∈ ordered operands ↔ operand ∈ operands := by
  have hfold : ∀ sorted, operand ∈ operands.foldl
      (fun sorted operand => insertOperand operand sorted) sorted ↔
      operand ∈ sorted ∨ operand ∈ operands := by
    induction operands with
    | nil => simp
    | cons head rest ih =>
        intro sorted
        rw [List.foldl_cons, ih, mem_insertOperand, List.mem_cons]
        tauto
  simpa [ordered] using hfold []

variable {truth : ArgumentTest → Bool} {a b : Constraint}
  {operands : List Constraint}

theorem evalAll_eq_true :
    evalAll truth operands = true ↔
      ∀ operand ∈ operands, operand.eval truth = true := by
  induction operands with
  | nil => simp [evalAll]
  | cons head rest ih => simp [evalAll, ih]

theorem evalAny_eq_true :
    evalAny truth operands = true ↔
      ∃ operand ∈ operands, operand.eval truth = true := by
  induction operands with
  | nil => simp [evalAny]
  | cons head rest ih => simp [evalAny, ih]

mutual

def tests : Constraint → List ArgumentTest
  | always => []
  | never => []
  | test t => [t]
  | all operands => testsOfAll operands
  | any operands => testsOfAll operands

def testsOfAll : List Constraint → List ArgumentTest
  | [] => []
  | operand :: rest => operand.tests ++ testsOfAll rest

end

theorem mem_testsOfAll {t : ArgumentTest} : t ∈ testsOfAll operands ↔
    ∃ operand ∈ operands, t ∈ operand.tests := by
  induction operands with
  | nil => simp [testsOfAll]
  | cons head rest ih => simp [testsOfAll, ih]

theorem hasContradiction_eq_true : hasContradiction operands = true ↔
    ∃ t, test t ∈ operands ∧ test t.complement ∈ operands := by
  have hisTest : ∀ {wanted : ArgumentTest} {operand : Constraint},
      operand.isTest wanted = true ↔ operand = test wanted := by
    intro wanted operand
    cases operand <;> simp [isTest]
  simp only [hasContradiction, List.any_eq_true]
  constructor
  · rintro ⟨operand, hmem, hcontra⟩
    cases operand with
    | test t =>
        obtain ⟨other, hother, heq⟩ := List.any_eq_true.mp hcontra
        exact ⟨t, hmem, hisTest.mp heq ▸ hother⟩
    | _ => simp at hcontra
  · rintro ⟨t, hmem, hcomplement⟩
    exact ⟨test t, hmem, List.any_eq_true.mpr
      ⟨_, hcomplement, hisTest.mpr rfl⟩⟩

/-- Complements of these tests are read as opposites. -/
def Opposed (truth : ArgumentTest → Bool) (tests : List ArgumentTest) : Prop :=
  ∀ t ∈ tests, truth t.complement = !truth t

theorem eval_conjunction (hopposed : Opposed truth (testsOfAll operands)) :
    (conjunction operands).eval truth = true ↔
      ∀ operand ∈ operands, operand.eval truth = true := by
  have hall : ∀ {sorted}, ordered operands = sorted →
      ((all sorted).eval truth = true ↔
        ∀ operand ∈ operands, operand.eval truth = true) := by
    rintro _ rfl
    simp [eval, evalAll_eq_true]
  simp only [conjunction]
  split
  · next hcontra =>
      obtain ⟨t, hmem, hcomplement⟩ := hasContradiction_eq_true.mp hcontra
      rw [mem_ordered] at hmem hcomplement
      have hopposite := hopposed t
        (mem_testsOfAll.mpr ⟨_, hmem, by simp [tests]⟩)
      constructor
      · simp [eval]
      · intro hevery
        have ht := hevery _ hmem
        have hc := hevery _ hcomplement
        simp [eval, hopposite] at ht hc
        simp [ht] at hc
  · split
    · next single hsingle =>
        rw [← hall hsingle]
        simp [eval, evalAll]
    · exact hall rfl

theorem eval_disjunction (hopposed : Opposed truth (testsOfAll operands)) :
    (disjunction operands).eval truth = true ↔
      ∃ operand ∈ operands, operand.eval truth = true := by
  have hany : ∀ {sorted}, ordered operands = sorted →
      ((any sorted).eval truth = true ↔
        ∃ operand ∈ operands, operand.eval truth = true) := by
    rintro _ rfl
    simp [eval, evalAny_eq_true]
  simp only [disjunction]
  split
  · next hcontra =>
      obtain ⟨t, hmem, hcomplement⟩ := hasContradiction_eq_true.mp hcontra
      rw [mem_ordered] at hmem hcomplement
      have hopposite := hopposed t
        (mem_testsOfAll.mpr ⟨_, hmem, by simp [tests]⟩)
      constructor
      · intro _
        cases ht : truth t with
        | true => exact ⟨_, hmem, by simpa [eval] using ht⟩
        | false => exact ⟨_, hcomplement, by simp [eval, hopposite, ht]⟩
      · simp [eval]
  · split
    · next single hsingle =>
        rw [← hany hsingle]
        simp [eval, evalAny]
    · exact hany rfl

theorem forall_conjuncts : (∀ operand ∈ a.conjuncts,
    operand.eval truth = true) ↔ a.eval truth = true := by
  cases a <;> simp [conjuncts, eval, evalAll_eq_true]

theorem exists_disjuncts : (∃ operand ∈ a.disjuncts,
    operand.eval truth = true) ↔ a.eval truth = true := by
  cases a <;> simp [disjuncts, eval, evalAny_eq_true]

theorem testsOfAll_append (left right : List Constraint) :
    testsOfAll (left ++ right) = testsOfAll left ++ testsOfAll right := by
  induction left with
  | nil => simp [testsOfAll]
  | cons head rest ih => simp [testsOfAll, ih]

theorem testsOfAll_conjuncts (a b : Constraint) :
    testsOfAll (a.conjuncts ++ b.conjuncts) = a.tests ++ b.tests := by
  rw [testsOfAll_append]
  cases a <;> cases b <;> simp [conjuncts, testsOfAll, tests]

theorem testsOfAll_disjuncts (a b : Constraint) :
    testsOfAll (a.disjuncts ++ b.disjuncts) = a.tests ++ b.tests := by
  rw [testsOfAll_append]
  cases a <;> cases b <;> simp [disjuncts, testsOfAll, tests]

theorem eval_meet (hopposed : Opposed truth (a.tests ++ b.tests)) :
    (a.meet b).eval truth = true ↔
      a.eval truth = true ∧ b.eval truth = true := by
  fun_cases meet a b with
  | case5 =>
      rw [← testsOfAll_conjuncts] at hopposed
      rw [eval_conjunction hopposed, ← forall_conjuncts, ← forall_conjuncts]
      simp only [List.mem_append, or_imp, forall_and]
  | _ => simp [eval]

theorem eval_join (hopposed : Opposed truth (a.tests ++ b.tests)) :
    (a.join b).eval truth = true ↔
      a.eval truth = true ∨ b.eval truth = true := by
  fun_cases join a b with
  | case5 =>
      rw [← testsOfAll_disjuncts] at hopposed
      rw [eval_disjunction hopposed, ← exists_disjuncts, ← exists_disjuncts]
      simp only [List.mem_append, or_and_right, exists_or]
  | _ => simp [eval]

theorem testsOfAll_ordered_subset :
    testsOfAll (ordered operands) ⊆ testsOfAll operands := by
  intro t ht
  simpa [mem_testsOfAll] using ht

theorem tests_meet_subset : (a.meet b).tests ⊆ a.tests ++ b.tests := by
  fun_cases meet a b with
  | case5 =>
      rw [← testsOfAll_conjuncts]
      refine List.Subset.trans ?_ testsOfAll_ordered_subset
      simp only [conjunction]
      split
      · simp [tests]
      · split
        · next single hsingle => simp [hsingle, testsOfAll]
        · exact List.Subset.refl _
  | _ => simp [tests]

theorem tests_join_subset : (a.join b).tests ⊆ a.tests ++ b.tests := by
  fun_cases join a b with
  | case5 =>
      rw [← testsOfAll_disjuncts]
      refine List.Subset.trans ?_ testsOfAll_ordered_subset
      simp only [disjunction]
      split
      · simp [tests]
      · split
        · next single hsingle => simp [hsingle, testsOfAll]
        · exact List.Subset.refl _
  | _ => simp [tests]

end Constraint

/-- Read over numbers, complements are opposites; tests for truth values need
an argument that is one. -/
theorem Constraint.opposed_of_truthValues {assignment : Nat → Int}
    {tests : List ArgumentTest}
    (hvalues : ∀ t ∈ tests, t.predicate = .isTrue ∨ t.predicate = .isFalse →
      assignment t.index = 0 ∨ assignment t.index = 1) :
    Opposed (fun t => t.predicate.admits (assignment t.index)) tests := by
  rintro ⟨index, predicate⟩ ht
  have hvalue := hvalues _ ht
  cases predicate with
  | isTrue =>
      rcases hvalue (Or.inl rfl) with h | h <;>
        simp [ArgumentTest.complement, Predicate.complement, Predicate.admits,
          show assignment index = _ from h]
  | isFalse =>
      rcases hvalue (Or.inr rfl) with h | h <;>
        simp [ArgumentTest.complement, Predicate.complement, Predicate.admits,
          show assignment index = _ from h]
  | _ =>
      simp [ArgumentTest.complement, Predicate.complement, Predicate.admits,
        bne]

/-- Over numbers, both constraints hold where their conjunction does, and one
of them where their disjunction does. -/
theorem Constraint.satisfiedBy_meet_and_join {a b : Constraint}
    {assignment : Nat → Int}
    (hvalues : ∀ t ∈ a.tests ++ b.tests,
      t.predicate = .isTrue ∨ t.predicate = .isFalse →
        assignment t.index = 0 ∨ assignment t.index = 1) :
    ((a.meet b).satisfiedBy assignment = true ↔
      a.satisfiedBy assignment = true ∧ b.satisfiedBy assignment = true) ∧
    ((a.join b).satisfiedBy assignment = true ↔
      a.satisfiedBy assignment = true ∨ b.satisfiedBy assignment = true) := by
  have hopposed := opposed_of_truthValues hvalues
  exact ⟨eval_meet hopposed, eval_join hopposed⟩

/-- Two constraints as they are not built by conjunction and disjunction: one
is true, and together they contain a test and its complement. -/
theorem Constraint.literalTests_satisfiedBy :
    (∀ t ∈ (any [test ⟨0, .isTrue⟩, all []]).tests ++
        (any [test ⟨0, .isFalse⟩, any []]).tests,
      t.predicate = .isTrue ∨ t.predicate = .isFalse →
        (1 : Int) = 0 ∨ (1 : Int) = 1) ∧
    (((any [test ⟨0, .isTrue⟩, all []]).meet
          (any [test ⟨0, .isFalse⟩, any []])).satisfiedBy (fun _ => 1) = true ↔
      (any [test ⟨0, .isTrue⟩, all []]).satisfiedBy (fun _ => 1) = true ∧
        (any [test ⟨0, .isFalse⟩, any []]).satisfiedBy (fun _ => 1) = true) ∧
    (((any [test ⟨0, .isTrue⟩, all []]).join
          (any [test ⟨0, .isFalse⟩, any []])).satisfiedBy (fun _ => 1) = true ↔
      (any [test ⟨0, .isTrue⟩, all []]).satisfiedBy (fun _ => 1) = true ∨
        (any [test ⟨0, .isFalse⟩, any []]).satisfiedBy (fun _ => 1) = true) :=
  ⟨fun _ _ _ => Or.inr rfl,
    satisfiedBy_meet_and_join fun _ _ _ => Or.inr rfl⟩

end FlowFacts
