/-
Constraints after a change of the signature.  Removing arguments numbers the
kept ones anew, without gaps, and what the rewritten constraint accepts the
constraint accepted before.  Unboxing arguments leaves the meaning alone, and
unboxing some arguments after others is unboxing all of them at once.
-/
import Mathlib.Data.List.Nodup
import Mathlib.Order.Monotone.Basic
import FlowFacts.Proofs.Substitution

namespace FlowFacts

namespace Removals

variable {removals : Removals} {index : Nat}

def Kept (removals : Removals) (index : Nat) : Prop :=
  removals.find? index = none

/-- The number of arguments that are removed in front of an argument. -/
def removedBefore (removals : Removals) (index : Nat) : Nat :=
  (removals.entries.filter fun entry => entry.1 < index).length

theorem kept_iff : removals.Kept index ↔
    index ∉ removals.entries.map Prod.fst := by
  constructor
  · intro hkept hmem
    obtain ⟨⟨_, value⟩, hentry, rfl⟩ := List.mem_map.mp hmem
    rw [Kept, Table.find?_of_mem hentry] at hkept
    cases hkept
  · intro hnone
    cases hfound : removals.find? index with
    | none => exact hfound
    | some value =>
        exact absurd (List.mem_map_of_mem (Table.mem_of_find? hfound)) hnone

theorem removedBefore_eq_countP (removals : Removals) (index : Nat) :
    removals.removedBefore index =
      (removals.entries.map Prod.fst).countP (· < index) := by
  rw [removedBefore, List.countP_map, List.countP_eq_length_filter]
  rfl

theorem countP_lt_succ (keys : List Nat) (index : Nat) :
    keys.countP (· < index + 1) =
      keys.countP (· < index) + keys.count index := by
  induction keys with
  | nil => rfl
  | cons head rest ih =>
      have hhead : (if head < index + 1 then 1 else 0) =
          (if head < index then 1 else 0) + if head = index then 1 else 0 := by
        split <;> split <;> split <;> omega
      simp only [List.countP_cons, List.count_cons, decide_eq_true_eq,
        beq_iff_eq, ih, hhead]
      omega

theorem removedBefore_succ_of_kept (hkept : removals.Kept index) :
    removals.removedBefore (index + 1) = removals.removedBefore index := by
  rw [removedBefore_eq_countP, removedBefore_eq_countP, countP_lt_succ,
    List.count_eq_zero_of_not_mem (kept_iff.mp hkept), Nat.add_zero]

theorem removedBefore_succ_of_not_kept (hremoved : ¬ removals.Kept index) :
    removals.removedBefore (index + 1) = removals.removedBefore index + 1 := by
  have hnodup : (removals.entries.map Prod.fst).Nodup := by
    rw [List.Nodup, List.pairwise_map]
    exact removals.ascending.imp Nat.ne_of_lt
  rw [kept_iff, not_not] at hremoved
  rw [removedBefore_eq_countP, removedBefore_eq_countP, countP_lt_succ,
    List.count_eq_one_of_mem hnodup hremoved]

theorem removedBefore_le (removals : Removals) (index : Nat) :
    removals.removedBefore index ≤ index := by
  induction index with
  | zero => simp [removedBefore]
  | succ index ih =>
      by_cases hkept : removals.Kept index
      · rw [removedBefore_succ_of_kept hkept]
        omega
      · rw [removedBefore_succ_of_not_kept hkept]
        omega

/-- As many arguments are left in front of an argument as are not removed. -/
theorem shifted_add_removedBefore (removals : Removals) (index : Nat) :
    removals.shifted index + removals.removedBefore index = index :=
  Nat.sub_add_cancel (removals.removedBefore_le index)

theorem shifted_succ_of_kept (hkept : removals.Kept index) :
    removals.shifted (index + 1) = removals.shifted index + 1 := by
  have hindex := removals.shifted_add_removedBefore index
  have hnext := removals.shifted_add_removedBefore (index + 1)
  rw [removedBefore_succ_of_kept hkept] at hnext
  omega

theorem shifted_succ_of_not_kept (hremoved : ¬ removals.Kept index) :
    removals.shifted (index + 1) = removals.shifted index := by
  have hindex := removals.shifted_add_removedBefore index
  have hnext := removals.shifted_add_removedBefore (index + 1)
  rw [removedBefore_succ_of_not_kept hremoved] at hnext
  omega

theorem shifted_mono (removals : Removals) : Monotone removals.shifted := by
  apply monotone_nat_of_le_succ
  intro index
  by_cases hkept : removals.Kept index
  · rw [shifted_succ_of_kept hkept]
    omega
  · rw [shifted_succ_of_not_kept hkept]

/-- Kept arguments stay in order. -/
theorem shifted_lt_shifted {later : Nat} (hkept : removals.Kept index)
    (hlt : index < later) : removals.shifted index < removals.shifted later := by
  calc removals.shifted index
      < removals.shifted (index + 1) := by
        rw [shifted_succ_of_kept hkept]
        exact Nat.lt_succ_self _
    _ ≤ removals.shifted later := removals.shifted_mono hlt

/-- The kept ones among the first arguments get the first places. -/
theorem lt_shifted_iff {arity place : Nat} : place < removals.shifted arity ↔
    ∃ index < arity, removals.Kept index ∧ removals.shifted index = place := by
  constructor
  · intro hplace
    induction arity with
    | zero => simp [shifted] at hplace
    | succ arity ih =>
        by_cases hearlier : place < removals.shifted arity
        · obtain ⟨index, hlt, hindex⟩ := ih hearlier
          exact ⟨index, Nat.lt_succ_of_lt hlt, hindex⟩
        · have hkept : removals.Kept arity := by
            by_contra hremoved
            rw [shifted_succ_of_not_kept hremoved] at hplace
            exact hearlier hplace
          rw [shifted_succ_of_kept hkept] at hplace
          exact ⟨arity, Nat.lt_succ_self arity, hkept, by omega⟩
  · rintro ⟨index, hlt, hkept, rfl⟩
    exact shifted_lt_shifted hkept hlt

end Removals

/-- A number stands for a known value: null is zero, and any other object is
some other number. -/
def KnownValue.StandsAs (value : KnownValue) (number : Int) : Prop :=
  match value with
  | .number known => number = known
  | _ => number ≠ 0

theorem KnownValue.isZero_number (number : Int) :
    (KnownValue.number number).isZero = (number == 0) := by
  rw [Bool.eq_iff_iff]
  simp [isZero]

namespace Predicate

variable {predicate : Predicate} {value : KnownValue} {number : Int}

theorem admitsKnown_number (predicate : Predicate) (number : Int) :
    predicate.admitsKnown (.number number) = predicate.admits number := by
  cases predicate <;>
    simp [admitsKnown, KnownValue.isZero_number, admits, bne]

/-- A test that a known value passes is passed by what the value stands as. -/
theorem admits_of_admitsKnown (hvalue : value.StandsAs number)
    (hadmits : predicate.admitsKnown value = true) :
    predicate.admits number = true := by
  cases value with
  | number known =>
      obtain rfl : number = known := hvalue
      rwa [admitsKnown_number] at hadmits
  | text | classObject | held =>
      -- of these values it is only known that they are not null
      have hnonzero : number ≠ 0 := hvalue
      cases predicate <;>
        simp_all [admitsKnown, KnownValue.isZero, admits]

end Predicate

namespace Removals

variable {removals : Removals} {old new : Nat → Int} {t : ArgumentTest}
variable {x : Constraint}

/-- Assignments to the arguments before and after the removals that belong
together, as far as a constraint can tell. -/
structure Relates (removals : Removals) (x : Constraint) (old new : Nat → Int) :
    Prop where
  known : ∀ index value, removals.find? index = some (some value) →
    value.StandsAs (old index)
  truthValues : ∀ t ∈ x.tests, removals.Kept t.index →
    t.predicate = .isTrue ∨ t.predicate = .isFalse →
      old t.index = 0 ∨ old t.index = 1
  kept : ∀ index, removals.Kept index → new (removals.shifted index) = old index

theorem apply_of_kept (hkept : removals.Kept t.index) :
    removals.apply t = .test { t with index := removals.shifted t.index } := by
  rw [apply, hkept]

theorem apply_of_known {value : KnownValue}
    (hfound : removals.find? t.index = some (some value)) :
    removals.apply t =
      if t.predicate.admitsKnown value then .always else .never := by
  rw [apply, hfound]

theorem apply_of_unknown (hfound : removals.find? t.index = some none) :
    removals.apply t = .never := by
  rw [apply, hfound]

theorem normal_apply (removals : Removals) (t : ArgumentTest) :
    (removals.apply t).Normal := by
  cases hfound : removals.find? t.index with
  | none =>
      rw [apply_of_kept hfound]
      exact .test _
  | some found =>
      cases found with
      | none =>
          rw [apply_of_unknown hfound]
          exact .never
      | some value =>
          rw [apply_of_known hfound]
          split
          · exact .always
          · exact .never

theorem eval_apply_of_known {value : KnownValue} (truth : ArgumentTest → Bool)
    (hfound : removals.find? t.index = some (some value)) :
    (removals.apply t).eval truth = t.predicate.admitsKnown value := by
  rw [apply_of_known hfound]
  cases t.predicate.admitsKnown value <;> rfl

/-- Only kept arguments are tested after the removals. -/
theorem eq_of_mem_tests_apply {u : ArgumentTest}
    (hu : u ∈ (removals.apply t).tests) :
    removals.Kept t.index ∧
      u = { t with index := removals.shifted t.index } := by
  cases hfound : removals.find? t.index with
  | none =>
      rw [apply_of_kept hfound] at hu
      exact ⟨hfound, List.mem_singleton.mp hu⟩
  | some found =>
      cases found with
      | none =>
          rw [apply_of_unknown hfound] at hu
          cases hu
      | some value =>
          rw [apply_of_known hfound] at hu
          split at hu <;> cases hu

namespace Relates

variable (hrelates : removals.Relates x old new)
include hrelates

theorem opposed : ∀ t ∈ x.tests, Constraint.Opposed
    (fun u => u.predicate.admits (new u.index)) (removals.apply t).tests := by
  intro t ht
  apply Constraint.opposed_of_truthValues
  intro u hu htruth
  obtain ⟨hkept, rfl⟩ := eq_of_mem_tests_apply hu
  rw [hrelates.kept t.index hkept]
  exact hrelates.truthValues t ht hkept htruth

theorem satisfiedBy_removeArguments_eq :
    (x.removeArguments removals).satisfiedBy new =
      x.eval fun t => (removals.apply t).eval fun u =>
        u.predicate.admits (new u.index) :=
  Constraint.eval_substitute removals.normal_apply hrelates.opposed

theorem eval_apply_of_kept (hkept : removals.Kept t.index) :
    (removals.apply t).eval (fun u => u.predicate.admits (new u.index)) =
      t.predicate.admits (old t.index) := by
  rw [apply_of_kept hkept, Constraint.eval, hrelates.kept t.index hkept]

/-- A test that holds after the removals held before. -/
theorem admits_of_eval_apply
    (htrue : (removals.apply t).eval
      (fun u => u.predicate.admits (new u.index)) = true) :
    t.predicate.admits (old t.index) = true := by
  cases hfound : removals.find? t.index with
  | none => rwa [hrelates.eval_apply_of_kept hfound] at htrue
  | some found =>
      cases found with
      | none =>
          rw [apply_of_unknown hfound] at htrue
          cases htrue
      | some value =>
          rw [eval_apply_of_known _ hfound] at htrue
          exact Predicate.admits_of_admitsKnown
            (hrelates.known t.index value hfound) htrue

/-- A number passes after the removals what it passed before. -/
theorem eval_apply_eq
    (hnumber : ∀ found, removals.find? t.index = some found →
      ∃ number, found = some (.number number)) :
    (removals.apply t).eval (fun u => u.predicate.admits (new u.index)) =
      t.predicate.admits (old t.index) := by
  cases hfound : removals.find? t.index with
  | none => exact hrelates.eval_apply_of_kept hfound
  | some found =>
      obtain ⟨number, rfl⟩ := hnumber found hfound
      have hnumber : old t.index = number := hrelates.known t.index _ hfound
      rw [eval_apply_of_known _ hfound, Predicate.admitsKnown_number, hnumber]

end Relates

/-- Every argument moves down by the removed ones in front of it, so the kept
ones are numbered anew in order and without gaps.  What satisfies a constraint
after arguments have been removed satisfied it before, and the other way round
if all callers passed known numbers for the removed arguments that it tests. -/
theorem satisfiedBy_removeArguments (removals : Removals) :
    (∀ index, removals.shifted index + removals.removedBefore index = index) ∧
    (∀ index later, removals.Kept index → removals.Kept later →
      index < later → removals.shifted index < removals.shifted later) ∧
    (∀ arity place, place < removals.shifted arity ↔
      ∃ index < arity, removals.Kept index ∧
        removals.shifted index = place) ∧
    ∀ x old new, removals.Relates x old new →
      ((x.removeArguments removals).satisfiedBy new = true →
        x.satisfiedBy old = true) ∧
      ((∀ t ∈ x.tests, ∀ found, removals.find? t.index = some found →
          ∃ number, found = some (.number number)) →
        x.satisfiedBy old = true →
          (x.removeArguments removals).satisfiedBy new = true) := by
  refine ⟨removals.shifted_add_removedBefore,
    fun _ _ hkept _ => shifted_lt_shifted hkept, fun _ _ => lt_shifted_iff, ?_⟩
  intro x old new hrelates
  rw [hrelates.satisfiedBy_removeArguments_eq]
  constructor
  · exact Constraint.eval_mono fun t _ => hrelates.admits_of_eval_apply
  · intro hnumbers hsatisfied
    rw [Constraint.eval_congr fun t ht =>
      hrelates.eval_apply_eq (hnumbers t ht)]
    exact hsatisfied

/-- The first argument, always null, and the third one are removed. -/
def firstAndThird : Removals :=
  Table.ofList [(2, none), (0, some (.number 0))]

theorem find?_firstAndThird (index : Nat) :
    firstAndThird.find? index =
      if 0 = index then some (some (.number 0))
      else if 2 = index then some none else none := by
  simp [firstAndThird, Table.ofList, Table.find?_insert]

/-- The first argument is an object, or the second one is true and the fourth
is not seven. -/
def objectOrTrue : Constraint :=
  .any [.test ⟨0, .nonNull⟩,
    .all [.test ⟨3, .notEqual 7⟩, .test ⟨1, .isTrue⟩, .test ⟨0, .null⟩]]

theorem firstAndThird_relates : firstAndThird.Relates objectOrTrue
    (fun index => if index = 0 then 0 else 1) (fun _ => 1) where
  known := by
    intro index value hfound
    rw [find?_firstAndThird] at hfound
    split at hfound
    · next hzero =>
        cases hfound
        exact if_pos hzero.symm
    · split at hfound <;> cases hfound
  truthValues := by
    intro t _ _ _
    split <;> simp
  kept := by
    intro index hkept
    rw [Kept, find?_firstAndThird] at hkept
    split at hkept
    · cases hkept
    · next hnonzero => exact (if_neg (Ne.symm hnonzero)).symm

theorem firstAndThird_satisfiedBy :
    objectOrTrue.removeArguments firstAndThird =
      .all [.test ⟨0, .isTrue⟩, .test ⟨1, .notEqual 7⟩] ∧
    firstAndThird.shifted 1 < firstAndThird.shifted 3 ∧
    firstAndThird.Relates objectOrTrue
      (fun index => if index = 0 then 0 else 1) (fun _ => 1) ∧
    objectOrTrue.satisfiedBy (fun index => if index = 0 then 0 else 1) = true ∧
    (objectOrTrue.removeArguments firstAndThird).satisfiedBy (fun _ => 1) =
      true := by
  have hremoved : objectOrTrue.removeArguments firstAndThird =
      .all [.test ⟨0, .isTrue⟩, .test ⟨1, .notEqual 7⟩] :=
    Constraint.eq_of_compare (by decide +kernel)
  have hnumbers : ∀ t ∈ objectOrTrue.tests, ∀ found,
      firstAndThird.find? t.index = some found →
        ∃ number, found = some (.number number) := by
    intro t ht found hfound
    rw [find?_firstAndThird] at hfound
    split at hfound
    · exact ⟨0, (Option.some.inj hfound).symm⟩
    · -- the third argument is not tested
      simp [objectOrTrue, Constraint.tests, Constraint.testsOfAll] at ht
      rcases ht with rfl | rfl | rfl | rfl <;> simp at hfound
  obtain ⟨_, hlt, _, hsatisfied⟩ := satisfiedBy_removeArguments firstAndThird
  obtain ⟨hbefore, hafter⟩ := hsatisfied _ _ _ firstAndThird_relates
  have hold := hbefore (by rw [hremoved]; rfl)
  exact ⟨hremoved, hlt 1 3 rfl rfl (by decide), firstAndThird_relates, hold,
    hafter hnumbers hold⟩

end Removals

namespace Constraint

open Connective

variable {c : Connective} {x : Constraint} {t : ArgumentTest}
variable {indices first second : List Nat}

/-- A test after these arguments have been unboxed. -/
def unboxedTest (indices : List Nat) (t : ArgumentTest) : ArgumentTest :=
  { t with predicate :=
      if t.index ∈ indices then t.predicate.unboxed else t.predicate }

theorem unboxArguments_eq (x : Constraint) (indices : List Nat) :
    x.unboxArguments indices =
      x.substitute fun t => test (unboxedTest indices t) := by
  rw [unboxArguments]
  congr 1
  funext t
  by_cases hmem : t.index ∈ indices <;> simp [unboxedTest, hmem]

theorem unboxedTest_complement (indices : List Nat) (t : ArgumentTest) :
    unboxedTest indices t.complement = (unboxedTest indices t).complement := by
  obtain ⟨index, predicate⟩ := t
  by_cases hmem : index ∈ indices
  · cases predicate <;> simp [unboxedTest, ArgumentTest.complement, hmem,
      Predicate.complement, Predicate.unboxed]
  · simp [unboxedTest, ArgumentTest.complement, hmem]

theorem unboxedTest_unboxedTest (first second : List Nat) (t : ArgumentTest) :
    unboxedTest second (unboxedTest first t) =
      unboxedTest (first ++ second) t := by
  obtain ⟨index, predicate⟩ := t
  by_cases hfirst : index ∈ first <;> by_cases hsecond : index ∈ second <;>
    cases predicate <;> simp [unboxedTest, Predicate.unboxed, hfirst, hsecond]

theorem combine_complement (c : Connective) (t : ArgumentTest) :
    c.combine (test t) (test t.complement) = c.absorbing := by
  have hne : ∀ u, test u ≠ c.absorbing := by
    intro u
    cases c <;> simp [absorbing]
  rw [combine_eq_total (.test t) (hne t) (.test _) (hne _)]
  apply total_eq_absorbing
  rw [hasContradiction_eq_true]
  exact ⟨t, by cases c <;> simp [terms], by cases c <;> simp [terms]⟩

theorem unboxedTest_keepsComplements (indices : List Nat) :
    KeepsComplements fun t => test (unboxedTest indices t) := by
  intro c t
  simp only [unboxedTest_complement]
  exact combine_complement c _

theorem unboxArguments_unboxArguments (x : Constraint) (first second : List Nat) :
    (x.unboxArguments first).unboxArguments second =
      x.unboxArguments (first ++ second) := by
  rw [unboxArguments_eq, unboxArguments_eq, unboxArguments_eq,
    substitute_substitute (fun _ => .test _) (fun _ => .test _)
      (unboxedTest_keepsComplements second)]
  congr 1
  funext t
  rw [substitute, unboxedTest_unboxedTest]

theorem unboxArguments_congr
    (hsame : ∀ index, index ∈ first ↔ index ∈ second) :
    x.unboxArguments first = x.unboxArguments second := by
  rw [unboxArguments_eq, unboxArguments_eq]
  congr 1
  funext t
  simp only [unboxedTest, hsame]

/-- Null is zero, so a number passes an unboxed test as before. -/
theorem admits_unboxedTest (number : Int) :
    (unboxedTest indices t).predicate.admits number =
      t.predicate.admits number := by
  obtain ⟨index, predicate⟩ := t
  simp only [unboxedTest]
  split
  · cases predicate <;> rfl
  · rfl

theorem isTrue_or_isFalse_of_unboxedTest
    (htruth : (unboxedTest indices t).predicate = .isTrue ∨
      (unboxedTest indices t).predicate = .isFalse) :
    t.predicate = .isTrue ∨ t.predicate = .isFalse := by
  obtain ⟨index, predicate⟩ := t
  simp only [unboxedTest] at htruth
  split at htruth
  · cases predicate <;> simp [Predicate.unboxed] at htruth ⊢
  · exact htruth

theorem satisfiedBy_unboxArguments {assignment : Nat → Int}
    (hvalues : ∀ t ∈ x.tests, t.predicate = .isTrue ∨ t.predicate = .isFalse →
      assignment t.index = 0 ∨ assignment t.index = 1) :
    (x.unboxArguments indices).satisfiedBy assignment =
      x.satisfiedBy assignment := by
  have hopposed : ∀ t ∈ x.tests, Opposed
      (fun u => u.predicate.admits (assignment u.index))
      (test (unboxedTest indices t)).tests := by
    intro t ht
    apply opposed_of_truthValues
    intro u hu htruth
    obtain rfl := List.mem_singleton.mp hu
    exact hvalues t ht (isTrue_or_isFalse_of_unboxedTest htruth)
  rw [unboxArguments_eq, satisfiedBy,
    eval_substitute (fun _ => .test _) hopposed]
  exact eval_congr fun t _ => admits_unboxedTest (assignment t.index)

/-- Unboxing some arguments and then others is unboxing all of them, so a
second time changes nothing and the order does not matter.  The same arguments
satisfy the constraint before and after. -/
theorem unboxArguments_compose (x : Constraint) (first second : List Nat) :
    (x.unboxArguments first).unboxArguments second =
        x.unboxArguments (first ++ second) ∧
      (x.unboxArguments first).unboxArguments first = x.unboxArguments first ∧
      (x.unboxArguments first).unboxArguments second =
        (x.unboxArguments second).unboxArguments first ∧
      ∀ assignment : Nat → Int,
        (∀ t ∈ x.tests, t.predicate = .isTrue ∨ t.predicate = .isFalse →
          assignment t.index = 0 ∨ assignment t.index = 1) →
        (x.unboxArguments first).satisfiedBy assignment =
          x.satisfiedBy assignment := by
  refine ⟨unboxArguments_unboxArguments x first second, ?_, ?_, ?_⟩
  · rw [unboxArguments_unboxArguments]
    exact unboxArguments_congr (by simp)
  · rw [unboxArguments_unboxArguments, unboxArguments_unboxArguments]
    exact unboxArguments_congr (by simp [or_comm])
  · exact fun assignment hvalues => satisfiedBy_unboxArguments hvalues

/-- An argument is null or not zero, and another one is true. -/
def nullOrNonzero : Constraint :=
  all [any [test ⟨0, .null⟩, test ⟨0, .notEqual 0⟩], test ⟨1, .isTrue⟩]

/-- Once unboxed, the argument is zero or not. -/
theorem nullOrNonzero_unboxed :
    nullOrNonzero.unboxArguments [0] = test ⟨1, .isTrue⟩ ∧
    (nullOrNonzero.unboxArguments [0]).unboxArguments [1] =
      (nullOrNonzero.unboxArguments [1]).unboxArguments [0] ∧
    (∀ t ∈ nullOrNonzero.tests, t.predicate = .isTrue ∨ t.predicate = .isFalse →
      (fun _ => 1 : Nat → Int) t.index = 0 ∨
        (fun _ => 1 : Nat → Int) t.index = 1) ∧
    (nullOrNonzero.unboxArguments [0]).satisfiedBy (fun _ => 1) =
      nullOrNonzero.satisfiedBy (fun _ => 1) := by
  obtain ⟨_, _, horder, hmeaning⟩ := unboxArguments_compose nullOrNonzero [0] [1]
  have hvalues : ∀ t ∈ nullOrNonzero.tests,
      t.predicate = .isTrue ∨ t.predicate = .isFalse →
        (fun _ => 1 : Nat → Int) t.index = 0 ∨
          (fun _ => 1 : Nat → Int) t.index = 1 :=
    fun _ _ _ => Or.inr rfl
  exact ⟨rfl, horder, hvalues, hmeaning _ hvalues⟩

end Constraint

end FlowFacts
