/-
Laws of conjunction and disjunction.  A constraint in normal form is given by
the set of its operands, and both connectives take the union of these sets, so
they are commutative, associative and idempotent on the nose.  What holds of
both connectives is stated once, for either of them.
-/
import FlowFacts.Proofs.ConstraintOrder

namespace FlowFacts

/-- The two ways of combining constraints. -/
inductive Connective
  | both
  | either
deriving DecidableEq, Repr

namespace Connective

open Constraint

variable {c : Connective} {x y z : Constraint}
variable {operands others : List Constraint}

def combine : Connective → Constraint → Constraint → Constraint
  | both => meet
  | either => join

/-- The constraint that adds nothing to a combination. -/
def neutral : Connective → Constraint
  | both => always
  | either => never

/-- The constraint that decides a combination alone. -/
def absorbing : Connective → Constraint
  | both => never
  | either => always

def whole : Connective → List Constraint → Constraint
  | both => all
  | either => any

def terms : Connective → Constraint → List Constraint
  | both, always => []
  | both, all operands => operands
  | either, never => []
  | either, any operands => operands
  | _, other => [other]

/-- The combination of operands, unless there are none. -/
def gather : Connective → List Constraint → Constraint
  | both => conjunction
  | either => disjunction

def total (c : Connective) (operands : List Constraint) : Constraint :=
  if hasContradiction operands then c.absorbing
  else
    match ordered operands with
    | [] => c.neutral
    | [single] => single
    | several => c.whole several

/-- A constraint that may stand in a combination written out. -/
def Operand (c : Connective) (x : Constraint) : Prop :=
  x ≠ always ∧ x ≠ never ∧ ∀ operands, x ≠ c.whole operands

/-- Operands as they stand in a combination in normal form. -/
structure Proper (c : Connective) (operands : List Constraint) : Prop where
  several : 2 ≤ operands.length
  operand : ∀ x ∈ operands, c.Operand x
  ascending : Ascending operands
  consistent : hasContradiction operands = false

end Connective

namespace Constraint

/-- Every combination in the constraint has operands as they should be. -/
inductive Normal : Constraint → Prop
  | always : Normal always
  | never : Normal never
  | test (t : ArgumentTest) : Normal (test t)
  | all {operands : List Constraint} (hproper : Connective.both.Proper operands)
      (hnormal : ∀ x ∈ operands, Normal x) : Normal (all operands)
  | any {operands : List Constraint}
      (hproper : Connective.either.Proper operands)
      (hnormal : ∀ x ∈ operands, Normal x) : Normal (any operands)

theorem hasContradiction_mono {operands others : List Constraint}
    (hsubset : operands ⊆ others) (hcontra : hasContradiction operands = true) :
    hasContradiction others = true := by
  rw [hasContradiction_eq_true] at hcontra ⊢
  obtain ⟨t, hmem, hcomplement⟩ := hcontra
  exact ⟨t, hsubset hmem, hsubset hcomplement⟩

theorem hasContradiction_congr {operands others : List Constraint}
    (hsame : ∀ x, x ∈ operands ↔ x ∈ others) :
    hasContradiction operands = hasContradiction others := by
  rw [Bool.eq_iff_iff]
  exact ⟨hasContradiction_mono fun x => (hsame x).mp,
    hasContradiction_mono fun x => (hsame x).mpr⟩

theorem hasContradiction_ordered (operands : List Constraint) :
    hasContradiction (ordered operands) = hasContradiction operands :=
  hasContradiction_congr fun _ => mem_ordered

theorem hasContradiction_singleton (x : Constraint) :
    hasContradiction [x] = false := by
  rw [Bool.eq_false_iff, ne_eq, hasContradiction_eq_true]
  rintro ⟨⟨index, predicate⟩, hmem, hcomplement⟩
  obtain rfl := List.mem_singleton.mp hmem
  cases predicate <;>
    simp [ArgumentTest.complement, Predicate.complement] at hcomplement

end Constraint

namespace Connective

open Constraint

variable {c : Connective} {x y z : Constraint}
variable {operands others : List Constraint}

theorem total_congr (hsame : ∀ x, x ∈ operands ↔ x ∈ others) :
    c.total operands = c.total others := by
  rw [total, total, hasContradiction_congr hsame, ordered_congr hsame]

theorem total_eq_absorbing (hcontra : hasContradiction operands = true) :
    c.total operands = c.absorbing := by
  rw [total, if_pos hcontra]

@[simp] theorem total_nil (c : Connective) : c.total [] = c.neutral := rfl

@[simp] theorem total_singleton (c : Connective) (x : Constraint) :
    c.total [x] = x := by
  rw [total, hasContradiction_singleton]
  rfl

theorem Proper.total_eq (hproper : c.Proper operands) :
    c.total operands = c.whole operands := by
  have hseveral := hproper.several
  rw [total, hproper.consistent, hproper.ascending.ordered_eq]
  match operands with
  | _ :: _ :: _ => rfl

theorem gather_eq_total (hsome : operands ≠ []) :
    c.gather operands = c.total operands := by
  obtain ⟨x, hx⟩ := List.exists_mem_of_ne_nil operands hsome
  have hordered : ordered operands ≠ [] :=
    List.ne_nil_of_mem (mem_ordered.mpr hx)
  cases c <;> simp only [gather, conjunction, disjunction, total,
    hasContradiction_ordered]
  all_goals
    cases hmatch : ordered operands with
    | nil => exact absurd hmatch hordered
    | cons head tail => cases tail <;> rfl

@[simp] theorem terms_neutral (c : Connective) : c.terms c.neutral = [] := by
  cases c <;> rfl

@[simp] theorem terms_whole (c : Connective) (operands : List Constraint) :
    c.terms (c.whole operands) = operands := by
  cases c <;> rfl

theorem Operand.terms_eq (hoperand : c.Operand x) : c.terms x = [x] := by
  obtain ⟨halways, hnever, hwhole⟩ := hoperand
  cases c <;> cases x <;> simp_all [terms, whole]

theorem combine_absorbing_left (c : Connective) (x : Constraint) :
    c.combine c.absorbing x = c.absorbing := by
  cases c <;> cases x <;> rfl

theorem combine_absorbing_right (c : Connective) (x : Constraint) :
    c.combine x c.absorbing = c.absorbing := by
  cases c <;> cases x <;> rfl

theorem combine_neutral_left (c : Connective) (x : Constraint) :
    c.combine c.neutral x = x := by
  cases c <;> cases x <;> rfl

theorem combine_neutral_right (c : Connective) (x : Constraint) :
    c.combine x c.neutral = x := by
  cases c <;> cases x <;> rfl

/-- Where no operand is decided, operands are put together. -/
theorem combine_eq_gather (hx : x ≠ c.neutral) (hx' : x ≠ c.absorbing)
    (hy : y ≠ c.neutral) (hy' : y ≠ c.absorbing) :
    c.combine x y = c.gather (c.terms x ++ c.terms y) := by
  cases c <;> cases x <;> cases y <;>
    simp_all [combine, meet, join, gather, terms, conjuncts, disjuncts,
      neutral, absorbing]

/-- A constraint in normal form is made of operands in normal form. -/
theorem operand_of_mem_terms (hnormal : x.Normal) (hx : x ≠ c.absorbing) :
    ∀ y ∈ c.terms x, c.Operand y ∧ y.Normal := by
  have hself : c.terms x = [x] → c.Operand x →
      ∀ y ∈ c.terms x, c.Operand y ∧ y.Normal := by
    intro hterms hoperand y hy
    rw [hterms, List.mem_singleton] at hy
    subst hy
    exact ⟨hoperand, hnormal⟩
  cases hnormal with
  | always => cases c <;> simp [terms, absorbing] at hx ⊢
  | never => cases c <;> simp [terms, absorbing] at hx ⊢
  | test t => exact hself (by cases c <;> rfl) (by cases c <;> simp [Operand, whole])
  | all hproper hoperands =>
      cases c with
      | both => exact fun y hy => ⟨hproper.operand y hy, hoperands y hy⟩
      | either => exact hself rfl (by simp [Operand, whole])
  | any hproper hoperands =>
      cases c with
      | both => exact hself rfl (by simp [Operand, whole])
      | either => exact fun y hy => ⟨hproper.operand y hy, hoperands y hy⟩

/-- The operands of a constraint in normal form make it up. -/
theorem total_terms (hnormal : x.Normal) (hx : x ≠ c.absorbing) :
    c.total (c.terms x) = x := by
  cases hnormal with
  | always => cases c <;> simp [terms, absorbing, neutral] at hx ⊢
  | never => cases c <;> simp [terms, absorbing, neutral] at hx ⊢
  | test t => cases c <;> exact total_singleton _ _
  | all hproper =>
      cases c with
      | both => exact hproper.total_eq
      | either => exact total_singleton _ _
  | any hproper =>
      cases c with
      | both => exact total_singleton _ _
      | either => exact hproper.total_eq

theorem neutral_ne_absorbing (c : Connective) : c.neutral ≠ c.absorbing := by
  cases c <;> simp [neutral, absorbing]

theorem whole_ne_absorbing (c : Connective) (operands : List Constraint) :
    c.whole operands ≠ c.absorbing := by
  cases c <;> simp [whole, absorbing]

theorem Operand.ne_absorbing (hoperand : c.Operand x) : x ≠ c.absorbing := by
  cases c
  · exact hoperand.2.1
  · exact hoperand.1

/-- Without a contradiction there are no operands, or one, or a combination is
written out. -/
theorem total_cases (hconsistent : hasContradiction operands = false) :
    (ordered operands = [] ∧ c.total operands = c.neutral) ∨
      (∃ single, ordered operands = [single] ∧ c.total operands = single) ∨
      (2 ≤ (ordered operands).length ∧
        c.total operands = c.whole (ordered operands)) := by
  rw [total, hconsistent]
  match ordered operands with
  | [] => exact Or.inl ⟨rfl, rfl⟩
  | [single] => exact Or.inr (Or.inl ⟨single, rfl, rfl⟩)
  | _ :: _ :: _ => exact Or.inr (Or.inr ⟨by simp, rfl⟩)

theorem mem_of_ordered_eq_singleton (hsingle : ordered operands = [x]) :
    x ∈ operands :=
  mem_ordered.mp (hsingle ▸ List.mem_singleton_self x)

/-- Operands without a contradiction can be read off their combination. -/
theorem mem_terms_total (hoperands : ∀ x ∈ operands, c.Operand x)
    (hconsistent : hasContradiction operands = false) :
    c.total operands ≠ c.absorbing ∧
      ∀ x, x ∈ c.terms (c.total operands) ↔ x ∈ operands := by
  have hmem : ∀ {sorted}, ordered operands = sorted →
      ∀ x, x ∈ sorted ↔ x ∈ operands := by
    rintro _ rfl x
    exact mem_ordered
  obtain ⟨hnone, htotal⟩ | ⟨single, hsingle, htotal⟩ | ⟨_, htotal⟩ :=
    total_cases (c := c) hconsistent
  · rw [htotal, terms_neutral]
    exact ⟨c.neutral_ne_absorbing, hmem hnone⟩
  · have hoperand := hoperands single (mem_of_ordered_eq_singleton hsingle)
    rw [htotal, hoperand.terms_eq]
    exact ⟨hoperand.ne_absorbing, hmem hsingle⟩
  · rw [htotal, terms_whole]
    exact ⟨c.whole_ne_absorbing _, hmem rfl⟩

theorem normal_whole (hproper : c.Proper operands)
    (hnormal : ∀ x ∈ operands, x.Normal) : (c.whole operands).Normal := by
  cases c
  · exact .all hproper hnormal
  · exact .any hproper hnormal

theorem normal_total
    (hoperands : ∀ x ∈ operands, c.Operand x ∧ x.Normal) :
    (c.total operands).Normal := by
  cases hcontra : hasContradiction operands with
  | true =>
      rw [total_eq_absorbing hcontra]
      cases c
      · exact .never
      · exact .always
  | false =>
      obtain ⟨_, htotal⟩ | ⟨single, hsingle, htotal⟩ | ⟨hseveral, htotal⟩ :=
        total_cases (c := c) hcontra
      · rw [htotal]
        cases c
        · exact .always
        · exact .never
      · rw [htotal]
        exact (hoperands single (mem_of_ordered_eq_singleton hsingle)).2
      · have hordered : ∀ x ∈ ordered operands, c.Operand x ∧ x.Normal :=
          fun x hx => hoperands x (mem_ordered.mp hx)
        rw [htotal]
        refine normal_whole ⟨hseveral, fun x hx => (hordered x hx).1,
          ascending_ordered operands, ?_⟩ fun x hx => (hordered x hx).2
        rw [hasContradiction_ordered, hcontra]

/-- Combining is uniting the operands. -/
theorem combine_eq_total (hx : x.Normal) (hx' : x ≠ c.absorbing)
    (hy : y.Normal) (hy' : y ≠ c.absorbing) :
    c.combine x y = c.total (c.terms x ++ c.terms y) := by
  by_cases hxneutral : x = c.neutral
  · subst hxneutral
    rw [combine_neutral_left, terms_neutral, List.nil_append,
      total_terms hy hy']
  · by_cases hyneutral : y = c.neutral
    · subst hyneutral
      rw [combine_neutral_right, terms_neutral, List.append_nil,
        total_terms hx hx']
    · have hsome : c.terms x ≠ [] := by
        intro hnone
        apply hxneutral
        rw [← total_terms hx hx', hnone, total_nil]
      rw [combine_eq_gather hxneutral hx' hyneutral hy']
      exact gather_eq_total (by simp [hsome])

theorem operand_of_mem_terms_append (hx : x.Normal) (hx' : x ≠ c.absorbing)
    (hy : y.Normal) (hy' : y ≠ c.absorbing) :
    ∀ z ∈ c.terms x ++ c.terms y, c.Operand z ∧ z.Normal := by
  intro z hz
  rcases List.mem_append.mp hz with hz | hz
  · exact operand_of_mem_terms hx hx' z hz
  · exact operand_of_mem_terms hy hy' z hz

theorem normal_combine (hx : x.Normal) (hy : y.Normal) :
    (c.combine x y).Normal := by
  by_cases hx' : x = c.absorbing
  · rwa [hx', combine_absorbing_left, ← hx']
  · by_cases hy' : y = c.absorbing
    · rwa [hy', combine_absorbing_right, ← hy']
    · rw [combine_eq_total hx hx' hy hy']
      exact normal_total (operand_of_mem_terms_append hx hx' hy hy')

theorem combine_comm (hx : x.Normal) (hy : y.Normal) :
    c.combine x y = c.combine y x := by
  by_cases hx' : x = c.absorbing
  · rw [hx', combine_absorbing_left, combine_absorbing_right]
  · by_cases hy' : y = c.absorbing
    · rw [hy', combine_absorbing_left, combine_absorbing_right]
    · rw [combine_eq_total hx hx' hy hy', combine_eq_total hy hy' hx hx']
      apply total_congr
      simp [or_comm]

/-- A combination of operands may be taken apart again. -/
theorem combine_total (hx : x.Normal) (hx' : x ≠ c.absorbing)
    (hoperands : ∀ y ∈ operands, c.Operand y ∧ y.Normal) :
    c.combine x (c.total operands) = c.total (c.terms x ++ operands) := by
  cases hcontra : hasContradiction operands with
  | true =>
      have hmore : hasContradiction (c.terms x ++ operands) = true :=
        hasContradiction_mono (List.subset_append_right _ _) hcontra
      rw [total_eq_absorbing hcontra, total_eq_absorbing hmore,
        combine_absorbing_right]
  | false =>
      obtain ⟨hne, hmem⟩ :=
        mem_terms_total (fun y hy => (hoperands y hy).1) hcontra
      rw [combine_eq_total hx hx' (normal_total hoperands) hne]
      apply total_congr
      simp [hmem]

theorem combine_assoc (hx : x.Normal) (hy : y.Normal) (hz : z.Normal) :
    c.combine (c.combine x y) z = c.combine x (c.combine y z) := by
  by_cases hx' : x = c.absorbing
  · simp only [hx', combine_absorbing_left]
  by_cases hy' : y = c.absorbing
  · simp only [hy', combine_absorbing_left, combine_absorbing_right]
  by_cases hz' : z = c.absorbing
  · simp only [hz', combine_absorbing_right]
  have hxy := operand_of_mem_terms_append hx hx' hy hy'
  have hyz := operand_of_mem_terms_append hy hy' hz hz'
  calc c.combine (c.combine x y) z
      = c.combine z (c.total (c.terms x ++ c.terms y)) := by
        rw [combine_comm (normal_combine hx hy) hz,
          combine_eq_total hx hx' hy hy']
    _ = c.total (c.terms z ++ (c.terms x ++ c.terms y)) :=
        combine_total hz hz' hxy
    _ = c.total (c.terms x ++ (c.terms y ++ c.terms z)) := by
        apply total_congr
        simp only [List.mem_append]
        tauto
    _ = c.combine x (c.combine y z) := by
        rw [combine_eq_total hy hy' hz hz', combine_total hx hx' hyz]

theorem combine_self (hx : x.Normal) : c.combine x x = x := by
  by_cases hx' : x = c.absorbing
  · rw [hx', combine_absorbing_left]
  · calc c.combine x x
        = c.total (c.terms x ++ c.terms x) := combine_eq_total hx hx' hx hx'
      _ = c.total (c.terms x) := total_congr (by simp)
      _ = x := total_terms hx hx'

end Connective

namespace Constraint

variable {x y z : Constraint}

/-- What can be put together from decided constraints and tests. -/
inductive Built : Constraint → Prop
  | always : Built always
  | never : Built never
  | test (t : ArgumentTest) : Built (test t)
  | meet {x y : Constraint} (hx : Built x) (hy : Built y) : Built (x.meet y)
  | join {x y : Constraint} (hx : Built x) (hy : Built y) : Built (x.join y)

theorem Built.normal (hbuilt : x.Built) : x.Normal := by
  induction hbuilt with
  | always => exact .always
  | never => exact .never
  | test t => exact .test t
  | meet _ _ hx hy => exact Connective.normal_combine (c := .both) hx hy
  | join _ _ hx hy => exact Connective.normal_combine (c := .either) hx hy

/-- Conjunction and disjunction are commutative, associative and idempotent,
as equations between constraints. -/
theorem meet_join_semilattices (hx : x.Built) (hy : y.Built) (hz : z.Built) :
    (x.meet y = y.meet x ∧ (x.meet y).meet z = x.meet (y.meet z) ∧
      x.meet x = x) ∧
    (x.join y = y.join x ∧ (x.join y).join z = x.join (y.join z) ∧
      x.join x = x) := by
  have hlaws : ∀ c : Connective, c.combine x y = c.combine y x ∧
      c.combine (c.combine x y) z = c.combine x (c.combine y z) ∧
      c.combine x x = x := fun c =>
    ⟨Connective.combine_comm hx.normal hy.normal,
      Connective.combine_assoc hx.normal hy.normal hz.normal,
      Connective.combine_self hx.normal⟩
  exact ⟨hlaws .both, hlaws .either⟩

def nullOrTrue : Constraint :=
  (test ⟨0, .null⟩).join (test ⟨1, .isTrue⟩)

/-- Of three constraints, the last two exclude each other. -/
theorem nullOrTrue_semilattices :
    (nullOrTrue.Built ∧ (test ⟨0, .nonNull⟩).Built ∧ (test ⟨0, .null⟩).Built) ∧
      (nullOrTrue.meet (test ⟨0, .nonNull⟩) =
          (test ⟨0, .nonNull⟩).meet nullOrTrue ∧
        (nullOrTrue.meet (test ⟨0, .nonNull⟩)).meet (test ⟨0, .null⟩) =
          nullOrTrue.meet ((test ⟨0, .nonNull⟩).meet (test ⟨0, .null⟩)) ∧
        nullOrTrue.meet nullOrTrue = nullOrTrue) ∧
      (nullOrTrue.join (test ⟨0, .nonNull⟩) =
          (test ⟨0, .nonNull⟩).join nullOrTrue ∧
        (nullOrTrue.join (test ⟨0, .nonNull⟩)).join (test ⟨0, .null⟩) =
          nullOrTrue.join ((test ⟨0, .nonNull⟩).join (test ⟨0, .null⟩)) ∧
        nullOrTrue.join nullOrTrue = nullOrTrue) := by
  have hbuilt : nullOrTrue.Built := .join (.test _) (.test _)
  exact ⟨⟨hbuilt, .test _, .test _⟩,
    meet_join_semilattices hbuilt (.test _) (.test _)⟩

end Constraint

end FlowFacts
