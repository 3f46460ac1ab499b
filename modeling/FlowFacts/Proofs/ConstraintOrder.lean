/-
The order of constraints.  Comparison is a strict total order, so operands
that have been put in order are determined by which operands there are.
-/
import Mathlib.Data.List.Basic
import FlowFacts.Proofs.ConstraintMeaning

namespace FlowFacts

instance : Ord Predicate := ⟨Predicate.compare⟩

instance : Std.TransOrd Predicate :=
  inferInstanceAs (Std.TransCmp
    (compareLex (compareOn Predicate.rank) (compareOn Predicate.operand)))

instance : Std.TransCmp ArgumentTest.compare :=
  inferInstanceAs (Std.TransCmp (compareLex (compareOn ArgumentTest.index)
    (compareOn ArgumentTest.predicate)))

namespace Constraint

variable {a b c : Constraint}

mutual

theorem compare_swap (a b : Constraint) : compare a b = (compare b a).swap := by
  cases a <;> cases b <;> simp only [compare]
  case test.test t u => exact Std.OrientedCmp.eq_swap
  case all.all as bs => exact compareLists_swap as bs
  case any.any as bs => exact compareLists_swap as bs
  all_goals rfl

theorem compareLists_swap (as bs : List Constraint) :
    compareLists as bs = (compareLists bs as).swap := by
  cases as with
  | nil => cases bs <;> simp [compareLists]
  | cons a as =>
      cases bs with
      | nil => simp [compareLists]
      | cons b bs =>
          rw [compareLists, compareLists, Ordering.swap_then,
            ← compare_swap a b, ← compareLists_swap as bs]

end

theorem compare_of_rank_ne (hrank : a.rank ≠ b.rank) :
    compare a b = Ord.compare a.rank b.rank := by
  cases a <;> cases b <;> simp [compare, rank] at hrank ⊢

theorem rank_le_of_lt (hlt : compare a b = .lt) : a.rank ≤ b.rank := by
  by_contra hgt
  rw [compare_of_rank_ne (by omega), Nat.compare_eq_lt] at hlt
  omega

mutual

theorem lt_trans {a b c : Constraint} (hab : compare a b = .lt)
    (hbc : compare b c = .lt) : compare a c = .lt := by
  have hleft := rank_le_of_lt hab
  have hright := rank_le_of_lt hbc
  by_cases hrank : a.rank = c.rank
  · -- all three have the same head
    have hmiddle : a.rank = b.rank := by omega
    cases a <;> cases b <;> simp [rank] at hmiddle <;>
      cases c <;> simp [rank] at hrank
    all_goals simp only [compare] at hab hbc ⊢
    case test.test.test => exact Std.TransCmp.lt_trans hab hbc
    case all.all.all => exact lists_lt_trans hab hbc
    case any.any.any => exact lists_lt_trans hab hbc
    all_goals cases hab
  · rw [compare_of_rank_ne hrank, Nat.compare_eq_lt]
    omega

theorem lists_lt_trans {as bs cs : List Constraint}
    (hab : compareLists as bs = .lt) (hbc : compareLists bs cs = .lt) :
    compareLists as cs = .lt := by
  cases as with
  | nil =>
      cases cs with
      | nil => cases bs <;> simp [compareLists] at hab hbc
      | cons c cs => rfl
  | cons a as =>
      cases bs with
      | nil => simp [compareLists] at hab
      | cons b bs =>
          cases cs with
          | nil => simp [compareLists] at hbc
          | cons c cs =>
              rw [compareLists, Ordering.then_eq_lt] at hab hbc ⊢
              rcases hab with hab | ⟨heq, hab⟩
              · rcases hbc with hbc | ⟨heq, _⟩
                · exact Or.inl (lt_trans hab hbc)
                · exact Or.inl (eq_of_compare heq ▸ hab)
              · rw [eq_of_compare heq]
                rcases hbc with hbc | ⟨heq', hbc⟩
                · exact Or.inl hbc
                · exact Or.inr ⟨heq', lists_lt_trans hab hbc⟩

end

theorem not_lt_of_lt (hlt : compare a b = .lt) : compare b a ≠ .lt := by
  rw [compare_swap, hlt]
  decide

variable {operands others : List Constraint}

def Ascending (operands : List Constraint) : Prop :=
  operands.Pairwise fun a b => compare a b = .lt

theorem Ascending.nodup (hascending : Ascending operands) : operands.Nodup := by
  refine hascending.imp ?_
  rintro a _ hlt rfl
  exact not_lt_of_lt hlt hlt

theorem Ascending.insertOperand (hascending : Ascending operands)
    (operand : Constraint) : Ascending (insertOperand operand operands) := by
  induction operands with
  | nil => exact List.pairwise_singleton _ operand
  | cons head rest ih =>
      obtain ⟨hhead, hrest⟩ := List.pairwise_cons.mp hascending
      rw [Constraint.insertOperand]
      cases hcompare : compare operand head with
      | lt =>
          refine List.pairwise_cons.mpr ⟨?_, hascending⟩
          intro other hother
          rcases List.mem_cons.mp hother with rfl | hother
          · exact hcompare
          · exact lt_trans hcompare (hhead other hother)
      | eq => exact hascending
      | gt =>
          refine List.pairwise_cons.mpr ⟨?_, ih hrest⟩
          intro other hother
          rcases mem_insertOperand.mp hother with rfl | hother
          · rw [compare_swap, hcompare]
            rfl
          · exact hhead other hother

theorem ascending_ordered (operands : List Constraint) :
    Ascending (ordered operands) := by
  have hfold : ∀ sorted, Ascending sorted → Ascending (operands.foldl
      (fun sorted operand => Constraint.insertOperand operand sorted)
      sorted) := by
    induction operands with
    | nil => exact fun _ hsorted => hsorted
    | cons head rest ih =>
        exact fun sorted hsorted => ih _ (hsorted.insertOperand head)
  exact hfold [] List.Pairwise.nil

theorem Ascending.eq_of_same (hoperands : Ascending operands)
    (hothers : Ascending others)
    (hsame : ∀ operand, operand ∈ operands ↔ operand ∈ others) :
    operands = others := by
  refine List.Perm.eq_of_pairwise ?_ hoperands hothers
    ((List.perm_ext_iff_of_nodup hoperands.nodup hothers.nodup).mpr hsame)
  intro a b _ _ hab hba
  exact absurd hba (not_lt_of_lt hab)

theorem ordered_congr
    (hsame : ∀ operand, operand ∈ operands ↔ operand ∈ others) :
    ordered operands = ordered others := by
  apply (ascending_ordered operands).eq_of_same (ascending_ordered others)
  simpa using hsame

theorem Ascending.ordered_eq (hascending : Ascending operands) :
    ordered operands = operands :=
  (ascending_ordered operands).eq_of_same hascending fun _ => mem_ordered

end Constraint

end FlowFacts
