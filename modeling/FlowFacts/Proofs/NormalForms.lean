/-
Normal forms of constraints.  Whatever conjunction, disjunction, substitution
and the inlining walk give is in normal form, at every depth.
-/
import FlowFacts.Proofs.ArgumentWays
import FlowFacts.Proofs.SignatureChanges

namespace FlowFacts

namespace Constraint

open Connective

variable {c : Connective} {x y : Constraint} {operands : List Constraint}

/-- A constraint stands in another one, at some depth. -/
inductive Part : Constraint → Constraint → Prop
  | self (x : Constraint) : Part x x
  | operand {x y : Constraint} {c : Connective} {operands : List Constraint}
      (hy : y ∈ operands) (hpart : Part x y) : Part x (c.whole operands)

theorem Normal.proper_of_whole (hnormal : (c.whole operands).Normal) :
    c.Proper operands ∧ ∀ x ∈ operands, x.Normal := by
  cases c with
  | both =>
      cases hnormal with
      | all hproper hoperands => exact ⟨hproper, hoperands⟩
  | either =>
      cases hnormal with
      | any hproper hoperands => exact ⟨hproper, hoperands⟩

theorem Normal.of_part (hnormal : y.Normal) (hpart : Part x y) : x.Normal := by
  induction hpart with
  | self => exact hnormal
  | operand hy _ ih => exact ih (hnormal.proper_of_whole.2 _ hy)

theorem normal_meet (hx : x.Normal) (hy : y.Normal) : (x.meet y).Normal :=
  normal_combine (c := both) hx hy

theorem normal_join (hx : x.Normal) (hy : y.Normal) : (x.join y).Normal :=
  normal_combine (c := either) hx hy

theorem normal_meetWith {continuation : Except Fault Constraint}
    (hx : x.Normal) (hcontinuation : ∀ y, continuation = .ok y → y.Normal)
    (hy : x.meetWith continuation = .ok y) : y.Normal := by
  rw [meetWith] at hy
  split at hy
  · obtain rfl := Except.ok.inj hy
    exact hx
  · cases continuation with
    | error fault => cases hy
    | ok z =>
        obtain rfl := Except.ok.inj hy
        exact normal_meet hx (hcontinuation z rfl)

end Constraint

namespace Body

open Constraint

variable {body : Body} {threshold depth : Nat} {block : BlockId}
variable {seen seen' : List BlockId} {verdict : Verdict}

theorem normal_forkVerdict {trueTest falseTest : ArgumentTest} {a b : Verdict}
    (ha : a.constraint.Normal) (hb : b.constraint.Normal) :
    (forkVerdict trueTest falseTest depth a b).constraint.Normal :=
  normal_join (normal_meet (.test trueTest) ha)
    (normal_meet (.test falseTest) hb)

theorem normal_inliningWalk {steps : Nat}
    (hwalk : body.inliningWalk threshold steps block depth seen =
      .ok (verdict, seen')) : verdict.constraint.Normal := by
  induction steps generalizing block depth seen verdict seen' with
  | zero =>
      obtain ⟨rfl, _⟩ := Prod.mk.inj (Except.ok.inj hwalk)
      exact .never
  | succ steps ih =>
      by_cases hblock : block < body.blocks.size
      · rw [inliningWalk_succ hblock] at hwalk
        split at hwalk
        · obtain ⟨rfl, _⟩ := Prod.mk.inj (Except.ok.inj hwalk)
          exact .never
        · split at hwalk
          · obtain ⟨rfl, _⟩ := Prod.mk.inj (Except.ok.inj hwalk)
            exact .never
          · obtain ⟨rfl, _⟩ := Prod.mk.inj (Except.ok.inj hwalk)
            exact .always
          · exact ih hwalk
          · obtain ⟨⟨a, middle⟩, htrue, hwalk⟩ := exists_of_bind hwalk
            obtain ⟨⟨b, last⟩, hfalse, hwalk⟩ := exists_of_bind hwalk
            obtain ⟨rfl, _⟩ := Prod.mk.inj (Except.ok.inj hwalk)
            exact normal_forkVerdict (ih htrue) (ih hfalse)
      · -- a walk to a block that does not exist has no verdict
        rw [inliningWalk, Body.block,
          Array.getElem?_eq_none (Nat.not_lt.mp hblock)] at hwalk
        cases hwalk

theorem normal_inliningVerdict {program : Program} {options : InliningOptions}
    (hverdict : body.inliningVerdict program options = .ok verdict) :
    verdict.constraint.Normal := by
  obtain ⟨definition, _, hverdict⟩ := exists_of_bind hverdict
  split at hverdict
  · obtain rfl := Except.ok.inj hverdict
    exact .never
  · obtain ⟨⟨found, seen⟩, hwalk, hverdict⟩ := exists_of_bind hverdict
    obtain rfl := Except.ok.inj hverdict
    exact normal_inliningWalk hwalk

end Body

namespace Constraint

open Connective

variable {x : Constraint}

/-- What the operations give: put together from decided constraints and tests,
possibly with a continuation that is not always computed, rewritten from any
constraint whatsoever, or found by the inlining walk. -/
inductive Obtained : Constraint → Prop
  | always : Obtained always
  | never : Obtained never
  | test (t : ArgumentTest) : Obtained (test t)
  | meet {x y : Constraint} (hx : Obtained x) (hy : Obtained y) :
      Obtained (x.meet y)
  | meetWith {x y : Constraint} {continuation : Except Fault Constraint}
      (hx : Obtained x)
      (hcontinuation : ∀ z, continuation = .ok z → Obtained z)
      (hy : x.meetWith continuation = .ok y) : Obtained y
  | join {x y : Constraint} (hx : Obtained x) (hy : Obtained y) :
      Obtained (x.join y)
  | removeArguments (x : Constraint) (removals : Removals) :
      Obtained (x.removeArguments removals)
  | unboxArguments (x : Constraint) (indices : List Nat) :
      Obtained (x.unboxArguments indices)
  | inliningVerdict {body : Body} {program : Program}
      {options : InliningOptions} {verdict : Verdict}
      (hverdict : body.inliningVerdict program options = .ok verdict) :
      Obtained verdict.constraint

theorem Obtained.normal (hobtained : x.Obtained) : x.Normal := by
  induction hobtained with
  | always => exact .always
  | never => exact .never
  | test t => exact .test t
  | meet _ _ hx hy => exact normal_meet hx hy
  | meetWith _ _ hy hx hcontinuation => exact normal_meetWith hx hcontinuation hy
  | join _ _ hx hy => exact normal_join hx hy
  | removeArguments x removals =>
      exact normal_substitute removals.normal_apply x
  | unboxArguments x indices =>
      rw [unboxArguments_eq]
      exact normal_substitute (fun _ => .test _) x
  | inliningVerdict hverdict => exact Body.normal_inliningVerdict hverdict

/-- Every conjunction and every disjunction in a constraint that the operations
give, at any depth, has several operands, none of them decided or of its own
kind, in ascending order, and no test together with its complement. -/
theorem operands_of_obtained (hobtained : x.Obtained) {c : Connective}
    {operands : List Constraint} (hpart : Part (c.whole operands) x) :
    2 ≤ operands.length ∧
      (∀ y ∈ operands, y ≠ always ∧ y ≠ never ∧
        ∀ others, y ≠ c.whole others) ∧
      operands.Pairwise (fun y z => compare y z = .lt) ∧
      ∀ t, test t ∈ operands → test t.complement ∉ operands := by
  have hproper : c.Proper operands :=
    (hobtained.normal.of_part hpart).proper_of_whole.1
  refine ⟨hproper.several, hproper.operand, hproper.ascending, ?_⟩
  intro t ht hcomplement
  have hcontra := hasContradiction_eq_true.mpr ⟨t, ht, hcomplement⟩
  rw [hproper.consistent] at hcontra
  cases hcontra

/-- A constraint as no operation gives it: out of order, with repetitions, with
a single operand, and with conjunctions right inside a conjunction. -/
def disordered : Constraint :=
  all [any [test ⟨2, .isTrue⟩, any [test ⟨1, .equal 3⟩, test ⟨0, .null⟩]],
    all [test ⟨2, .isFalse⟩], test ⟨1, .null⟩, test ⟨1, .equal 0⟩]

theorem disordered_operands :
    (disordered.unboxArguments [0, 1]).Obtained ∧
    Part (any [test ⟨0, .equal 0⟩, test ⟨1, .equal 3⟩, test ⟨2, .isTrue⟩])
      (disordered.unboxArguments [0, 1]) ∧
    (∀ y ∈ [test ⟨0, .equal 0⟩, test ⟨1, .equal 3⟩, test ⟨2, .isTrue⟩],
      y ≠ always ∧ y ≠ never ∧ ∀ others, y ≠ any others) ∧
    compare (test ⟨0, .equal 0⟩) (test ⟨1, .equal 3⟩) = .lt := by
  have hunboxed : disordered.unboxArguments [0, 1] =
      both.whole [test ⟨1, .equal 0⟩, test ⟨2, .isFalse⟩, either.whole
        [test ⟨0, .equal 0⟩, test ⟨1, .equal 3⟩, test ⟨2, .isTrue⟩]] := rfl
  have hobtained : (disordered.unboxArguments [0, 1]).Obtained :=
    .unboxArguments disordered [0, 1]
  have hpart : Part (either.whole
      [test ⟨0, .equal 0⟩, test ⟨1, .equal 3⟩, test ⟨2, .isTrue⟩])
      (disordered.unboxArguments [0, 1]) := by
    rw [hunboxed]
    exact .operand (by simp) (.self _)
  obtain ⟨_, hoperands, hascending, _⟩ := operands_of_obtained hobtained hpart
  exact ⟨hobtained, hpart, hoperands, List.rel_of_pairwise_cons hascending
    List.mem_cons_self⟩

end Constraint

end FlowFacts
