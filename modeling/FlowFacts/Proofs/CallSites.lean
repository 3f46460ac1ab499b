/-
Constraints at a call.  A test counts there only if the caller shows that the
argument passes, so a test and its complement may both fail to count.  What
counts is right for all numbers that the arguments can be, and the connectives
keep to it, as long as no argument shows a test together with its complement.
Tests are asked one after the other, so an argument that is a copy without an
end keeps a constraint from being decided even where a later test passes.
-/
import FlowFacts.Inlining.Signature
import FlowFacts.Proofs.CopyChains
import FlowFacts.Proofs.RecognizedTests
import FlowFacts.Proofs.Substitution

namespace FlowFacts

namespace Constraint

variable {truth : ArgumentTest → Bool} {a b : Constraint}
variable {operands : List Constraint}

/-- No test counts together with its complement. -/
def Exclusive (truth : ArgumentTest → Bool) : Prop :=
  ∀ t, truth t = true → truth t.complement = false

theorem eval_of_conjunction (htrue : (conjunction operands).eval truth = true) :
    ∀ operand ∈ operands, operand.eval truth = true := by
  have hall : ∀ {sorted}, ordered operands = sorted →
      (all sorted).eval truth = true →
        ∀ operand ∈ operands, operand.eval truth = true := by
    rintro _ rfl hsorted operand hmem
    exact evalAll_eq_true.mp hsorted operand (mem_ordered.mpr hmem)
  simp only [conjunction] at htrue
  split at htrue
  · cases htrue
  · split at htrue
    · next single hsingle =>
        apply hall hsingle
        simpa [eval, evalAll] using htrue
    · exact hall rfl htrue

/-- Operands that all hold contain no test with its complement, so nothing is
cancelled. -/
theorem eval_conjunction_of_exclusive (hexclusive : Exclusive truth)
    (htrue : ∀ operand ∈ operands, operand.eval truth = true) :
    (conjunction operands).eval truth = true := by
  have hconsistent : hasContradiction (ordered operands) = false := by
    rw [Bool.eq_false_iff, ne_eq, hasContradiction_eq_true]
    rintro ⟨t, hmem, hcomplement⟩
    have ht : truth t = true := htrue _ (mem_ordered.mp hmem)
    have hc : truth t.complement = true := htrue _ (mem_ordered.mp hcomplement)
    rw [hexclusive t ht] at hc
    cases hc
  have htrue : ∀ operand ∈ ordered operands, operand.eval truth = true :=
    fun operand hmem => htrue operand (mem_ordered.mp hmem)
  simp only [conjunction, hconsistent, Bool.false_eq_true, ↓reduceIte]
  split
  · next single hsingle => exact htrue single (by simp [hsingle])
  · exact evalAll_eq_true.mpr htrue

/-- One operand that holds is enough; where a test is cancelled against its
complement, nothing is asked for any more. -/
theorem eval_disjunction_of_mem {operand : Constraint}
    (hmem : operand ∈ operands) (htrue : operand.eval truth = true) :
    (disjunction operands).eval truth = true := by
  have hmem : operand ∈ ordered operands := mem_ordered.mpr hmem
  rw [disjunction]
  split
  · rfl
  · split
    · next single hsingle =>
        rw [hsingle, List.mem_singleton] at hmem
        exact hmem ▸ htrue
    · exact evalAny_eq_true.mpr ⟨operand, hmem, htrue⟩

theorem eval_meet_of_exclusive (hexclusive : Exclusive truth) :
    (a.meet b).eval truth = true ↔
      a.eval truth = true ∧ b.eval truth = true := by
  fun_cases meet a b with
  | case5 =>
      rw [← forall_conjuncts (a := a), ← forall_conjuncts (a := b),
        ← List.forall_mem_append]
      exact ⟨eval_of_conjunction, eval_conjunction_of_exclusive hexclusive⟩
  | _ => simp [eval]

theorem eval_join_of_or
    (htrue : a.eval truth = true ∨ b.eval truth = true) :
    (a.join b).eval truth = true := by
  fun_cases join a b with
  | case5 =>
      rw [← exists_disjuncts (a := a), ← exists_disjuncts (a := b)] at htrue
      rcases htrue with ⟨operand, hmem, htrue⟩ | ⟨operand, hmem, htrue⟩
      · exact eval_disjunction_of_mem (List.mem_append_left _ hmem) htrue
      · exact eval_disjunction_of_mem (List.mem_append_right _ hmem) htrue
  | _ => simp_all [eval]

end Constraint

/-- A number does not pass a test together with its complement. -/
theorem Predicate.admits_complement {predicate : Predicate} {number : Int}
    (hadmits : predicate.admits number = true) :
    predicate.complement.admits number = false := by
  cases predicate <;> simp_all [admits, complement]

namespace Body

variable {body : Body} {value : ValueId} {arguments : List ValueId}
variable {predicate : Predicate} {assignment : Nat → Int}

/-- The number behind the value behind all copies is the number of the value
itself. -/
theorem number?_of_root {number : Int}
    (hnumber : body.number? (body.root value) = some number) :
    body.number? value = some number := by
  have hsame : ∀ {opcode : Opcode}, opcode.copied? = none →
      body.rootOpcode? (body.root value) = some opcode →
        body.rootOpcode? value = some opcode :=
    fun hcopied hroot => definingOpcode?_root hroot hcopied
  rw [number?] at hnumber
  split at hnumber
  · next found hroot => rw [number?, hsame rfl hroot]; exact hnumber
  · next hroot => rw [number?, hsame rfl hroot]; exact hnumber
  · cases hnumber

/-- Numbers that the arguments of a call can be, as far as the caller shows:
constants are themselves, what is typed as null is zero, and what is typed as
never null is not. -/
structure Allows (body : Body) (arguments : List ValueId)
    (assignment : Nat → Int) : Prop where
  constant : ∀ {index argument number}, arguments[index]? = some argument →
    body.number? argument = some number → assignment index = number
  null : ∀ {index argument}, arguments[index]? = some argument →
    (body.typeOf (body.root argument)).nullability = .null →
      assignment index = 0
  nonNull : ∀ {index argument}, arguments[index]? = some argument →
    (body.typeOf (body.root argument)).isNonNull = true →
      assignment index ≠ 0

/-- The value is the null constant, and yet typed as never null. -/
def IsMistypedNull (body : Body) (value : ValueId) : Prop :=
  body.rootOpcode? value = some .null ∧
    (body.typeOf (body.root value)).isNonNull = true

instance : Decidable (body.IsMistypedNull value) :=
  inferInstanceAs (Decidable (_ ∧ _))

/-- Does the caller show that the argument passes the test? -/
def shows (body : Body) (arguments : List ValueId) (t : ArgumentTest) : Bool :=
  arguments[t.index]?.any (t.predicate.admitsValue body ·)

theorem shows_eq_true {t : ArgumentTest} :
    body.shows arguments t = true ↔ ∃ argument,
      arguments[t.index]? = some argument ∧
        t.predicate.admitsValue body argument = true :=
  Option.any_eq_true _ _

/-- What a caller shows of an argument is right for all numbers that the
argument can be. -/
theorem Allows.admits (hallows : body.Allows arguments assignment) {index : Nat}
    (hargument : arguments[index]? = some value)
    (hadmits : predicate.admitsValue body value = true) :
    predicate.admits (assignment index) = true := by
  have hconstant : (body.number? (body.root value)).any predicate.admits =
      true → predicate.admits (assignment index) = true := by
    intro hany
    obtain ⟨number, hnumber, hpasses⟩ := (Option.any_eq_true _ _).mp hany
    rwa [hallows.constant hargument (number?_of_root hnumber)]
  cases predicate with
  | null =>
      rcases Bool.or_eq_true_iff.mp hadmits with htype | hnull
      · exact beq_iff_eq.mpr (hallows.null hargument (beq_iff_eq.mp htype))
      · have hroot : body.rootOpcode? value = some .null := beq_iff_eq.mp hnull
        have hnumber : body.number? value = some 0 := by rw [number?, hroot]
        exact beq_iff_eq.mpr (hallows.constant hargument hnumber)
  | nonNull => exact bne_iff_ne.mpr (hallows.nonNull hargument hadmits)
  | _ => exact hconstant hadmits

/-- A value that is no mistyped null does not show a test together with its
complement. -/
theorem not_admitsValue_complement (htyped : ¬ body.IsMistypedNull value)
    (hadmits : predicate.admitsValue body value = true) :
    predicate.complement.admitsValue body value = false := by
  have hapart : Predicate.null.admitsValue body value = true →
      (body.typeOf (body.root value)).isNonNull = true → False := by
    intro hnull hnonNull
    rcases Bool.or_eq_true_iff.mp hnull with htype | hroot
    · have htype := beq_iff_eq.mp htype
      cases hreference : body.typeOf (body.root value) <;>
        simp_all [StaticType.isNonNull, StaticType.nullability]
    · exact htyped ⟨beq_iff_eq.mp hroot, hnonNull⟩
  have hnumber : (body.number? (body.root value)).any predicate.admits =
      true → (body.number? (body.root value)).any predicate.complement.admits =
        false := by
    intro hany
    obtain ⟨number, hnumber, hpasses⟩ := (Option.any_eq_true _ _).mp hany
    rw [hnumber]
    exact Predicate.admits_complement hpasses
  cases predicate with
  | null => exact Bool.eq_false_iff.mpr (hapart hadmits)
  | nonNull => exact Bool.eq_false_iff.mpr fun hnull => hapart hnull hadmits
  | _ => exact hnumber hadmits

theorem exclusive_shows
    (htyped : ∀ argument ∈ arguments, ¬ body.IsMistypedNull argument) :
    Constraint.Exclusive (body.shows arguments) := by
  intro t hshows
  obtain ⟨argument, hargument, hadmits⟩ := shows_eq_true.mp hshows
  have hcomplement := not_admitsValue_complement
    (htyped argument (List.mem_of_getElem? hargument)) hadmits
  change arguments[t.index]?.any _ = false
  rw [hargument]
  exact hcomplement

end Body

theorem Predicate.admitsValue_resolved {predicate : Predicate} {body : Body}
    {value last : ValueId} (hlast : body.Resolves value last) :
    predicate.admitsValue body value = predicate.admitsValue body last := by
  have hvalue : body.root value = last :=
    Body.root_eq_of_chain hlast.1 hlast.2
  have hself : body.root last = last := Body.root_eq_of_chain .refl hlast.2
  cases predicate <;> simp only [admitsValue, hvalue, hself]

namespace Constraint

variable {truth : ArgumentTest → Bool} {operands : List Constraint}
variable {x y : Constraint} {body : Body} {call : InstrId} {kind : CallKind}
variable {method : MethodId} {arguments : List ValueId}

theorem holdsAt_eq_ok (hcall : body.opcode call = .call kind method arguments) :
    x.holdsAt body call = .ok (x.eval (body.shows arguments)) := by
  rw [holdsAt, Body.instruction]
  rw [Body.opcode] at hcall
  split at hcall
  · simp only [bind, Except.bind, hcall]
    rfl
  · cases hcall

/-- What a constraint comes to at a call: operands are asked in turn, as far as
needed, and the copies of an argument are followed without a limit. -/
inductive Settles (body : Body) (arguments : List ValueId) :
    Constraint → Bool → Prop where
  | always : Settles body arguments always true
  | never : Settles body arguments never false
  | absent {t : ArgumentTest} (hnone : arguments[t.index]? = none) :
      Settles body arguments (test t) false
  | test {t : ArgumentTest} {argument last : ValueId}
      (hargument : arguments[t.index]? = some argument)
      (hlast : body.Resolves argument last) :
      Settles body arguments (test t) (t.predicate.admitsValue body last)
  | allDone : Settles body arguments (all []) true
  | allStop {operand : Constraint} {rest : List Constraint}
      (hfails : Settles body arguments operand false) :
      Settles body arguments (all (operand :: rest)) false
  | allNext {operand : Constraint} {rest : List Constraint} {answer : Bool}
      (hholds : Settles body arguments operand true)
      (hrest : Settles body arguments (all rest) answer) :
      Settles body arguments (all (operand :: rest)) answer
  | anyDone : Settles body arguments (any []) false
  | anyStop {operand : Constraint} {rest : List Constraint}
      (hholds : Settles body arguments operand true) :
      Settles body arguments (any (operand :: rest)) true
  | anyNext {operand : Constraint} {rest : List Constraint} {answer : Bool}
      (hfails : Settles body arguments operand false)
      (hrest : Settles body arguments (any rest) answer) :
      Settles body arguments (any (operand :: rest)) answer

theorem Settles.eval_eq {answer : Bool} (hsettles : Settles body arguments x answer) :
    x.eval (body.shows arguments) = answer := by
  induction hsettles with
  | absent hnone => simp [eval, Body.shows, hnone]
  | test hargument hlast =>
      rw [eval, Body.shows, hargument, Option.any_some]
      exact Predicate.admitsValue_resolved hlast
  | _ => simp_all [eval, evalAll, evalAny]

theorem settles_all (hoperands : ∀ operand ∈ operands,
    Settles body arguments operand (operand.eval truth)) :
    Settles body arguments (all operands) (evalAll truth operands) := by
  induction operands with
  | nil => exact .allDone
  | cons operand rest ih =>
      obtain ⟨hfirst, hrest⟩ := List.forall_mem_cons.mp hoperands
      rw [evalAll]
      cases hanswer : operand.eval truth with
      | false => exact .allStop (hanswer ▸ hfirst)
      | true => exact .allNext (hanswer ▸ hfirst) (ih hrest)

theorem settles_any (hoperands : ∀ operand ∈ operands,
    Settles body arguments operand (operand.eval truth)) :
    Settles body arguments (any operands) (evalAny truth operands) := by
  induction operands with
  | nil => exact .anyDone
  | cons operand rest ih =>
      obtain ⟨hfirst, hrest⟩ := List.forall_mem_cons.mp hoperands
      rw [evalAny]
      cases hanswer : operand.eval truth with
      | false => exact .anyNext (hanswer ▸ hfirst) (ih hrest)
      | true => exact .anyStop (hanswer ▸ hfirst)

/-- Where the copies of all arguments end, every constraint is decided. -/
theorem settles_eval
    (hends : ∀ argument ∈ arguments, ∃ last, body.Resolves argument last) :
    Settles body arguments x (x.eval (body.shows arguments)) := by
  induction x using induct_whole with
  | always => exact .always
  | never => exact .never
  | test t =>
      rw [eval, Body.shows]
      cases hargument : arguments[t.index]? with
      | none => exact .absent hargument
      | some argument =>
          obtain ⟨last, hlast⟩ := hends argument (List.mem_of_getElem? hargument)
          rw [Option.any_some, Predicate.admitsValue_resolved hlast]
          exact .test hargument hlast
  | whole c operands ih =>
      cases c with
      | both => exact settles_all ih
      | either => exact settles_any ih

/-- A constraint that holds at a call holds for all numbers that the arguments
can be.  Where the copies of the arguments end, it is decided without a limit,
a disjunction holds where one side does, and a conjunction holds exactly where
both sides do, if no argument is a null that is typed as never null. -/
theorem holdsAt_sound_and_connectives
    (hcall : body.opcode call = .call kind method arguments) :
    (x.holdsAt body call = .ok true → ∀ assignment,
      body.Allows arguments assignment → x.satisfiedBy assignment = true) ∧
    ((∀ argument ∈ arguments, ∃ last, body.Resolves argument last) →
      (∀ (z : Constraint) answer,
        z.holdsAt body call = .ok answer ↔ Settles body arguments z answer) ∧
      (x.holdsAt body call = .ok true ∨ y.holdsAt body call = .ok true →
        (x.join y).holdsAt body call = .ok true) ∧
      ((∀ argument ∈ arguments, ¬ body.IsMistypedNull argument) →
        ((x.meet y).holdsAt body call = .ok true ↔
          x.holdsAt body call = .ok true ∧
            y.holdsAt body call = .ok true))) := by
  simp only [holdsAt_eq_ok hcall, Except.ok.injEq]
  refine ⟨?_, fun hends => ⟨?_, eval_join_of_or, ?_⟩⟩
  · intro hholds assignment hallows
    refine eval_mono (fun t _ hshows => ?_) hholds
    obtain ⟨argument, hargument, hadmits⟩ := Body.shows_eq_true.mp hshows
    exact hallows.admits hargument hadmits
  · intro z answer
    exact ⟨fun heval => heval ▸ settles_eval hends, Settles.eval_eq⟩
  · intro htyped
    exact eval_meet_of_exclusive (Body.exclusive_shows htyped)

end Constraint

/-- A call with a copied number, a null, an object and an argument of which
nothing is known. -/
def Body.callWithFour : Body where
  method := 0
  isStatic := true
  values := #[
    { type := .primitive .int, definition := .instruction 0, users := [1] },
    { type := .primitive .int, definition := .instruction 1, users := [5] },
    { type := .nullConstant, definition := .instruction 2, users := [5] },
    { type := .reference (.object 0) .nonNull, definition := .instruction 3,
      users := [5] },
    { type := .reference (.object 0) .maybe, definition := .instruction 4,
      users := [5] }]
  instructions := #[⟨0, .number 1, some 0⟩, ⟨0, .move 0, some 1⟩,
    ⟨0, .null, some 2⟩, ⟨0, .argument 0, some 3⟩, ⟨0, .argument 1, some 4⟩,
    ⟨0, .call .static 0 [1, 2, 3, 4], none⟩, ⟨0, .ret none, none⟩]
  blocks := #[⟨[0, 1, 2, 3, 4, 5, 6], [], []⟩]
  positions := #[0, 1, 2, 3, 4, 5, 6]
  incoming := #[[]]

namespace Constraint

def trueOrNull : Constraint :=
  any [test ⟨0, .isTrue⟩, test ⟨3, .null⟩]

/-- The last argument is an object, or the two before it are null and an
object. -/
def objectAtEnd : Constraint :=
  any [test ⟨3, .nonNull⟩, all [test ⟨1, .null⟩, test ⟨2, .nonNull⟩]]

/-- Numbers that the four arguments can be. -/
theorem callWithFour_allows : Body.callWithFour.Allows [1, 2, 3, 4]
    fun index => if index = 0 then 1 else if index = 1 then 0 else 5 where
  constant := by
    intro index argument number hargument hnumber
    match index with
    | 0 | 1 | 2 | 3 =>
        obtain rfl := Option.some.inj hargument
        decide +revert
  null := by
    intro index argument hargument hnull
    match index with
    | 0 | 1 | 2 | 3 =>
        obtain rfl := Option.some.inj hargument
        revert hnull
        decide
  nonNull := by
    intro index argument hargument hnonNull
    match index with
    | 0 | 1 | 2 | 3 =>
        obtain rfl := Option.some.inj hargument
        revert hnonNull
        decide

/-- Each of the two constraints has an operand that the caller does not show,
and between them they have a test and its complement. -/
theorem callWithFour_holdsAt :
    Body.callWithFour.opcode 5 = .call .static 0 [1, 2, 3, 4] ∧
    (∀ argument ∈ [1, 2, 3, 4],
      ∃ last, Body.callWithFour.Resolves argument last) ∧
    (∀ argument ∈ [1, 2, 3, 4],
      ¬ Body.callWithFour.IsMistypedNull argument) ∧
    trueOrNull.holdsAt Body.callWithFour 5 = .ok true ∧
    objectAtEnd.holdsAt Body.callWithFour 5 = .ok true ∧
    (∃ assignment, Body.callWithFour.Allows [1, 2, 3, 4] assignment ∧
      trueOrNull.satisfiedBy assignment = true) ∧
    Settles Body.callWithFour [1, 2, 3, 4] trueOrNull true ∧
    (trueOrNull.join objectAtEnd).holdsAt Body.callWithFour 5 = .ok true ∧
    (trueOrNull.meet objectAtEnd).holdsAt Body.callWithFour 5 = .ok true := by
  have hends : Body.callWithFour.CopiesEnd := Body.copiesEnd_of_root (by decide)
  have hends : ∀ argument ∈ [1, 2, 3, 4],
      ∃ last, Body.callWithFour.Resolves argument last :=
    fun argument _ => ⟨_, hends.resolves argument⟩
  have htyped : ∀ argument ∈ [1, 2, 3, 4],
      ¬ Body.callWithFour.IsMistypedNull argument := by decide
  have htrue : trueOrNull.holdsAt Body.callWithFour 5 = .ok true := by decide
  have hobject : objectAtEnd.holdsAt Body.callWithFour 5 = .ok true := by decide
  obtain ⟨hsound, hrest⟩ := holdsAt_sound_and_connectives
    (x := trueOrNull) (y := objectAtEnd)
    (show Body.callWithFour.opcode 5 = .call .static 0 [1, 2, 3, 4] from rfl)
  obtain ⟨hexact, hjoin, hmeet⟩ := hrest hends
  exact ⟨rfl, hends, htyped, htrue, hobject,
    ⟨_, callWithFour_allows, hsound htrue _ callWithFour_allows⟩,
    (hexact _ _).mp htrue, hjoin (Or.inl htrue),
    (hmeet htyped).mpr ⟨htrue, hobject⟩⟩

end Constraint

/-- A call with a copy of itself and a number. -/
def Body.callWithCircle : Body where
  method := 0
  isStatic := true
  values := #[
    { type := .primitive .int, definition := .instruction 0, users := [0, 2] },
    { type := .primitive .int, definition := .instruction 1, users := [2] }]
  instructions := #[⟨0, .move 0, some 0⟩, ⟨0, .number 1, some 1⟩,
    ⟨0, .call .static 0 [0, 1], none⟩, ⟨0, .ret none, none⟩]
  blocks := #[⟨[0, 1, 2, 3], [], []⟩]
  positions := #[0, 1, 2, 3]
  incoming := #[[]]

namespace Constraint

theorem callWithCircle_not_settles (t : ArgumentTest) (hindex : t.index = 0) :
    ¬ ∃ answer, Settles Body.callWithCircle [0, 1] (test t) answer := by
  rintro ⟨answer, hsettles⟩
  cases hsettles with
  | absent hnone => rw [hindex] at hnone; cases hnone
  | test hargument hlast =>
      rw [hindex] at hargument
      obtain rfl := Option.some.inj hargument
      exact Body.not_circle_of_end hlast.1 hlast.2 (.single rfl)

/-- The second argument passes its test, but the join asks for the first one
before, and the meet asks for the first one though the second one fails. -/
theorem callWithCircle_join_endless :
    Body.callWithCircle.Accepted ∧
    Body.callWithCircle.opcode 2 = .call .static 0 [0, 1] ∧
    Settles Body.callWithCircle [0, 1] (test ⟨1, .isTrue⟩) true ∧
    (¬ ∃ answer, Settles Body.callWithCircle [0, 1]
      ((test ⟨1, .isTrue⟩).join (test ⟨0, .isTrue⟩)) answer) ∧
    Settles Body.callWithCircle [0, 1] (test ⟨1, .isFalse⟩) false ∧
    ¬ ∃ answer, Settles Body.callWithCircle [0, 1]
      ((test ⟨1, .isFalse⟩).meet (test ⟨0, .isTrue⟩)) answer := by
  have haccepted : Body.callWithCircle.Accepted :=
    ⟨0, true, [.block, .value 0 (.move 0) (.primitive .int),
      .value 0 (.number 1) (.primitive .int),
      .push 0 (.call .static 0 [0, 1]), .push 0 (.ret none)],
      _, _, rfl, by decide +kernel⟩
  have hjoin : (test ⟨1, .isTrue⟩).join (test ⟨0, .isTrue⟩) =
      any [test ⟨0, .isTrue⟩, test ⟨1, .isTrue⟩] := rfl
  have hmeet : (test ⟨1, .isFalse⟩).meet (test ⟨0, .isTrue⟩) =
      all [test ⟨0, .isTrue⟩, test ⟨1, .isFalse⟩] := rfl
  have hfirst := callWithCircle_not_settles ⟨0, .isTrue⟩ rfl
  have hsecond : Body.callWithCircle.Resolves 1 1 := ⟨.refl, rfl⟩
  refine ⟨haccepted, rfl, .test rfl hsecond, ?_, .test rfl hsecond, ?_⟩
  · rw [hjoin]
    rintro ⟨answer, hsettles⟩
    cases hsettles with
    | anyStop hholds => exact hfirst ⟨_, hholds⟩
    | anyNext hfails _ => exact hfirst ⟨_, hfails⟩
  · rw [hmeet]
    rintro ⟨answer, hsettles⟩
    cases hsettles with
    | allStop hfails => exact hfirst ⟨_, hfails⟩
    | allNext hholds _ => exact hfirst ⟨_, hholds⟩

end Constraint

end FlowFacts
