/-
Trivial exits.  A body run under an assignment of its arguments follows jumps
and decides tests of single arguments.  If the assignment satisfies the
constraint that the inlining walk computes, the run ends in a return or an
uncaught throw, within the number of instructions that the walk has counted.
-/
import FlowFacts.Inlining.Walk
import FlowFacts.Proofs.Accepted
import FlowFacts.Proofs.Copies
import FlowFacts.Proofs.ConstraintMeaning

namespace FlowFacts

/-- Instructions that count on the way to an exit: all that do something and
do not end a block. -/
def Opcode.isCounted : Opcode → Bool
  | argument _ | refine _ | position => false
  | goto _ | branch .. | ret _ | throw _ => false
  | _ => true

theorem Opcode.isCounted_eq (opcode : Opcode) :
    opcode.isCounted = (!opcode.isTerminator && !opcode.isUncounted) := by
  cases opcode <;> rfl

theorem Opcode.mem_targets_branch {comparison : Comparison} {left : ValueId}
    {right : Option ValueId} {whenTrue whenFalse target : BlockId} :
    target ∈ (branch comparison left right whenTrue whenFalse).targets ↔
      target = whenTrue ∨ target = whenFalse := by
  rw [targets]
  split
  · next heq => simp [heq]
  · simp

namespace Body

variable {body : Body} {assignment : Nat → Int} {block : BlockId}
variable {left : ValueId} {right : Option ValueId}

def IsArgument (body : Body) (value : ValueId) (index : Nat) : Prop :=
  body.Origin value (.argument index) ∧ (body.isStatic = true ∨ index ≠ 0)

def IsNumber (body : Body) (value : ValueId) (number : Int) : Prop :=
  body.Origin value (.number number) ∨
    body.Origin value .null ∧ number = 0

/-- The operands of a branch are an argument and a number. -/
inductive Compares (body : Body) :
    ValueId → Option ValueId → Nat → Int → Prop
  | zero {left : ValueId} {index : Nat} (hleft : body.IsArgument left index) :
      Compares body left none index 0
  | right {left right : ValueId} {index : Nat} {number : Int}
      (hleft : body.IsArgument left index)
      (hright : body.IsNumber right number) :
      Compares body left (some right) index number
  | left {left right : ValueId} {index : Nat} {number : Int}
      (hleft : body.IsNumber left number)
      (hright : body.IsArgument right index) :
      Compares body left (some right) index number

def counted (body : Body) (block : BlockId) : Nat :=
  (body.instructionsOf block).countP fun instr => (body.opcode instr).isCounted

/-- Run from a block under an assignment of the arguments, the body comes to
an exit after this many instructions.  The only branches on the way compare an
argument with a number for equality. -/
inductive Exits (body : Body) (assignment : Nat → Int) : BlockId → Nat → Prop
  | ret {block : BlockId} {last : InstrId} {value : Option ValueId}
      (hlast : body.lastOf? block = some last)
      (hopcode : body.opcode last = .ret value) :
      Exits body assignment block (body.counted block)
  | throw {block : BlockId} {last : InstrId} {exception : ValueId}
      (hlast : body.lastOf? block = some last)
      (hopcode : body.opcode last = .throw exception)
      (huncaught : body.handlersOf block = []) :
      Exits body assignment block (body.counted block)
  | goto {block target : BlockId} {last : InstrId} {count : Nat}
      (hlast : body.lastOf? block = some last)
      (hopcode : body.opcode last = .goto target)
      (hrest : Exits body assignment target count) :
      Exits body assignment block (body.counted block + count)
  | branch {block whenTrue whenFalse : BlockId} {last : InstrId}
      {comparison : Comparison} {left : ValueId} {right : Option ValueId}
      {index count : Nat} {number : Int}
      (hlast : body.lastOf? block = some last)
      (hopcode : body.opcode last =
        .branch comparison left right whenTrue whenFalse)
      (hcomparison : comparison = .eq ∨ comparison = .ne)
      (hcompares : body.Compares left right index number)
      (hrest : Exits body assignment
        (if assignment index = number ↔ comparison = .eq then whenTrue
          else whenFalse) count) :
      Exits body assignment block (body.counted block + count)

/-- Arguments declared as truth values have truth values. -/
def FitsTypes (body : Body) (assignment : Nat → Int) : Prop :=
  ∀ value index, body.definingOpcode? value = some (.argument index) →
    (body.typeOf value).isBoolean = true →
      assignment index = 0 ∨ assignment index = 1

theorem IsArgument.unique {value : ValueId} {index other : Nat}
    (hindex : body.IsArgument value index)
    (hother : body.IsArgument value other) : index = other :=
  Opcode.argument.inj (hindex.1.unique hother.1)

theorem IsNumber.unique {value : ValueId} {number other : Int}
    (hnumber : body.IsNumber value number)
    (hother : body.IsNumber value other) : number = other := by
  rcases hnumber with hnumber | ⟨hnull, rfl⟩
  · rcases hother with hother | ⟨hnull, _⟩
    · exact Opcode.number.inj (hnumber.unique hother)
    · exact absurd (hnumber.unique hnull) (by simp)
  · rcases hother with hother | ⟨_, rfl⟩
    · exact absurd (hother.unique hnull) (by simp)
    · rfl

theorem IsNumber.not_isArgument {value : ValueId} {number : Int} {index : Nat}
    (hnumber : body.IsNumber value number) : ¬ body.IsArgument value index := by
  intro hargument
  rcases hnumber with hnumber | ⟨hnull, _⟩
  · exact absurd (hnumber.unique hargument.1) (by simp)
  · exact absurd (hnull.unique hargument.1) (by simp)

theorem Compares.unique {index index' : Nat} {number number' : Int}
    (hcompares : body.Compares left right index number)
    (hother : body.Compares left right index' number') :
    index = index' ∧ number = number' := by
  cases hcompares with
  | zero hleft =>
      cases hother with
      | zero hleft' => exact ⟨hleft.unique hleft', rfl⟩
  | right hleft hright =>
      cases hother with
      | right hleft' hright' =>
          exact ⟨hleft.unique hleft', hright.unique hright'⟩
      | left hleft' _ => exact absurd hleft hleft'.not_isArgument
  | left hleft hright =>
      cases hother with
      | right hleft' _ => exact absurd hleft' hleft.not_isArgument
      | left hleft' hright' =>
          exact ⟨hright.unique hright', hleft.unique hleft'⟩

/-- A block ends in one way only. -/
theorem opcode_eq_of_lastOf? {last last' : InstrId} {opcode opcode' : Opcode}
    (hlast : body.lastOf? block = some last)
    (hopcode : body.opcode last = opcode)
    (hlast' : body.lastOf? block = some last')
    (hopcode' : body.opcode last' = opcode') : opcode = opcode' := by
  rw [hlast, Option.some.injEq] at hlast'
  rw [← hopcode, hlast', hopcode']

/-- The assignment determines the run. -/
theorem Exits.unique {count other : Nat}
    (hexits : body.Exits assignment block count)
    (hother : body.Exits assignment block other) : count = other := by
  induction hexits generalizing other with
  | ret hlast hopcode | throw hlast hopcode =>
      cases hother with
      | ret | throw => rfl
      | goto hlast' hopcode' | branch hlast' hopcode' =>
          cases opcode_eq_of_lastOf? hlast hopcode hlast' hopcode'
  | goto hlast hopcode _ ih =>
      cases hother with
      | ret hlast' hopcode' | throw hlast' hopcode' | branch hlast' hopcode' =>
          cases opcode_eq_of_lastOf? hlast hopcode hlast' hopcode'
      | goto hlast' hopcode' hrest =>
          obtain rfl := Opcode.goto.inj
            (opcode_eq_of_lastOf? hlast hopcode hlast' hopcode')
          rw [ih hrest]
  | branch hlast hopcode _ hcompares _ ih =>
      cases hother with
      | ret hlast' hopcode' | throw hlast' hopcode' | goto hlast' hopcode' =>
          cases opcode_eq_of_lastOf? hlast hopcode hlast' hopcode'
      | branch hlast' hopcode' _ hcompares' hrest =>
          obtain ⟨rfl, rfl, rfl, rfl, rfl⟩ := Opcode.branch.inj
            (opcode_eq_of_lastOf? hlast hopcode hlast' hopcode')
          obtain ⟨rfl, rfl⟩ := hcompares.unique hcompares'
          rw [ih hrest]

theorem IsNumber.of_number? {value : ValueId} {number : Int}
    (hnumber : body.number? value = some number) :
    body.IsNumber value number := by
  rw [number?] at hnumber
  split at hnumber
  · next found hroot =>
      obtain rfl := Option.some.inj hnumber
      exact Or.inl (.of_follow hroot rfl)
  · next hroot =>
      obtain rfl := Option.some.inj hnumber
      exact Or.inr ⟨.of_follow hroot rfl, rfl⟩
  · cases hnumber

/-- The tested argument is what the operand stands for, and it is defined as
that argument itself. -/
theorem testedArgument?_eq_some {value argument : ValueId} {index : Nat}
    (htested : body.testedArgument? value = some (argument, index)) :
    body.IsArgument value index ∧
      body.definingOpcode? argument = some (.argument index) := by
  simp only [testedArgument?] at htested
  split at htested
  · next found hargument =>
      split at htested
      · cases htested
      · next hreceiver =>
          obtain ⟨rfl, rfl⟩ := Prod.mk.inj (Option.some.inj htested)
          have hroot : body.rootOpcode? (body.root value) =
              some (.argument found) := by
            rw [argument?] at hargument
            split at hargument
            · next index hroot =>
                rw [hroot, Option.some.inj hargument]
            · cases hargument
          have hdefined := definingOpcode?_root hroot rfl
          refine ⟨⟨.of_follow hdefined rfl, ?_⟩, hdefined⟩
          rw [isReceiver, hargument] at hreceiver
          cases hstatic : body.isStatic with
          | true => exact Or.inl rfl
          | false =>
              right
              simpa [hstatic] using hreceiver
  · cases htested

/-- Tests for truth values are tests of arguments declared as such. -/
def TestsTruthValues (body : Body) (tests : List ArgumentTest) : Prop :=
  ∀ t ∈ tests, t.predicate = .isTrue ∨ t.predicate = .isFalse →
    ∃ value, body.definingOpcode? value = some (.argument t.index) ∧
      (body.typeOf value).isBoolean = true

theorem TestsTruthValues.opposed {tests : List ArgumentTest}
    (htests : body.TestsTruthValues tests) (hfits : body.FitsTypes assignment) :
    Constraint.Opposed (fun t => t.predicate.admits (assignment t.index))
      tests := by
  apply Constraint.opposed_of_truthValues
  intro t ht htruth
  obtain ⟨value, hdefined, hboolean⟩ := htests t ht htruth
  exact hfits value t.index hdefined hboolean

theorem TestsTruthValues.complement {t : ArgumentTest}
    (htests : body.TestsTruthValues [t]) :
    body.TestsTruthValues [t.complement] := by
  intro u hu htruth
  obtain rfl := List.mem_singleton.mp hu
  refine htests t (List.mem_singleton_self t) ?_
  cases hpredicate : t.predicate <;>
    simp [ArgumentTest.complement, Predicate.complement, hpredicate]
      at htruth ⊢

theorem TestsTruthValues.append {tests others : List ArgumentTest}
    (htests : body.TestsTruthValues tests)
    (hothers : body.TestsTruthValues others) :
    body.TestsTruthValues (tests ++ others) := by
  intro t ht
  rcases List.mem_append.mp ht with ht | ht
  · exact htests t ht
  · exact hothers t ht

theorem equalityTest?_eq_some {t : ArgumentTest}
    (htest : body.equalityTest? left right = some t) :
    body.TestsTruthValues [t] ∧
      ∃ number, body.Compares left right t.index number ∧
        ∀ value, t.predicate.admits value = (value == number) := by
  cases right with
  | none =>
      simp only [equalityTest?] at htest
      split at htest
      · cases htest
      · next argument index htested =>
          obtain ⟨hargument, hdefined⟩ := testedArgument?_eq_some htested
          split at htest
          · obtain rfl := Option.some.inj htest
            exact ⟨by simp [TestsTruthValues], 0, .zero hargument,
              fun _ => rfl⟩
          · split at htest
            · next hboolean =>
                obtain rfl := Option.some.inj htest
                refine ⟨?_, 0, .zero hargument, fun _ => rfl⟩
                intro t ht _
                obtain rfl := List.mem_singleton.mp ht
                exact ⟨argument, hdefined, hboolean⟩
            · cases htest
  | some right =>
      simp only [equalityTest?] at htest
      split at htest
      · next argument htested _ =>
          obtain ⟨hargument, _⟩ := testedArgument?_eq_some htested
          split at htest
          · obtain ⟨number, hnumber, rfl⟩ := Option.map_eq_some_iff.mp htest
            exact ⟨by simp [TestsTruthValues], number,
              .right hargument (.of_number? hnumber), fun _ => rfl⟩
          · cases htest
      · next argument _ htested =>
          obtain ⟨hargument, _⟩ := testedArgument?_eq_some htested
          split at htest
          · obtain ⟨number, hnumber, rfl⟩ := Option.map_eq_some_iff.mp htest
            exact ⟨by simp [TestsTruthValues], number,
              .left (.of_number? hnumber) hargument, fun _ => rfl⟩
          · cases htest
      · cases htest

/-- The tests at a branch tell which way it goes. -/
theorem branchTests?_eq_some {comparison : Comparison}
    {trueTest falseTest : ArgumentTest}
    (htests : body.branchTests? comparison left right =
      some (trueTest, falseTest)) :
    (comparison = .eq ∨ comparison = .ne) ∧
      body.TestsTruthValues [trueTest] ∧ body.TestsTruthValues [falseTest] ∧
      ∃ index number, body.Compares left right index number ∧
        ∀ assignment, body.FitsTypes assignment →
          (trueTest.predicate.admits (assignment trueTest.index) = true →
            (assignment index = number ↔ comparison = .eq)) ∧
          (falseTest.predicate.admits (assignment falseTest.index) = true →
            ¬ (assignment index = number ↔ comparison = .eq)) := by
  have hopposite : ∀ {t : ArgumentTest} {assignment : Nat → Int},
      body.TestsTruthValues [t] → body.FitsTypes assignment →
      t.complement.predicate.admits (assignment t.complement.index) =
        !t.predicate.admits (assignment t.index) := by
    intro t assignment ht hfits
    exact ht.opposed hfits t (List.mem_singleton_self t)
  cases comparison with
  | eq =>
      obtain ⟨t, htest, hpair⟩ := Option.map_eq_some_iff.mp htests
      obtain ⟨rfl, rfl⟩ := Prod.mk.inj hpair
      obtain ⟨htruth, number, hcompares, hadmits⟩ := equalityTest?_eq_some htest
      refine ⟨Or.inl rfl, htruth, htruth.complement, t.index, number,
        hcompares, ?_⟩
      intro assignment hfits
      rw [hopposite htruth hfits, hadmits]
      simp
  | ne =>
      obtain ⟨t, htest, hpair⟩ := Option.map_eq_some_iff.mp htests
      obtain ⟨rfl, rfl⟩ := Prod.mk.inj hpair
      obtain ⟨htruth, number, hcompares, hadmits⟩ := equalityTest?_eq_some htest
      refine ⟨Or.inr rfl, htruth.complement, htruth, t.index, number,
        hcompares, ?_⟩
      intro assignment hfits
      rw [hopposite htruth hfits, hadmits]
      simp
  | _ => cases htests

/-- The walk through a block counts what is to be counted, and gives up once
that is too much. -/
theorem terminatorWithin?_eq_some {threshold depth reached : Nat}
    {before : List InstrId} {last : InstrId} {opcode : Opcode}
    (hterminator : (body.opcode last).isTerminator = true)
    (hbefore : ∀ instr ∈ before, (body.opcode instr).isTerminator = false)
    (hdepth : depth ≤ threshold)
    (hfound : body.terminatorWithin? threshold (before ++ [last]) depth =
      some (opcode, reached)) :
    opcode = body.opcode last ∧ reached ≤ threshold ∧
      reached = depth + (before ++ [last]).countP fun instr =>
        (body.opcode instr).isCounted := by
  induction before generalizing depth with
  | nil =>
      simp only [List.nil_append, terminatorWithin?, hterminator,
        ↓reduceIte, Option.some.injEq, Prod.mk.injEq] at hfound
      obtain ⟨rfl, rfl⟩ := hfound
      exact ⟨rfl, hdepth, by simp [Opcode.isCounted_eq, hterminator]⟩
  | cons head rest ih =>
      have hhead := hbefore head List.mem_cons_self
      have hrest : ∀ instr ∈ rest, (body.opcode instr).isTerminator = false :=
        fun instr hinstr => hbefore instr (List.mem_cons_of_mem head hinstr)
      simp only [List.cons_append, terminatorWithin?, hhead,
        Bool.false_eq_true, ↓reduceIte] at hfound
      rw [List.cons_append, List.countP_cons, Opcode.isCounted_eq, hhead]
      split at hfound
      · next huncounted =>
          obtain ⟨hopcode, hle, heq⟩ := ih hrest hdepth hfound
          exact ⟨hopcode, hle, by simp [huncounted, heq]⟩
      · next huncounted =>
          split at hfound
          · cases hfound
          · next hlt =>
              obtain ⟨hopcode, hle, heq⟩ := ih hrest (Nat.not_lt.mp hlt) hfound
              refine ⟨hopcode, hle, ?_⟩
              simp only [huncounted, Bool.not_false, Bool.and_self, ↓reduceIte]
              omega

/-- What a verdict on the ways from a block, entered at a depth, promises. -/
structure Promises (body : Body) (threshold : Nat) (block : BlockId)
    (depth : Nat) (verdict : Verdict) : Prop where
  depth_le : verdict.depth ≤ threshold
  tests : body.TestsTruthValues verdict.constraint.tests
  exits : ∀ assignment, body.FitsTypes assignment →
    verdict.constraint.satisfiedBy assignment = true →
      ∃ count, depth + count ≤ verdict.depth ∧
        body.Exits assignment block count

namespace Promises

variable {threshold depth reached : Nat} {verdict : Verdict}

theorem never : body.Promises threshold block depth .never where
  depth_le := Nat.zero_le _
  tests := by simp [TestsTruthValues, Verdict.never, Constraint.tests]
  exits := by
    intro assignment _ hsatisfied
    simp [Verdict.never, Constraint.satisfiedBy, Constraint.eval] at hsatisfied

theorem always (hreached : reached = depth + body.counted block)
    (hle : reached ≤ threshold)
    (hexits : ∀ assignment,
      body.Exits assignment block (body.counted block)) :
    body.Promises threshold block depth (.always reached) where
  depth_le := hle
  tests := by simp [TestsTruthValues, Verdict.always, Constraint.tests]
  exits := fun assignment _ _ =>
    ⟨body.counted block, Nat.le_of_eq hreached.symm, hexits assignment⟩

theorem goto {target : BlockId}
    (hreached : reached = depth + body.counted block)
    (htarget : body.Promises threshold target reached verdict)
    (hexits : ∀ assignment count, body.Exits assignment target count →
      body.Exits assignment block (body.counted block + count)) :
    body.Promises threshold block depth verdict where
  depth_le := htarget.depth_le
  tests := htarget.tests
  exits := by
    intro assignment hfits hsatisfied
    obtain ⟨count, hle, hrest⟩ := htarget.exits assignment hfits hsatisfied
    exact ⟨body.counted block + count, by omega, hexits assignment count hrest⟩

/-- One way of a branch, behind its test. -/
theorem behind {target : BlockId} {t : ArgumentTest}
    (htest : body.TestsTruthValues [t])
    (hreached : reached = depth + body.counted block)
    (htarget : body.Promises threshold target reached verdict)
    (hexits : ∀ assignment count, body.FitsTypes assignment →
      t.predicate.admits (assignment t.index) = true →
      body.Exits assignment target count →
      body.Exits assignment block (body.counted block + count)) :
    body.Promises threshold block depth
      (Verdict.meet ⟨.test t, reached⟩ verdict) := by
  have htests : body.TestsTruthValues
      ((Constraint.test t).tests ++ verdict.constraint.tests) :=
    htest.append htarget.tests
  refine ⟨htarget.depth_le, ?_, ?_⟩
  · intro u hu
    exact htests u (Constraint.tests_meet_subset hu)
  · intro assignment hfits hsatisfied
    obtain ⟨hpasses, hrest⟩ :=
      (Constraint.eval_meet (htests.opposed hfits)).mp hsatisfied
    obtain ⟨count, hle, hexit⟩ := htarget.exits assignment hfits hrest
    exact ⟨body.counted block + count, by
      change depth + (body.counted block + count) ≤ verdict.depth
      omega, hexits assignment count hfits hpasses hexit⟩

theorem join {other : Verdict}
    (hverdict : body.Promises threshold block depth verdict)
    (hother : body.Promises threshold block depth other) :
    body.Promises threshold block depth (verdict.join other) := by
  have htests := hverdict.tests.append hother.tests
  refine ⟨Nat.max_le.mpr ⟨hverdict.depth_le, hother.depth_le⟩, ?_, ?_⟩
  · intro u hu
    exact htests u (Constraint.tests_join_subset hu)
  · intro assignment hfits hsatisfied
    rcases (Constraint.eval_join (htests.opposed hfits)).mp hsatisfied
      with hway | hway
    · obtain ⟨count, hle, hexit⟩ := hverdict.exits assignment hfits hway
      exact ⟨count, Nat.le_trans hle (Nat.le_max_left _ _), hexit⟩
    · obtain ⟨count, hle, hexit⟩ := hother.exits assignment hfits hway
      exact ⟨count, Nat.le_trans hle (Nat.le_max_right _ _), hexit⟩

end Promises

/-- A test is never `never`, so the way behind it is always walked. -/
theorem meetWith_test (test : ArgumentTest) (depth : Nat)
    (rest : StateT (List BlockId) (Except Fault) Verdict)
    (seen : List BlockId) :
    Verdict.meetWith ⟨.test test, depth⟩ rest seen = (do
      let (verdict, seen) ← rest seen
      return (Verdict.meet ⟨.test test, depth⟩ verdict, seen)) :=
  rfl

theorem inliningWalk_promises (hbody : body.WellFormed) {threshold : Nat}
    (steps : Nat) {depth : Nat} (hblock : block < body.blocks.size)
    (hdepth : depth ≤ threshold) (seen : List BlockId) :
    ∃ verdict seen', body.inliningWalk threshold steps block depth seen =
        .ok (verdict, seen') ∧
      body.Promises threshold block depth verdict := by
  induction steps generalizing block depth seen with
  | zero => exact ⟨.never, seen, rfl, .never⟩
  | succ steps ih =>
      obtain ⟨content, hcontent⟩ := exists_content hblock
      obtain ⟨before, last, hends, hterminator, hbefore⟩ := hbody.ends hblock
      have hlast : body.lastOf? block = some last := by
        rw [lastOf?, hends, List.getLast?_concat]
      have hfetch := block_eq_ok.mpr hcontent
      have htarget : ∀ target, target ∈ (body.opcode last).targets →
          target < body.blocks.size := by
        intro target hmem
        have hnormal : target ∈ body.normalSuccessors block := by
          rwa [normalSuccessors, hlast]
        exact hbody.successor_lt (mem_successors.mpr (Or.inl hnormal))
      rw [inliningWalk, hfetch]
      simp only [bind, Except.bind, pure, Except.pure]
      by_cases hseen : seen.contains block
      · rw [if_pos hseen]
        exact ⟨_, _, rfl, .never⟩
      · rw [if_neg hseen, ← instructionsOf_eq hcontent, hends]
        cases hfound : body.terminatorWithin? threshold (before ++ [last])
            depth with
        | none => exact ⟨_, _, rfl, .never⟩
        | some found =>
            obtain ⟨opcode, reached⟩ := found
            obtain ⟨hopcode, hle, hreached⟩ :=
              terminatorWithin?_eq_some hterminator hbefore hdepth hfound
            rw [← hends] at hreached
            change reached = depth + body.counted block at hreached
            cases opcode with
            | ret value =>
                exact ⟨_, _, rfl, .always hreached hle fun _ =>
                  .ret hlast hopcode.symm⟩
            | throw exception =>
                by_cases hhandlers : content.handlers.isEmpty
                · have huncaught : body.handlersOf block = [] := by
                    rw [handlersOf_eq hcontent]
                    exact List.isEmpty_iff.mp hhandlers
                  refine ⟨.always reached, block :: seen, ?_, ?_⟩
                  · simp [hhandlers]
                  · exact .always hreached hle fun _ =>
                      .throw hlast hopcode.symm huncaught
                · exact ⟨.never, block :: seen, by simp [hhandlers], .never⟩
            | goto target =>
                obtain ⟨verdict, seen', hwalk, hpromises⟩ :=
                  ih (htarget target (by simp [← hopcode, Opcode.targets]))
                    hle (block :: seen)
                refine ⟨verdict, seen', hwalk, .goto hreached hpromises ?_⟩
                intro assignment count hrest
                exact .goto hlast hopcode.symm hrest
            | branch comparison left right whenTrue whenFalse =>
                simp only
                cases htests : body.branchTests? comparison left right with
                | none => exact ⟨_, _, rfl, .never⟩
                | some tests =>
                    obtain ⟨trueTest, falseTest⟩ := tests
                    obtain ⟨hcomparison, htrue, hfalse, index, number,
                      hcompares, hways⟩ := branchTests?_eq_some htests
                    have hmem : ∀ {target}, target = whenTrue ∨
                        target = whenFalse → target < body.blocks.size := by
                      intro target hway
                      apply htarget
                      rwa [← hopcode, Opcode.mem_targets_branch]
                    obtain ⟨a, seenA, hwalkA, hpromisesA⟩ :=
                      ih (hmem (Or.inl rfl)) hle (block :: seen)
                    obtain ⟨b, seenB, hwalkB, hpromisesB⟩ :=
                      ih (hmem (Or.inr rfl)) hle seenA
                    simp only [meetWith_test, hwalkA, hwalkB, bind, Except.bind,
                      pure, Except.pure]
                    refine ⟨_, seenB, rfl, .join
                      (.behind htrue hreached hpromisesA ?_)
                      (.behind hfalse hreached hpromisesB ?_)⟩
                    · intro assignment count hfits hpasses hrest
                      have hway := (hways assignment hfits).1 hpasses
                      refine .branch hlast hopcode.symm hcomparison hcompares ?_
                      rwa [if_pos hway]
                    · intro assignment count hfits hpasses hrest
                      have hway := (hways assignment hfits).2 hpasses
                      refine .branch hlast hopcode.symm hcomparison hcompares ?_
                      rwa [if_neg hway]
            | _ => exact ⟨_, _, rfl, .never⟩

/-- A call whose arguments satisfy the verdict on a body runs to one exit,
within the counted instructions and within the threshold. -/
theorem exits_of_inliningVerdict (haccepted : body.Accepted)
    {program : Program} {definition : MethodDecl}
    (hmethod : program.method body.method = .ok definition)
    (options : InliningOptions) :
    ∃ verdict, body.inliningVerdict program options = .ok verdict ∧
      verdict.depth ≤ options.threshold ∧
      ∀ assignment, body.FitsTypes assignment →
        verdict.constraint.satisfiedBy assignment = true →
          ∃ count ≤ verdict.depth,
            ∀ other, body.Exits assignment Body.entry other ↔
              other = count := by
  have hbody := haccepted.wellFormed
  have hverdict : ∃ verdict,
      body.inliningVerdict program options = .ok verdict ∧
        body.Promises options.threshold Body.entry 0 verdict := by
    rw [inliningVerdict, hmethod]
    simp only [bind, Except.bind]
    by_cases hskip : definition.params.isEmpty || !options.enabled
    · exact ⟨.never, if_pos hskip, .never⟩
    · obtain ⟨verdict, seen, hwalk, hpromises⟩ := inliningWalk_promises hbody
        (body.blocks.size + 1) hbody.entry_lt (Nat.zero_le _) []
      exact ⟨verdict, by rw [if_neg hskip, hwalk]; rfl, hpromises⟩
  obtain ⟨verdict, heq, hpromises⟩ := hverdict
  refine ⟨verdict, heq, hpromises.depth_le, ?_⟩
  intro assignment hfits hsatisfied
  obtain ⟨count, hle, hexits⟩ := hpromises.exits assignment hfits hsatisfied
  rw [Nat.zero_add] at hle
  refine ⟨count, hle, ?_⟩
  intro other
  constructor
  · exact fun hother => hother.unique hexits
  · rintro rfl
    exact hexits

/-- A body that returns at once unless its argument is true. -/
def guarded : Body where
  method := 0
  isStatic := true
  values := #[{ type := .primitive .boolean, definition := .instruction 0,
                users := [1] }]
  instructions := #[⟨0, .argument 0, some 0⟩,
    ⟨0, .branch .eq 0 none 1 2, none⟩, ⟨1, .ret none, none⟩,
    ⟨2, .initClass 0, none⟩, ⟨2, .initClass 0, none⟩,
    ⟨2, .initClass 0, none⟩, ⟨2, .ret none, none⟩]
  blocks := #[⟨[0, 1], [], []⟩, ⟨[2], [], []⟩, ⟨[3, 4, 5, 6], [], []⟩]
  positions := #[0, 1, 0, 0, 1, 2, 3]
  incoming := #[[], [0], [0]]

theorem guarded_accepted : guarded.Accepted :=
  ⟨0, true,
    [.block, .block, .block,
      .value 0 (.argument 0) (.primitive .boolean),
      .push 0 (.branch .eq 0 none 1 2), .push 1 (.ret none),
      .push 2 (.initClass 0), .push 2 (.initClass 0), .push 2 (.initClass 0),
      .push 2 (.ret none)], _, _, rfl, by decide +kernel⟩

def oneMethod : Program where
  types := #[]
  methods := #[
    { holder := 0, name := "run", params := [0], returns := 0, traits := {} }]

theorem guarded_exits : guarded.Accepted ∧
    guarded.inliningVerdict oneMethod {} = .ok ⟨.test ⟨0, .isFalse⟩, 0⟩ ∧
    ∃ count ≤ 0, ∀ other,
      guarded.Exits (fun _ => 0) Body.entry other ↔ other = count := by
  have hmethod : oneMethod.method guarded.method = .ok _ := rfl
  have hevaluated : guarded.inliningVerdict oneMethod {} =
      .ok ⟨.test ⟨0, .isFalse⟩, 0⟩ := rfl
  obtain ⟨verdict, hverdict, _, hexits⟩ :=
    exits_of_inliningVerdict guarded_accepted hmethod {}
  obtain rfl := Except.ok.inj (hevaluated.symm.trans hverdict)
  exact ⟨guarded_accepted, hevaluated,
    hexits _ (fun _ _ _ _ => Or.inl rfl) rfl⟩

end Body

end FlowFacts
