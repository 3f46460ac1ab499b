/-
The way that given arguments take through the inlining walk.  The walk goes
both ways at a test and enters no block twice.  Arguments satisfy its verdict
exactly if the walk, where it goes the way of these arguments, comes to an exit
and finds no block on this way that it has entered before.
-/
import FlowFacts.Proofs.Closures
import FlowFacts.Proofs.TrivialExits

namespace FlowFacts

open Relation

/-- How the walk leaves a block that it has entered. -/
inductive Leaving
  /-- There is nowhere to go on to. -/
  | stuck
  | exit (depth : Nat)
  | goto (target : BlockId) (depth : Nat)
  | fork (trueTest falseTest : ArgumentTest) (whenTrue whenFalse : BlockId)
      (depth : Nat)

/-- Where the walk comes to, with what it has seen until then. -/
structure Arrival where
  block : BlockId
  depth : Nat
  seen : List BlockId

def ArgumentTest.HoldsFor (t : ArgumentTest) (assignment : Nat → Int) : Prop :=
  t.predicate.admits (assignment t.index) = true

namespace Body

variable {body : Body} {threshold depth reached : Nat} {block : BlockId}
variable {seen seen' : List BlockId} {verdict : Verdict}
variable {trueTest falseTest : ArgumentTest} {whenTrue whenFalse : BlockId}
variable {assignment : Nat → Int}

/-- How the walk leaves a block, entered at a depth. -/
def leaving (body : Body) (threshold : Nat) (block : BlockId) (depth : Nat) :
    Leaving :=
  match body.terminatorWithin? threshold (body.instructionsOf block) depth with
  | some (.ret _, reached) => .exit reached
  | some (.throw _, reached) =>
      if (body.handlersOf block).isEmpty then .exit reached else .stuck
  | some (.goto target, reached) => .goto target reached
  | some (.branch comparison left right whenTrue whenFalse, reached) =>
      match body.branchTests? comparison left right with
      | some (trueTest, falseTest) =>
          .fork trueTest falseTest whenTrue whenFalse reached
      | none => .stuck
  | _ => .stuck

/-- The verdict on a fork, from the verdicts on both ways. -/
def forkVerdict (trueTest falseTest : ArgumentTest) (depth : Nat)
    (a b : Verdict) : Verdict :=
  (Verdict.meet ⟨.test trueTest, depth⟩ a).join
    (Verdict.meet ⟨.test falseTest, depth⟩ b)

theorem inliningWalk_succ {steps : Nat} (hblock : block < body.blocks.size) :
    body.inliningWalk threshold (steps + 1) block depth seen =
      if block ∈ seen then .ok (.never, seen)
      else
        match body.leaving threshold block depth with
        | .stuck => .ok (.never, block :: seen)
        | .exit reached => .ok (.always reached, block :: seen)
        | .goto target reached =>
            body.inliningWalk threshold steps target reached (block :: seen)
        | .fork trueTest falseTest whenTrue whenFalse reached => do
            let (a, seen) ← body.inliningWalk threshold steps whenTrue reached
              (block :: seen)
            let (b, seen) ← body.inliningWalk threshold steps whenFalse reached
              seen
            return (forkVerdict trueTest falseTest reached a b, seen) := by
  obtain ⟨content, hcontent⟩ := exists_content hblock
  rw [inliningWalk, block_eq_ok.mpr hcontent, leaving,
    instructionsOf_eq hcontent, handlersOf_eq hcontent]
  simp only [bind, Except.bind, pure, Except.pure, List.contains_iff_mem]
  by_cases hseen : block ∈ seen
  · rw [if_pos hseen, if_pos hseen]
  · rw [if_neg hseen, if_neg hseen]
    cases body.terminatorWithin? threshold content.instructions depth with
    | none => rfl
    | some found =>
        obtain ⟨opcode, reached⟩ := found
        cases opcode with
        | throw exception =>
            cases hempty : content.handlers.isEmpty <;> simp
        | branch comparison left right whenTrue whenFalse =>
            simp only [meetWith_test]
            cases body.branchTests? comparison left right with
            | none => rfl
            | some tests =>
                simp only [bind, Except.bind]
                cases body.inliningWalk threshold steps whenTrue reached
                  (block :: seen) with
                | error fault => rfl
                | ok trueWay =>
                    simp only [pure, Except.pure]
                    cases body.inliningWalk threshold steps whenFalse reached
                      trueWay.2 <;> rfl
        | _ => rfl

theorem exists_of_terminatorWithin? {instrs : List InstrId} {opcode : Opcode}
    (hfound : body.terminatorWithin? threshold instrs depth =
      some (opcode, reached)) :
    ∃ instr ∈ instrs, body.opcode instr = opcode ∧
      opcode.isTerminator = true := by
  fun_induction terminatorWithin? body threshold instrs depth with
  | case1 => cases hfound
  | case2 instr rest depth found hterminator =>
      obtain ⟨rfl, rfl⟩ := Prod.mk.inj (Option.some.inj hfound)
      exact ⟨instr, List.mem_cons_self, rfl, hterminator⟩
  | case3 instr rest depth found _ _ ih
  | case5 instr rest depth found _ _ _ ih =>
      obtain ⟨last, hlast, hopcode⟩ := ih hfound
      exact ⟨last, List.mem_cons_of_mem instr hlast, hopcode⟩
  | case4 => cases hfound

/-- A terminator found in a block is the one that ends it. -/
theorem lastOf?_of_terminatorWithin? (hbody : body.WellFormed) {opcode : Opcode}
    (hfound : body.terminatorWithin? threshold (body.instructionsOf block)
      depth = some (opcode, reached)) :
    ∃ last, body.lastOf? block = some last ∧ body.opcode last = opcode := by
  obtain ⟨instr, hinstr, rfl, hterminator⟩ :=
    exists_of_terminatorWithin? hfound
  obtain ⟨before, last, hends, _, hbefore⟩ :=
    hbody.ends (lt_of_mem_instructionsOf hinstr)
  refine ⟨instr, ?_, rfl⟩
  rw [hends, List.mem_append, List.mem_singleton] at hinstr
  rcases hinstr with hinstr | rfl
  · rw [hbefore instr hinstr] at hterminator
    cases hterminator
  · rw [lastOf?, hends, List.getLast?_concat]

theorem lastOf?_of_leaving_goto (hbody : body.WellFormed) {target : BlockId}
    (hleaving : body.leaving threshold block depth = .goto target reached) :
    ∃ last, body.lastOf? block = some last ∧
      body.opcode last = .goto target := by
  rw [leaving] at hleaving
  split at hleaving <;> try cases hleaving
  · split at hleaving <;> cases hleaving
  · next hfound => exact lastOf?_of_terminatorWithin? hbody hfound
  · split at hleaving <;> cases hleaving

theorem lastOf?_of_leaving_fork (hbody : body.WellFormed)
    (hleaving : body.leaving threshold block depth =
      .fork trueTest falseTest whenTrue whenFalse reached) :
    ∃ last comparison left right, body.lastOf? block = some last ∧
      body.opcode last = .branch comparison left right whenTrue whenFalse ∧
      body.branchTests? comparison left right = some (trueTest, falseTest) := by
  rw [leaving] at hleaving
  split at hleaving <;> try cases hleaving
  · split at hleaving <;> cases hleaving
  · next comparison left right _ _ _ hfound =>
      obtain ⟨last, hlast, hopcode⟩ := lastOf?_of_terminatorWithin? hbody hfound
      split at hleaving
      · next htests =>
          cases hleaving
          exact ⟨last, comparison, left, right, hlast, hopcode, htests⟩
      · cases hleaving

def Jumps (body : Body) (block target : BlockId) : Prop :=
  target ∈ body.normalSuccessors block

theorem Jumps.target_lt (hbody : body.WellFormed) {target : BlockId}
    (hjumps : body.Jumps block target) : target < body.blocks.size :=
  hbody.successor_lt (mem_successors.mpr (Or.inl hjumps))

theorem jumps_of_leaving_goto (hbody : body.WellFormed) {target : BlockId}
    (hleaving : body.leaving threshold block depth = .goto target reached) :
    body.Jumps block target := by
  obtain ⟨last, hlast, hopcode⟩ := lastOf?_of_leaving_goto hbody hleaving
  simp [Jumps, normalSuccessors, hlast, hopcode, Opcode.targets]

theorem jumps_of_leaving_fork (hbody : body.WellFormed)
    (hleaving : body.leaving threshold block depth =
      .fork trueTest falseTest whenTrue whenFalse reached) :
    body.Jumps block whenTrue ∧ body.Jumps block whenFalse := by
  obtain ⟨last, _, _, _, hlast, hopcode, _⟩ :=
    lastOf?_of_leaving_fork hbody hleaving
  simp only [Jumps, normalSuccessors, hlast, hopcode,
    Opcode.mem_targets_branch, true_or, or_true, and_self]

/-- The walk from a block, entered at a depth, gives this verdict.  It has seen
some blocks before, and some more after. -/
inductive Walks (body : Body) (threshold : Nat) :
    BlockId → Nat → List BlockId → Verdict → List BlockId → Prop
  | again {block : BlockId} {depth : Nat} {seen : List BlockId}
      (hseen : block ∈ seen) : Walks body threshold block depth seen .never seen
  | stuck {block : BlockId} {depth : Nat} {seen : List BlockId}
      (hnew : block ∉ seen)
      (hleaving : body.leaving threshold block depth = .stuck) :
      Walks body threshold block depth seen .never (block :: seen)
  | exit {block : BlockId} {depth reached : Nat} {seen : List BlockId}
      (hnew : block ∉ seen)
      (hleaving : body.leaving threshold block depth = .exit reached) :
      Walks body threshold block depth seen (.always reached) (block :: seen)
  | goto {block target : BlockId} {depth reached : Nat}
      {seen seen' : List BlockId} {verdict : Verdict} (hnew : block ∉ seen)
      (hleaving : body.leaving threshold block depth = .goto target reached)
      (hrest : Walks body threshold target reached (block :: seen) verdict
        seen') :
      Walks body threshold block depth seen verdict seen'
  | fork {block whenTrue whenFalse : BlockId} {depth reached : Nat}
      {trueTest falseTest : ArgumentTest} {seen middle seen' : List BlockId}
      {a b : Verdict} (hnew : block ∉ seen)
      (hleaving : body.leaving threshold block depth =
        .fork trueTest falseTest whenTrue whenFalse reached)
      (htrue : Walks body threshold whenTrue reached (block :: seen) a middle)
      (hfalse : Walks body threshold whenFalse reached middle b seen') :
      Walks body threshold block depth seen
        (forkVerdict trueTest falseTest reached a b) seen'

namespace Walks

theorem unique {other : Verdict} {seenOther : List BlockId}
    (hwalks : body.Walks threshold block depth seen verdict seen')
    (hother : body.Walks threshold block depth seen other seenOther) :
    verdict = other ∧ seen' = seenOther := by
  induction hwalks generalizing other seenOther with
  | again hseen =>
      cases hother with
      | again => exact ⟨rfl, rfl⟩
      | stuck hnew | exit hnew | goto hnew | fork hnew =>
          exact absurd hseen hnew
  | stuck hnew hleaving =>
      cases hother with
      | again hseen => exact absurd hseen hnew
      | stuck => exact ⟨rfl, rfl⟩
      | exit _ hleaving' | goto _ hleaving' | fork _ hleaving' =>
          cases hleaving.symm.trans hleaving'
  | exit hnew hleaving =>
      cases hother with
      | again hseen => exact absurd hseen hnew
      | exit _ hleaving' =>
          cases hleaving.symm.trans hleaving'
          exact ⟨rfl, rfl⟩
      | stuck _ hleaving' | goto _ hleaving' | fork _ hleaving' =>
          cases hleaving.symm.trans hleaving'
  | goto hnew hleaving _ ih =>
      cases hother with
      | again hseen => exact absurd hseen hnew
      | goto _ hleaving' hrest =>
          cases hleaving.symm.trans hleaving'
          exact ih hrest
      | stuck _ hleaving' | exit _ hleaving' | fork _ hleaving' =>
          cases hleaving.symm.trans hleaving'
  | fork hnew hleaving _ _ ihTrue ihFalse =>
      cases hother with
      | again hseen => exact absurd hseen hnew
      | fork _ hleaving' htrue hfalse =>
          cases hleaving.symm.trans hleaving'
          obtain ⟨rfl, rfl⟩ := ihTrue htrue
          obtain ⟨rfl, rfl⟩ := ihFalse hfalse
          exact ⟨rfl, rfl⟩
      | stuck _ hleaving' | exit _ hleaving' | goto _ hleaving' =>
          cases hleaving.symm.trans hleaving'

theorem seen_subset
    (hwalks : body.Walks threshold block depth seen verdict seen') :
    seen ⊆ seen' := by
  induction hwalks with
  | again => exact List.Subset.refl _
  | stuck | exit => exact List.subset_cons_self _ _
  | goto _ _ _ ih => exact List.Subset.trans (List.subset_cons_self _ _) ih
  | fork _ _ _ _ ihTrue ihFalse =>
      have hmiddle := List.Subset.trans (List.subset_cons_self _ _) ihTrue
      exact List.Subset.trans hmiddle ihFalse

theorem mem_or_reaches_of_mem_cons {other : BlockId}
    (hother : other ∈ block :: seen) :
    other ∈ seen ∨ ReflTransGen body.Jumps block other := by
  rcases List.mem_cons.mp hother with rfl | hseen
  · exact Or.inr .refl
  · exact Or.inl hseen

/-- The walk enters blocks to which there are jumps. -/
theorem mem_seen (hbody : body.WellFormed) {other : BlockId}
    (hwalks : body.Walks threshold block depth seen verdict seen')
    (hother : other ∈ seen') :
    other ∈ seen ∨ ReflTransGen body.Jumps block other := by
  induction hwalks with
  | again => exact Or.inl hother
  | stuck | exit => exact mem_or_reaches_of_mem_cons hother
  | goto _ hleaving _ ih =>
      have hjumps := jumps_of_leaving_goto hbody hleaving
      rcases ih hother with hmem | hreach
      · exact mem_or_reaches_of_mem_cons hmem
      · exact Or.inr (.head hjumps hreach)
  | fork _ hleaving _ _ ihTrue ihFalse =>
      obtain ⟨hjumpsTrue, hjumpsFalse⟩ := jumps_of_leaving_fork hbody hleaving
      rcases ihFalse hother with hmiddle | hreach
      · rcases ihTrue hmiddle with hmem | hreach
        · exact mem_or_reaches_of_mem_cons hmem
        · exact Or.inr (.head hjumpsTrue hreach)
      · exact Or.inr (.head hjumpsFalse hreach)

end Walks

def unseen (body : Body) (seen : List BlockId) : Nat :=
  ((List.range body.blocks.size).filter (· ∉ seen)).length

theorem unseen_cons_lt (hblock : block < body.blocks.size)
    (hnew : block ∉ seen) : body.unseen (block :: seen) < body.unseen seen := by
  have hsame : (List.range body.blocks.size).filter (· ∉ block :: seen) =
      (List.range body.blocks.size).filter (· ∉ seen ++ [block]) := by
    apply List.filter_congr
    intro other _
    simp [or_comm]
  rw [unseen, hsame]
  exact length_unexpanded_lt (List.mem_singleton_self block)
    (List.mem_range.mpr hblock) hnew

theorem unseen_le (body : Body) (hsubset : seen ⊆ seen') :
    body.unseen seen' ≤ body.unseen seen := by
  apply List.Sublist.length_le
  apply List.monotone_filter_right
  intro other hother
  simp only [decide_eq_true_eq] at hother ⊢
  exact fun hmem => hother (hsubset hmem)

/-- Every walk ends, since it enters no block twice. -/
theorem exists_walks (hbody : body.WellFormed) (threshold : Nat)
    (hblock : block < body.blocks.size) (depth : Nat) (seen : List BlockId) :
    ∃ verdict seen', body.Walks threshold block depth seen verdict seen' := by
  induction hcount : body.unseen seen using Nat.strong_induction_on
    generalizing block depth seen with
  | _ count ih =>
      subst hcount
      by_cases hseen : block ∈ seen
      · exact ⟨_, _, .again hseen⟩
      · have hfewer := unseen_cons_lt hblock hseen
        cases hleaving : body.leaving threshold block depth with
        | stuck => exact ⟨_, _, .stuck hseen hleaving⟩
        | exit reached => exact ⟨_, _, .exit hseen hleaving⟩
        | goto target reached =>
            have hjumps := jumps_of_leaving_goto hbody hleaving
            obtain ⟨verdict, seen', hrest⟩ := ih _ hfewer
              (hjumps.target_lt hbody) reached (block :: seen) rfl
            exact ⟨verdict, seen', .goto hseen hleaving hrest⟩
        | fork trueTest falseTest whenTrue whenFalse reached =>
            obtain ⟨hjumpsTrue, hjumpsFalse⟩ :=
              jumps_of_leaving_fork hbody hleaving
            obtain ⟨a, middle, htrue⟩ := ih _ hfewer
              (hjumpsTrue.target_lt hbody) reached (block :: seen) rfl
            have hless := (unseen_le body htrue.seen_subset).trans_lt hfewer
            obtain ⟨b, seen', hfalse⟩ := ih _ hless
              (hjumpsFalse.target_lt hbody) reached middle rfl
            exact ⟨_, seen', .fork hseen hleaving htrue hfalse⟩

/-- As many steps as there are blocks to see are enough. -/
theorem Walks.inliningWalk_eq (hbody : body.WellFormed) (steps : Nat)
    (hwalks : body.Walks threshold block depth seen verdict seen')
    (hblock : block < body.blocks.size) (hsteps : body.unseen seen ≤ steps) :
    body.inliningWalk threshold steps block depth seen =
      .ok (verdict, seen') := by
  induction hwalks generalizing steps with
  | again hseen =>
      cases steps with
      | zero => rfl
      | succ steps => rw [inliningWalk_succ hblock, if_pos hseen]
  | stuck hnew hleaving | exit hnew hleaving =>
      have hfewer := unseen_cons_lt hblock hnew
      obtain ⟨steps, rfl⟩ : ∃ fewer, steps = fewer + 1 :=
        Nat.exists_eq_add_one.mpr (by omega)
      rw [inliningWalk_succ hblock, if_neg hnew, hleaving]
  | goto hnew hleaving _ ih =>
      have hfewer := unseen_cons_lt hblock hnew
      obtain ⟨steps, rfl⟩ : ∃ fewer, steps = fewer + 1 :=
        Nat.exists_eq_add_one.mpr (by omega)
      have hjumps := jumps_of_leaving_goto hbody hleaving
      rw [inliningWalk_succ hblock, if_neg hnew, hleaving]
      exact ih steps (hjumps.target_lt hbody) (by omega)
  | fork hnew hleaving htrue _ ihTrue ihFalse =>
      have hfewer := unseen_cons_lt hblock hnew
      have hless := unseen_le body htrue.seen_subset
      obtain ⟨steps, rfl⟩ : ∃ fewer, steps = fewer + 1 :=
        Nat.exists_eq_add_one.mpr (by omega)
      obtain ⟨hjumpsTrue, hjumpsFalse⟩ := jumps_of_leaving_fork hbody hleaving
      have htrueWalk := ihTrue steps (hjumpsTrue.target_lt hbody)
        (by omega)
      have hfalseWalk := ihFalse steps (hjumpsFalse.target_lt hbody)
        (by omega)
      rw [inliningWalk_succ hblock, if_neg hnew, hleaving]
      simp only [htrueWalk, hfalseWalk, bind, Except.bind, pure, Except.pure]

/-- The tests at a fork are tests of truth values where they say so, and no
arguments pass both. -/
theorem tests_of_leaving_fork (hbody : body.WellFormed)
    (hleaving : body.leaving threshold block depth =
      .fork trueTest falseTest whenTrue whenFalse reached) :
    body.TestsTruthValues [trueTest] ∧ body.TestsTruthValues [falseTest] ∧
      ∀ assignment, body.FitsTypes assignment →
        trueTest.HoldsFor assignment → ¬ falseTest.HoldsFor assignment := by
  obtain ⟨_, _, _, _, _, _, htests⟩ := lastOf?_of_leaving_fork hbody hleaving
  obtain ⟨_, htrue, hfalse, index, number, _, hways⟩ :=
    branchTests?_eq_some htests
  refine ⟨htrue, hfalse, ?_⟩
  intro assignment hfits hpasses hother
  exact (hways assignment hfits).2 hother ((hways assignment hfits).1 hpasses)

theorem TestsTruthValues.meet {t : ArgumentTest} {constraint : Constraint}
    (htest : body.TestsTruthValues [t])
    (htests : body.TestsTruthValues constraint.tests) :
    body.TestsTruthValues ((Constraint.test t).meet constraint).tests :=
  fun u hu => htest.append htests u (Constraint.tests_meet_subset hu)

theorem Walks.testsTruthValues (hbody : body.WellFormed)
    (hwalks : body.Walks threshold block depth seen verdict seen') :
    body.TestsTruthValues verdict.constraint.tests := by
  induction hwalks with
  | again | stuck =>
      simp [TestsTruthValues, Verdict.never, Constraint.tests]
  | exit => simp [TestsTruthValues, Verdict.always, Constraint.tests]
  | goto _ _ _ ih => exact ih
  | fork _ hleaving _ _ ihTrue ihFalse =>
      obtain ⟨htrue, hfalse, _⟩ := tests_of_leaving_fork hbody hleaving
      intro u hu
      exact (htrue.meet ihTrue).append (hfalse.meet ihFalse) u
        (Constraint.tests_join_subset hu)

/-- The verdict on a fork is for those arguments that pass the test for a way
and satisfy the verdict there. -/
theorem satisfiedBy_forkVerdict {a b : Verdict}
    (hfits : body.FitsTypes assignment)
    (htrue : body.TestsTruthValues [trueTest])
    (hfalse : body.TestsTruthValues [falseTest])
    (ha : body.TestsTruthValues a.constraint.tests)
    (hb : body.TestsTruthValues b.constraint.tests) :
    (forkVerdict trueTest falseTest reached a b).constraint.satisfiedBy
        assignment = true ↔
      trueTest.HoldsFor assignment ∧
          a.constraint.satisfiedBy assignment = true ∨
        falseTest.HoldsFor assignment ∧
          b.constraint.satisfiedBy assignment = true := by
  have hjoin := ((htrue.meet ha).append (hfalse.meet hb)).opposed hfits
  have htrueWay := (htrue.append ha).opposed hfits
  have hfalseWay := (hfalse.append hb).opposed hfits
  exact (Constraint.eval_join hjoin).trans
    (or_congr (Constraint.eval_meet htrueWay) (Constraint.eval_meet hfalseWay))

/-- The walk goes on the way of the arguments.  Before the second way of a
fork it has walked the first. -/
inductive Advances (body : Body) (threshold : Nat) (assignment : Nat → Int) :
    Arrival → Arrival → Prop
  | goto {arrival : Arrival} {target : BlockId} {reached : Nat}
      (hnew : arrival.block ∉ arrival.seen)
      (hleaving : body.leaving threshold arrival.block arrival.depth =
        .goto target reached) :
      Advances body threshold assignment arrival
        ⟨target, reached, arrival.block :: arrival.seen⟩
  | whenTrue {arrival : Arrival} {trueTest falseTest : ArgumentTest}
      {whenTrue whenFalse : BlockId} {reached : Nat}
      (hnew : arrival.block ∉ arrival.seen)
      (hleaving : body.leaving threshold arrival.block arrival.depth =
        .fork trueTest falseTest whenTrue whenFalse reached)
      (hholds : trueTest.HoldsFor assignment) :
      Advances body threshold assignment arrival
        ⟨whenTrue, reached, arrival.block :: arrival.seen⟩
  | whenFalse {arrival : Arrival} {trueTest falseTest : ArgumentTest}
      {whenTrue whenFalse : BlockId} {reached : Nat} {verdict : Verdict}
      {seen : List BlockId} (hnew : arrival.block ∉ arrival.seen)
      (hleaving : body.leaving threshold arrival.block arrival.depth =
        .fork trueTest falseTest whenTrue whenFalse reached)
      (hholds : falseTest.HoldsFor assignment)
      (hfirst : body.Walks threshold whenTrue reached
        (arrival.block :: arrival.seen) verdict seen) :
      Advances body threshold assignment arrival ⟨whenFalse, reached, seen⟩

/-- The walk has come to an exit. -/
structure Finishes (body : Body) (threshold : Nat) (arrival : Arrival) :
    Prop where
  new : arrival.block ∉ arrival.seen
  leaving : ∃ reached,
    body.leaving threshold arrival.block arrival.depth = .exit reached

/-- On the way of the arguments the walk comes to an exit. -/
def Succeeds (body : Body) (threshold : Nat) (assignment : Nat → Int)
    (arrival : Arrival) : Prop :=
  ∃ last, ReflTransGen (body.Advances threshold assignment) arrival last ∧
    body.Finishes threshold last

/-- On the way of the arguments the walk comes to a block that it has entered
before. -/
def Stumbles (body : Body) (threshold : Nat) (assignment : Nat → Int)
    (arrival : Arrival) : Prop :=
  ∃ last, ReflTransGen (body.Advances threshold assignment) arrival last ∧
    last.block ∈ last.seen

variable {arrival next : Arrival}

theorem Advances.new
    (hadvances : body.Advances threshold assignment arrival next) :
    arrival.block ∉ arrival.seen := by
  cases hadvances <;> assumption

theorem Finishes.not_advances (hfinishes : body.Finishes threshold arrival) :
    ¬ body.Advances threshold assignment arrival next := by
  obtain ⟨reached, hexit⟩ := hfinishes.leaving
  intro hadvances
  cases hadvances with
  | goto _ hleaving | whenTrue _ hleaving | whenFalse _ hleaving =>
      cases hexit.symm.trans hleaving

theorem Advances.unique (hbody : body.WellFormed)
    (hfits : body.FitsTypes assignment) :
    Relator.RightUnique (body.Advances threshold assignment) := by
  intro arrival next other hnext hother
  cases hnext with
  | goto _ hleaving =>
      cases hother with
      | goto _ hleaving' =>
          cases hleaving.symm.trans hleaving'
          rfl
      | whenTrue _ hleaving' | whenFalse _ hleaving' =>
          cases hleaving.symm.trans hleaving'
  | whenTrue _ hleaving hholds =>
      obtain ⟨_, _, hexclusive⟩ := tests_of_leaving_fork hbody hleaving
      cases hother with
      | goto _ hleaving' => cases hleaving.symm.trans hleaving'
      | whenTrue _ hleaving' =>
          cases hleaving.symm.trans hleaving'
          rfl
      | whenFalse _ hleaving' hholds' =>
          cases hleaving.symm.trans hleaving'
          exact absurd hholds' (hexclusive assignment hfits hholds)
  | whenFalse _ hleaving hholds hfirst =>
      obtain ⟨_, _, hexclusive⟩ := tests_of_leaving_fork hbody hleaving
      cases hother with
      | goto _ hleaving' => cases hleaving.symm.trans hleaving'
      | whenTrue _ hleaving' hholds' =>
          cases hleaving.symm.trans hleaving'
          exact absurd hholds (hexclusive assignment hfits hholds')
      | whenFalse _ hleaving' _ hfirst' =>
          cases hleaving.symm.trans hleaving'
          obtain ⟨_, rfl⟩ := hfirst.unique hfirst'
          rfl

/-- The arguments determine the way, so it comes to one end. -/
theorem Succeeds.not_stumbles (hbody : body.WellFormed)
    (hfits : body.FitsTypes assignment)
    (hsucceeds : body.Succeeds threshold assignment arrival) :
    ¬ body.Stumbles threshold assignment arrival := by
  rintro ⟨stumble, hway, hseen⟩
  obtain ⟨last, hrun, hfinishes⟩ := hsucceeds
  rcases ReflTransGen.total_of_right_unique (Advances.unique hbody hfits)
    hrun hway with hrest | hrest
  · rcases hrest.cases_head with rfl | ⟨next, hadvances, _⟩
    · exact hfinishes.new hseen
    · exact hfinishes.not_advances hadvances
  · rcases hrest.cases_head with rfl | ⟨next, hadvances, _⟩
    · exact hfinishes.new hseen
    · exact hadvances.new hseen

theorem succeeds_iff : body.Succeeds threshold assignment arrival ↔
    body.Finishes threshold arrival ∨
      ∃ next, body.Advances threshold assignment arrival next ∧
        body.Succeeds threshold assignment next := by
  constructor
  · rintro ⟨last, hrun, hfinishes⟩
    rcases hrun.cases_head with rfl | ⟨next, hadvances, hrest⟩
    · exact Or.inl hfinishes
    · exact Or.inr ⟨next, hadvances, last, hrest, hfinishes⟩
  · rintro (hfinishes | ⟨next, hadvances, last, hrest, hfinishes⟩)
    · exact ⟨arrival, .refl, hfinishes⟩
    · exact ⟨last, .head hadvances hrest, hfinishes⟩

theorem Succeeds.exists_advances
    (hsucceeds : body.Succeeds threshold assignment arrival)
    (hout : ∀ reached,
      body.leaving threshold arrival.block arrival.depth ≠ .exit reached) :
    ∃ next, body.Advances threshold assignment arrival next ∧
      body.Succeeds threshold assignment next := by
  refine (succeeds_iff.mp hsucceeds).resolve_left ?_
  intro hfinishes
  obtain ⟨reached, hexit⟩ := hfinishes.leaving
  exact hout reached hexit

theorem not_succeeds_of_mem (hseen : block ∈ seen) :
    ¬ body.Succeeds threshold assignment ⟨block, depth, seen⟩ := by
  rw [succeeds_iff]
  rintro (hfinishes | ⟨next, hadvances, _⟩)
  · exact hfinishes.new hseen
  · exact hadvances.new hseen

theorem not_succeeds_of_stuck
    (hleaving : body.leaving threshold block depth = .stuck) :
    ¬ body.Succeeds threshold assignment ⟨block, depth, seen⟩ := by
  intro hsucceeds
  obtain ⟨next, hadvances, _⟩ := hsucceeds.exists_advances (by simp [hleaving])
  cases hadvances with
  | goto _ hleaving' | whenTrue _ hleaving' | whenFalse _ hleaving' =>
      cases hleaving.symm.trans hleaving'

theorem succeeds_goto {target : BlockId} (hnew : block ∉ seen)
    (hleaving : body.leaving threshold block depth = .goto target reached) :
    body.Succeeds threshold assignment ⟨block, depth, seen⟩ ↔
      body.Succeeds threshold assignment ⟨target, reached, block :: seen⟩ := by
  constructor
  · intro hsucceeds
    obtain ⟨next, hadvances, hrest⟩ :=
      hsucceeds.exists_advances (by simp [hleaving])
    cases hadvances with
    | goto _ hleaving' =>
        cases hleaving.symm.trans hleaving'
        exact hrest
    | whenTrue _ hleaving' | whenFalse _ hleaving' =>
        cases hleaving.symm.trans hleaving'
  · intro hrest
    exact succeeds_iff.mpr (Or.inr ⟨_, .goto hnew hleaving, hrest⟩)

theorem succeeds_fork (hnew : block ∉ seen)
    (hleaving : body.leaving threshold block depth =
      .fork trueTest falseTest whenTrue whenFalse reached)
    (hfirst : body.Walks threshold whenTrue reached (block :: seen) verdict
      seen') :
    body.Succeeds threshold assignment ⟨block, depth, seen⟩ ↔
      trueTest.HoldsFor assignment ∧
          body.Succeeds threshold assignment
            ⟨whenTrue, reached, block :: seen⟩ ∨
        falseTest.HoldsFor assignment ∧
          body.Succeeds threshold assignment ⟨whenFalse, reached, seen'⟩ := by
  constructor
  · intro hsucceeds
    obtain ⟨next, hadvances, hrest⟩ :=
      hsucceeds.exists_advances (by simp [hleaving])
    cases hadvances with
    | goto _ hleaving' => cases hleaving.symm.trans hleaving'
    | whenTrue _ hleaving' hholds =>
        cases hleaving.symm.trans hleaving'
        exact Or.inl ⟨hholds, hrest⟩
    | whenFalse _ hleaving' hholds hfirst' =>
        cases hleaving.symm.trans hleaving'
        obtain ⟨_, rfl⟩ := hfirst.unique hfirst'
        exact Or.inr ⟨hholds, hrest⟩
  · rintro (⟨hholds, hrest⟩ | ⟨hholds, hrest⟩)
    · exact succeeds_iff.mpr (Or.inr ⟨_, .whenTrue hnew hleaving hholds, hrest⟩)
    · exact succeeds_iff.mpr
        (Or.inr ⟨_, .whenFalse hnew hleaving hholds hfirst, hrest⟩)

/-- Arguments satisfy the verdict of a walk exactly if the walk comes to an
exit on their way. -/
theorem Walks.satisfiedBy_iff (hbody : body.WellFormed)
    (hfits : body.FitsTypes assignment)
    (hwalks : body.Walks threshold block depth seen verdict seen') :
    verdict.constraint.satisfiedBy assignment = true ↔
      body.Succeeds threshold assignment ⟨block, depth, seen⟩ := by
  induction hwalks with
  | again hseen =>
      exact iff_of_false Bool.false_ne_true (not_succeeds_of_mem hseen)
  | stuck _ hleaving =>
      exact iff_of_false Bool.false_ne_true (not_succeeds_of_stuck hleaving)
  | exit hnew hleaving =>
      exact iff_of_true rfl (succeeds_iff.mpr (Or.inl ⟨hnew, _, hleaving⟩))
  | goto hnew hleaving _ ih => rw [ih, succeeds_goto hnew hleaving]
  | fork hnew hleaving htrue hfalse ihTrue ihFalse =>
      obtain ⟨htrueTest, hfalseTest, _⟩ := tests_of_leaving_fork hbody hleaving
      rw [satisfiedBy_forkVerdict hfits htrueTest hfalseTest
        (htrue.testsTruthValues hbody) (hfalse.testsTruthValues hbody),
        ihTrue, ihFalse, succeeds_fork hnew hleaving htrue]

def atEntry : Arrival := ⟨Body.entry, 0, []⟩

/-- Where inlining is wanted, arguments satisfy the verdict on a body exactly if
the walk comes to an exit on their way. -/
theorem exists_inliningVerdict (hbody : body.WellFormed) {program : Program}
    {definition : MethodDecl}
    (hmethod : program.method body.method = .ok definition)
    (options : InliningOptions) :
    ∃ verdict, body.inliningVerdict program options = .ok verdict ∧
      ∀ assignment, body.FitsTypes assignment →
        (verdict.constraint.satisfiedBy assignment = true ↔
          definition.params ≠ [] ∧ options.enabled = true ∧
            body.Succeeds options.threshold assignment atEntry) := by
  by_cases hskip : definition.params.isEmpty || !options.enabled
  · refine ⟨.never, ?_, ?_⟩
    · rw [inliningVerdict, hmethod]
      exact if_pos hskip
    · intro assignment _
      refine iff_of_false Bool.false_ne_true ?_
      rintro ⟨hparams, henabled, _⟩
      simp [hparams, henabled] at hskip
  · obtain ⟨verdict, seen, hwalks⟩ :=
      exists_walks hbody options.threshold hbody.entry_lt 0 []
    have hwalk := hwalks.inliningWalk_eq hbody (body.blocks.size + 1)
      hbody.entry_lt (by simp [unseen])
    refine ⟨verdict, ?_, ?_⟩
    · rw [inliningVerdict, hmethod]
      simp only [bind, Except.bind]
      rw [if_neg hskip, hwalk]
      rfl
    · intro assignment hfits
      have hwanted : definition.params ≠ [] ∧ options.enabled = true := by
        simpa using hskip
      rw [hwalks.satisfiedBy_iff hbody hfits, ← and_assoc,
        and_iff_right hwanted]
      rfl

end Body

end FlowFacts
