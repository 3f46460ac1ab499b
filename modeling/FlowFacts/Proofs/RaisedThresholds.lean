/-
Raised thresholds.  A walk that may count further finds the exits that it found
before, except where it gets to a block on the way to the exit too early: from
the first target of a fork whose second target the way goes to.
-/
import FlowFacts.Proofs.ArgumentWays
import FlowFacts.Proofs.CopyChains

namespace FlowFacts

open Relation

namespace Body

variable {body : Body} {lower higher depth reached : Nat} {block : BlockId}
variable {assignment : Nat → Int} {arrival next partner : Arrival}

/-- A block ends in a comparison of an argument with a number, with these
targets and this outcome under the assignment. -/
inductive Decides (body : Body) (assignment : Nat → Int) :
    BlockId → BlockId → BlockId → Bool → Prop
  | branch {block whenTrue whenFalse : BlockId} {last : InstrId}
      {comparison : Comparison} {left : ValueId} {right : Option ValueId}
      {index : Nat} {number : Int} {outcome : Bool}
      (hlast : body.lastOf? block = some last)
      (hopcode : body.opcode last =
        .branch comparison left right whenTrue whenFalse)
      (hcomparison : comparison = .eq ∨ comparison = .ne)
      (hcompares : body.Compares left right index number)
      (houtcome : outcome = true ↔
        (assignment index = number ↔ comparison = .eq)) :
      Decides body assignment block whenTrue whenFalse outcome

/-- The run under an assignment of the arguments goes from block to block. -/
inductive Goes (body : Body) (assignment : Nat → Int) :
    BlockId → BlockId → Prop
  | goto {block target : BlockId} {last : InstrId}
      (hlast : body.lastOf? block = some last)
      (hopcode : body.opcode last = .goto target) :
      Goes body assignment block target
  | whenTrue {block whenTrue whenFalse : BlockId}
      (hdecides : body.Decides assignment block whenTrue whenFalse true) :
      Goes body assignment block whenTrue
  | whenFalse {block whenTrue whenFalse : BlockId}
      (hdecides : body.Decides assignment block whenTrue whenFalse false) :
      Goes body assignment block whenFalse

/-- The run comes to a block through the second target of a comparison, and
there are jumps to the other block from the first target. -/
def Beside (body : Body) (assignment : Nat → Int) (block other : BlockId) :
    Prop :=
  ∃ fork whenTrue whenFalse,
    ReflTransGen (body.Goes assignment) Body.entry fork ∧
      body.Decides assignment fork whenTrue whenFalse false ∧
      ReflTransGen (body.Goes assignment) whenFalse block ∧
      ReflTransGen body.Jumps whenTrue other

theorem Beside.tail {other target : BlockId}
    (hbeside : body.Beside assignment block other)
    (hgoes : body.Goes assignment block target) :
    body.Beside assignment target other := by
  obtain ⟨fork, whenTrue, whenFalse, hrun, hdecides, hrest, hjumps⟩ := hbeside
  exact ⟨fork, whenTrue, whenFalse, hrun, hdecides, hrest.tail hgoes, hjumps⟩

theorem decides_of_leaving_fork (hbody : body.WellFormed)
    (hfits : body.FitsTypes assignment) {threshold : Nat}
    {trueTest falseTest : ArgumentTest} {whenTrue whenFalse : BlockId}
    (hleaving : body.leaving threshold block depth =
      .fork trueTest falseTest whenTrue whenFalse reached) :
    (trueTest.HoldsFor assignment →
      body.Decides assignment block whenTrue whenFalse true) ∧
    (falseTest.HoldsFor assignment →
      body.Decides assignment block whenTrue whenFalse false) := by
  obtain ⟨_, _, _, _, hlast, hopcode, htests⟩ :=
    lastOf?_of_leaving_fork hbody hleaving
  obtain ⟨hcomparison, _, _, _, _, hcompares, hways⟩ :=
    branchTests?_eq_some htests
  obtain ⟨htrue, hfalse⟩ := hways assignment hfits
  constructor
  · intro hholds
    exact .branch hlast hopcode hcomparison hcompares
      (iff_of_true rfl (htrue hholds))
  · intro hholds
    exact .branch hlast hopcode hcomparison hcompares
      (iff_of_false nofun (hfalse hholds))

/-- The walk advances along the run. -/
theorem Advances.goes (hbody : body.WellFormed)
    (hfits : body.FitsTypes assignment) {threshold : Nat}
    (hadvances : body.Advances threshold assignment arrival next) :
    body.Goes assignment arrival.block next.block := by
  cases hadvances with
  | goto _ hleaving =>
      obtain ⟨last, hlast, hopcode⟩ := lastOf?_of_leaving_goto hbody hleaving
      exact .goto hlast hopcode
  | whenTrue _ hleaving hholds =>
      exact .whenTrue ((decides_of_leaving_fork hbody hfits hleaving).1 hholds)
  | whenFalse _ hleaving hholds _ =>
      exact .whenFalse ((decides_of_leaving_fork hbody hfits hleaving).2 hholds)

theorem terminatorWithin?_mono (hle : lower ≤ higher) {instrs : List InstrId}
    {found : Opcode × Nat}
    (hfound : body.terminatorWithin? lower instrs depth = some found) :
    body.terminatorWithin? higher instrs depth = some found := by
  fun_induction terminatorWithin? body lower instrs depth with
  | case1 => cases hfound
  | case2 instr rest depth opcode hterminator =>
      rw [terminatorWithin?, if_pos hterminator]
      exact hfound
  | case3 instr rest depth opcode hterminator huncounted ih =>
      rw [terminatorWithin?, if_neg hterminator, if_pos huncounted]
      exact ih hfound
  | case4 => cases hfound
  | case5 instr rest depth opcode hterminator huncounted hwithin ih =>
      rw [terminatorWithin?, if_neg hterminator, if_neg huncounted,
        if_neg (by omega)]
      exact ih hfound

/-- A way out of a block stays as it is. -/
theorem leaving_mono (hle : lower ≤ higher) {found : Leaving}
    (hleaving : body.leaving lower block depth = found)
    (hout : found ≠ .stuck) : body.leaving higher block depth = found := by
  cases hfound : body.terminatorWithin? lower (body.instructionsOf block)
      depth with
  | none =>
      rw [leaving, hfound] at hleaving
      exact absurd hleaving.symm hout
  | some found =>
      rw [leaving, hfound] at hleaving
      rw [leaving, terminatorWithin?_mono hle hfound, hleaving]

/-- Two walks at the same place on the run.  What the second has seen in
addition lies beside the run. -/
structure Accompanies (body : Body) (assignment : Nat → Int)
    (arrival partner : Arrival) : Prop where
  block : partner.block = arrival.block
  depth : partner.depth = arrival.depth
  run : ReflTransGen (body.Goes assignment) Body.entry arrival.block
  seen : ∀ other ∈ partner.seen,
    other ∈ arrival.seen ∨ body.Beside assignment arrival.block other

namespace Accompanies

theorem atEntry : body.Accompanies assignment atEntry atEntry where
  block := rfl
  depth := rfl
  run := .refl
  seen := nofun

theorem leaving_eq (hpair : body.Accompanies assignment arrival partner)
    (hle : lower ≤ higher) {found : Leaving}
    (hleaving : body.leaving lower arrival.block arrival.depth = found)
    (hout : found ≠ .stuck) :
    body.leaving higher partner.block partner.depth = found := by
  rw [hpair.block, hpair.depth]
  exact leaving_mono hle hleaving hout

/-- What the second walk has seen once it has entered its block too. -/
theorem seen_cons (hpair : body.Accompanies assignment arrival partner)
    {target : BlockId} (hgoes : body.Goes assignment arrival.block target)
    {other : BlockId} (hother : other ∈ partner.block :: partner.seen) :
    other ∈ arrival.block :: arrival.seen ∨
      body.Beside assignment target other := by
  rcases List.mem_cons.mp hother with rfl | hmem
  · exact Or.inl (hpair.block ▸ List.mem_cons_self)
  · rcases hpair.seen other hmem with hseen | hbeside
    · exact Or.inl (List.mem_cons_of_mem _ hseen)
    · exact Or.inr (hbeside.tail hgoes)

/-- The second walk advances with the first. -/
theorem step (hbody : body.WellFormed) (hfits : body.FitsTypes assignment)
    (hle : lower ≤ higher)
    (hpair : body.Accompanies assignment arrival partner)
    (hadvances : body.Advances lower assignment arrival next)
    (hnew : partner.block ∉ partner.seen) :
    ∃ partner', body.Advances higher assignment partner partner' ∧
      body.Accompanies assignment next partner' := by
  have hgoes := hadvances.goes hbody hfits
  have hrun := hpair.run.tail hgoes
  cases hadvances with
  | goto _ hleaving =>
      have hleaving' := hpair.leaving_eq hle hleaving nofun
      exact ⟨_, .goto hnew hleaving',
        rfl, rfl, hrun, fun _ => hpair.seen_cons hgoes⟩
  | whenTrue _ hleaving hholds =>
      have hleaving' := hpair.leaving_eq hle hleaving nofun
      exact ⟨_, .whenTrue hnew hleaving' hholds,
        rfl, rfl, hrun, fun _ => hpair.seen_cons hgoes⟩
  | @whenFalse _ _ whenTrue whenFalse reached _ _ _ hleaving hholds hfirst =>
      have hleaving' := hpair.leaving_eq hle hleaving nofun
      have hdecides := (decides_of_leaving_fork hbody hfits hleaving).2 hholds
      have hjumps := (jumps_of_leaving_fork hbody hleaving').1
      obtain ⟨verdict, seen, hfirst'⟩ := exists_walks hbody higher
        (hjumps.target_lt hbody) reached (partner.block :: partner.seen)
      refine ⟨_, .whenFalse hnew hleaving' hholds hfirst',
        rfl, rfl, hrun, ?_⟩
      -- The first target is walked further, to blocks beside the run.
      intro other hother
      rcases hfirst'.mem_seen hbody hother with hmem | hreach
      · rcases hpair.seen_cons hgoes hmem with hseen | hbeside
        · exact Or.inl (hfirst.seen_subset hseen)
        · exact Or.inr hbeside
      · exact Or.inr ⟨_, whenTrue, whenFalse, hpair.run, hdecides, .refl,
          hreach⟩

/-- A run of the first walk to an exit takes the second to the exit or to a
block that it has seen beside the run. -/
theorem succeeds_or_stumbles (hbody : body.WellFormed)
    (hfits : body.FitsTypes assignment) (hle : lower ≤ higher)
    {last : Arrival}
    (hrun : ReflTransGen (body.Advances lower assignment) arrival last)
    (hfinishes : body.Finishes lower last)
    (hpair : body.Accompanies assignment arrival partner) :
    body.Succeeds higher assignment partner ∨
      body.Stumbles higher assignment partner ∧
        ∃ block, body.Beside assignment block block := by
  have hstumbles : ∀ {arrival partner : Arrival},
      body.Accompanies assignment arrival partner →
      arrival.block ∉ arrival.seen → partner.block ∈ partner.seen →
      body.Stumbles higher assignment partner ∧
        ∃ block, body.Beside assignment block block := by
    intro arrival partner hpair hnew hseen
    refine ⟨⟨partner, .refl, hseen⟩, arrival.block, ?_⟩
    rw [hpair.block] at hseen
    exact (hpair.seen _ hseen).resolve_left hnew
  induction hrun using ReflTransGen.head_induction_on generalizing partner with
  | refl =>
      by_cases hseen : partner.block ∈ partner.seen
      · exact Or.inr (hstumbles hpair hfinishes.new hseen)
      · obtain ⟨reached, hexit⟩ := hfinishes.leaving
        have hexit' := hpair.leaving_eq hle hexit nofun
        exact Or.inl ⟨partner, .refl, hseen, reached, hexit'⟩
  | head hadvances _ ih =>
      by_cases hseen : partner.block ∈ partner.seen
      · exact Or.inr (hstumbles hpair hadvances.new hseen)
      · obtain ⟨partner', hadvances', hpair'⟩ :=
          hpair.step hbody hfits hle hadvances hseen
        rcases ih hpair' with hsucceeds | ⟨⟨stumble, hway, hmem⟩, hbeside⟩
        · exact Or.inl (succeeds_iff.mpr (Or.inr ⟨_, hadvances', hsucceeds⟩))
        · exact Or.inr ⟨⟨stumble, .head hadvances' hway, hmem⟩, hbeside⟩

end Accompanies

/-- A call that is accepted stays accepted when the threshold is raised, unless
the walk now comes, on the way of the call, to a block that it has entered
before.  Such a block lies beside the run as well as on it.  The values that are
tested are found without a limit, as copies end. -/
theorem satisfiedBy_raised_threshold (haccepted : body.Accepted)
    (hends : body.CopiesEnd) {program : Program} {definition : MethodDecl}
    (hmethod : program.method body.method = .ok definition)
    (options : InliningOptions) (hle : options.threshold ≤ higher) :
    (∀ value, body.Resolves value (body.root value)) ∧
    ∃ verdict raised, body.inliningVerdict program options = .ok verdict ∧
      body.inliningVerdict program { options with threshold := higher } =
        .ok raised ∧
      ∀ assignment, body.FitsTypes assignment →
        verdict.constraint.satisfiedBy assignment = true →
          (raised.constraint.satisfiedBy assignment = true ↔
            ¬ body.Stumbles higher assignment atEntry) ∧
          (body.Stumbles higher assignment atEntry →
            ∃ block, body.Beside assignment block block) := by
  have hbody := haccepted.wellFormed
  obtain ⟨verdict, hverdict, hiff⟩ :=
    exists_inliningVerdict hbody hmethod options
  obtain ⟨raised, hraised, hiffRaised⟩ :=
    exists_inliningVerdict hbody hmethod { options with threshold := higher }
  refine ⟨hends.resolves, verdict, raised, hverdict, hraised, ?_⟩
  intro assignment hfits hsatisfied
  obtain ⟨hparams, henabled, last, hrun, hfinishes⟩ :=
    (hiff assignment hfits).mp hsatisfied
  -- The threshold is the only difference between the two verdicts.
  have hsucceeds : raised.constraint.satisfiedBy assignment = true ↔
      body.Succeeds higher assignment atEntry := by
    rw [hiffRaised assignment hfits]
    exact ⟨fun h => h.2.2, fun h => ⟨hparams, henabled, h⟩⟩
  rw [hsucceeds]
  rcases Accompanies.atEntry.succeeds_or_stumbles hbody hfits hle hrun
    hfinishes with hexit | ⟨hstumbles, hbeside⟩
  · have hnot := hexit.not_stumbles hbody hfits
    exact ⟨iff_of_true hexit hnot, fun hstumbles => absurd hstumbles hnot⟩
  · exact ⟨iff_of_false (fun hexit => hexit.not_stumbles hbody hfits hstumbles)
      (not_not_intro hstumbles), fun _ => hbeside⟩

/-- With three instructions allowed the second way ends in an exit as well. -/
theorem guarded_raised_threshold : guarded.Accepted ∧ guarded.CopiesEnd ∧
    guarded.inliningVerdict oneMethod {} = .ok ⟨.test ⟨0, .isFalse⟩, 0⟩ ∧
    guarded.inliningVerdict oneMethod { threshold := 3 } = .ok ⟨.always, 3⟩ ∧
    ¬ guarded.Stumbles 3 (fun _ => 0) atEntry := by
  have hmethod : oneMethod.method guarded.method = .ok _ := rfl
  have hevaluated : guarded.inliningVerdict oneMethod {} =
      .ok ⟨.test ⟨0, .isFalse⟩, 0⟩ := rfl
  have hevaluatedRaised : guarded.inliningVerdict oneMethod { threshold := 3 } =
      .ok ⟨.always, 3⟩ := rfl
  have hends : guarded.CopiesEnd := copiesEnd_of_root (by decide)
  obtain ⟨_, verdict, raised, hverdict, hraised, hways⟩ :=
    satisfiedBy_raised_threshold guarded_accepted hends hmethod {}
      (by decide : 2 ≤ 3)
  obtain rfl := Except.ok.inj (hevaluated.symm.trans hverdict)
  obtain rfl := Except.ok.inj (hevaluatedRaised.symm.trans hraised)
  have hway := hways (fun _ => 0) (fun _ _ _ _ => Or.inl rfl) rfl
  exact ⟨guarded_accepted, hends, hevaluated, hevaluatedRaised, hway.1.mp rfl⟩

/-- A body that does some work if its argument is null, and then returns as it
does otherwise. -/
def workIfNull : Body where
  method := 0
  isStatic := true
  values := #[
    { type := .reference (.object 0) .maybe
      definition := .instruction 0, users := [1] },
    { type := .primitive .int, definition := .instruction 2, users := [] },
    { type := .primitive .int, definition := .instruction 3, users := [] }]
  instructions := #[⟨0, .argument 0, some 0⟩,
    ⟨0, .branch .eq 0 none 1 2, none⟩, ⟨1, .number 1, some 1⟩,
    ⟨1, .number 2, some 2⟩, ⟨1, .goto 2, none⟩, ⟨2, .ret none, none⟩]
  blocks := #[⟨[0, 1], [], []⟩, ⟨[2, 3, 4], [], []⟩, ⟨[5], [], []⟩]
  positions := #[0, 1, 0, 1, 2, 0]
  incoming := #[[], [0], [0, 1]]

/-- The raised threshold lets the walk get from the work to the exit, which is
then no exit for other arguments. -/
theorem workIfNull_rejected_when_raised : workIfNull.Accepted ∧
    workIfNull.FitsTypes (fun _ => 1) ∧
    workIfNull.inliningVerdict oneMethod { threshold := 1 } =
      .ok ⟨.test ⟨0, .nonNull⟩, 0⟩ ∧
    (Constraint.test ⟨0, .nonNull⟩).satisfiedBy (fun _ => 1) = true ∧
    workIfNull.inliningVerdict oneMethod { threshold := 2 } =
      .ok ⟨.test ⟨0, .null⟩, 2⟩ ∧
    (Constraint.test ⟨0, .null⟩).satisfiedBy (fun _ => 1) = false := by
  refine ⟨⟨0, true, [.block, .block, .block,
      .value 0 (.argument 0) (.reference (.object 0) .maybe),
      .push 0 (.branch .eq 0 none 1 2), .value 1 (.number 1) (.primitive .int),
      .value 1 (.number 2) (.primitive .int), .push 1 (.goto 2),
      .push 2 (.ret none)], _, _, rfl, by decide +kernel⟩, ?_, rfl, rfl, rfl,
    rfl⟩
  exact fun _ _ _ _ => Or.inr rfl

end Body

end FlowFacts
