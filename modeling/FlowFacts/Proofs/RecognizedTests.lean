/-
Comparisons that the inlining walk recognizes.  The walk decides a branch by
the arguments if it compares a single argument with a number for equality and
the static type of the argument fits the comparison.  Where the walk comes to
an exit, the run under the arguments has passed such comparisons only, and as
many instructions as the walk has counted.
-/
import FlowFacts.Proofs.CopyChains
import FlowFacts.Proofs.RaisedThresholds

namespace FlowFacts

open Relation

/-- The depth at which the walk leaves a block. -/
def Leaving.depth? : Leaving → Option Nat
  | stuck => none
  | exit depth | goto _ depth | fork _ _ _ _ depth => some depth

namespace Body

variable {body : Body} {threshold depth reached : Nat} {block : BlockId}
variable {assignment : Nat → Int} {left value argument : ValueId}
variable {right : Option ValueId}

/-- The value is an argument other than the receiver, under some number of
names, and the argument has a static type of some kind. -/
def IsArgumentOf (body : Body) (kind : StaticType → Bool) (value : ValueId) :
    Prop :=
  ∃ argument index, ReflTransGen body.Renames value argument ∧
    body.definingOpcode? argument = some (.argument index) ∧
    (body.isStatic = true ∨ index ≠ 0) ∧ kind (body.typeOf argument) = true

/-- The operands of a branch are a reference or a truth value that is compared
with zero, or a primitive argument and a number. -/
inductive TestsArgument (body : Body) : ValueId → Option ValueId → Prop
  | reference {left : ValueId}
      (hleft : body.IsArgumentOf StaticType.isReference left) :
      TestsArgument body left none
  | boolean {left : ValueId}
      (hleft : body.IsArgumentOf StaticType.isBoolean left) :
      TestsArgument body left none
  | right {left right : ValueId} {number : Int}
      (hleft : body.IsArgumentOf StaticType.isPrimitive left)
      (hright : body.IsNumber right number) :
      TestsArgument body left (some right)
  | left {left right : ValueId} {number : Int}
      (hleft : body.IsNumber left number)
      (hright : body.IsArgumentOf StaticType.isPrimitive right) :
      TestsArgument body left (some right)

/-- If the block ends in a branch, this is a test of an argument for
equality. -/
def Recognized (body : Body) (block : BlockId) : Prop :=
  ∀ last comparison left right whenTrue whenFalse,
    body.lastOf? block = some last →
    body.opcode last = .branch comparison left right whenTrue whenFalse →
      (comparison = .eq ∨ comparison = .ne) ∧ body.TestsArgument left right

theorem root_of_testedArgument? {index : Nat}
    (htested : body.testedArgument? value = some (argument, index)) :
    body.root value = argument := by
  simp only [testedArgument?] at htested
  split at htested
  · split at htested
    · cases htested
    · exact congrArg Prod.fst (Option.some.inj htested)
  · cases htested

/-- The tested argument is at the end of the names of the operand. -/
theorem testedArgument?_iff {index : Nat} :
    body.testedArgument? value = some (argument, index) ↔
      ReflTransGen body.Renames value argument ∧
        body.definingOpcode? argument = some (.argument index) ∧
        (body.isStatic = true ∨ index ≠ 0) := by
  constructor
  · intro htested
    obtain ⟨hargument, hdefined⟩ := testedArgument?_eq_some htested
    refine ⟨?_, hdefined, hargument.2⟩
    rw [← root_of_testedArgument? htested]
    exact follow_reached body.values.size value
  · rintro ⟨hchain, hdefined, hother⟩
    have hends : body.copied? argument = none := copied?_eq hdefined
    have hroot : body.root value = argument := root_eq_of_chain hchain hends
    have hself : body.root argument = argument := root_eq_of_chain .refl hends
    have hindex : body.argument? argument = some index := by
      rw [argument?, rootOpcode?, hself, hdefined]
    have hreceiver : body.isReceiver argument = false := by
      rw [isReceiver, hindex]
      rcases hother with hstatic | hindex
      · simp [hstatic]
      · simp [hindex]
    simp [testedArgument?, hroot, hindex, hreceiver]

theorem isArgumentOf_iff {kind : StaticType → Bool} :
    body.IsArgumentOf kind value ↔
      ∃ argument index, body.testedArgument? value = some (argument, index) ∧
        kind (body.typeOf argument) = true := by
  simp only [IsArgumentOf, testedArgument?_iff, and_assoc]

theorem IsNumber.number?_eq {number : Int}
    (hnumber : body.IsNumber value number) :
    body.number? value = some number := by
  rw [number?]
  rcases hnumber with horigin | ⟨horigin, rfl⟩
  · rw [(rootOpcode?_eq_some rfl).mpr horigin]
  · rw [(rootOpcode?_eq_some rfl).mpr horigin]

theorem IsNumber.testedArgument?_eq {number : Int}
    (hnumber : body.IsNumber value number) :
    body.testedArgument? value = none := by
  cases htested : body.testedArgument? value with
  | none => rfl
  | some found =>
      exact absurd (testedArgument?_eq_some htested).1 hnumber.not_isArgument

/-- The comparisons that give a test are the tests of arguments. -/
theorem exists_equalityTest?_iff :
    (∃ t, body.equalityTest? left right = some t) ↔
      body.TestsArgument left right := by
  constructor
  · rintro ⟨t, htest⟩
    cases right with
    | none =>
        simp only [equalityTest?] at htest
        split at htest
        · cases htest
        · next argument index htested =>
            split at htest
            · next hreference =>
                exact .reference (isArgumentOf_iff.mpr ⟨_, _, htested, hreference⟩)
            · split at htest
              · next hboolean =>
                  exact .boolean (isArgumentOf_iff.mpr ⟨_, _, htested, hboolean⟩)
              · cases htest
    | some right =>
        simp only [equalityTest?] at htest
        split at htest
        · next found htested _ =>
            split at htest
            · next hprimitive =>
                obtain ⟨number, hnumber, _⟩ := Option.map_eq_some_iff.mp htest
                exact .right (isArgumentOf_iff.mpr ⟨_, _, htested, hprimitive⟩)
                  (.of_number? hnumber)
            · cases htest
        · next found _ htested =>
            split at htest
            · next hprimitive =>
                obtain ⟨number, hnumber, _⟩ := Option.map_eq_some_iff.mp htest
                exact .left (.of_number? hnumber)
                  (isArgumentOf_iff.mpr ⟨_, _, htested, hprimitive⟩)
            · cases htest
        · cases htest
  · intro htests
    cases htests with
    | reference hleft =>
        obtain ⟨argument, index, htested, hreference⟩ := isArgumentOf_iff.mp hleft
        simp [equalityTest?, htested, hreference]
    | boolean hleft =>
        obtain ⟨argument, index, htested, hboolean⟩ := isArgumentOf_iff.mp hleft
        simp only [equalityTest?, htested, hboolean, ↓reduceIte]
        split <;> exact ⟨_, rfl⟩
    | right hleft hright =>
        obtain ⟨argument, index, htested, hprimitive⟩ := isArgumentOf_iff.mp hleft
        simp [equalityTest?, htested, hright.testedArgument?_eq, hprimitive,
          hright.number?_eq]
    | left hleft hright =>
        obtain ⟨argument, index, htested, hprimitive⟩ :=
          isArgumentOf_iff.mp hright
        simp [equalityTest?, htested, hleft.testedArgument?_eq, hprimitive,
          hleft.number?_eq]

theorem exists_branchTests?_iff {comparison : Comparison} :
    (∃ tests, body.branchTests? comparison left right = some tests) ↔
      (comparison = .eq ∨ comparison = .ne) ∧ body.TestsArgument left right := by
  rw [← exists_equalityTest?_iff]
  cases comparison <;> simp [branchTests?]

/-- Arguments pass one of the two tests at a branch. -/
theorem holds_of_branchTests? {comparison : Comparison}
    {trueTest falseTest : ArgumentTest} (hfits : body.FitsTypes assignment)
    (htests : body.branchTests? comparison left right =
      some (trueTest, falseTest)) :
    trueTest.HoldsFor assignment ∨ falseTest.HoldsFor assignment := by
  have hopposite : ∀ {t : ArgumentTest},
      body.equalityTest? left right = some t →
        t.HoldsFor assignment ∨ t.complement.HoldsFor assignment := by
    intro t htest
    have hcomplement : t.complement.predicate.admits
        (assignment t.complement.index) =
          !t.predicate.admits (assignment t.index) :=
      (equalityTest?_eq_some htest).1.opposed hfits t (List.mem_singleton_self t)
    rw [ArgumentTest.HoldsFor, ArgumentTest.HoldsFor, hcomplement]
    cases t.predicate.admits (assignment t.index) <;> simp
  cases comparison with
  | eq =>
      obtain ⟨t, htest, hpair⟩ := Option.map_eq_some_iff.mp htests
      obtain ⟨rfl, rfl⟩ := Prod.mk.inj hpair
      exact hopposite htest
  | ne =>
      obtain ⟨t, htest, hpair⟩ := Option.map_eq_some_iff.mp htests
      obtain ⟨rfl, rfl⟩ := Prod.mk.inj hpair
      exact (hopposite htest).symm
  | _ => cases htests

/-- The walk gets to the end of a block if that is within the threshold. -/
theorem terminatorWithin?_of_le {before : List InstrId} {last : InstrId}
    (hterminator : (body.opcode last).isTerminator = true)
    (hbefore : ∀ instr ∈ before, (body.opcode instr).isTerminator = false)
    (hle : depth + ((before ++ [last]).countP fun instr =>
      (body.opcode instr).isCounted) ≤ threshold) :
    body.terminatorWithin? threshold (before ++ [last]) depth =
      some (body.opcode last, depth + (before ++ [last]).countP fun instr =>
        (body.opcode instr).isCounted) := by
  induction before generalizing depth with
  | nil => simp [terminatorWithin?, hterminator, Opcode.isCounted_eq]
  | cons head rest ih =>
      obtain ⟨hhead, hrest⟩ := List.forall_mem_cons.mp hbefore
      rw [List.cons_append, List.countP_cons, Opcode.isCounted_eq, hhead]
        at hle ⊢
      rw [terminatorWithin?, if_neg (by simp [hhead])]
      cases huncounted : (body.opcode head).isUncounted with
      | true =>
          simp only [huncounted, Bool.not_true, Bool.and_false,
            Bool.false_eq_true, ↓reduceIte, Nat.add_zero] at hle ⊢
          exact ih hrest hle
      | false =>
          simp only [huncounted, Bool.not_false, Bool.and_self, ↓reduceIte,
            Bool.false_eq_true] at hle ⊢
          rw [if_neg (by omega), ih hrest (by omega), Nat.add_right_comm,
            Nat.add_assoc]

/-- The walk counts the instructions of a block, up to the threshold. -/
theorem reached_of_terminatorWithin? (hbody : body.WellFormed)
    (hdepth : depth ≤ threshold) {opcode : Opcode} {reached : Nat}
    (hfound : body.terminatorWithin? threshold (body.instructionsOf block)
      depth = some (opcode, reached)) :
    reached ≤ threshold ∧ reached = depth + body.counted block := by
  obtain ⟨instr, hinstr, _⟩ := exists_of_terminatorWithin? hfound
  obtain ⟨before, last, hends, hterminator, hbefore⟩ :=
    hbody.ends (lt_of_mem_instructionsOf hinstr)
  rw [hends] at hfound
  rw [counted, hends]
  exact (terminatorWithin?_eq_some hterminator hbefore hdepth hfound).2

theorem terminatorWithin?_of_counted_le (hbody : body.WellFormed)
    {last : InstrId} (hlast : body.lastOf? block = some last)
    (hle : depth + body.counted block ≤ threshold) :
    body.terminatorWithin? threshold (body.instructionsOf block) depth =
      some (body.opcode last, depth + body.counted block) := by
  obtain ⟨before, found, hends, hterminator, hbefore⟩ :=
    hbody.ends (lt_of_mem_instructionsOf (List.mem_of_getLast? hlast))
  obtain rfl : found = last := by
    rwa [lastOf?, hends, List.getLast?_concat, Option.some.injEq] at hlast
  rw [counted, hends] at hle ⊢
  exact terminatorWithin?_of_le hterminator hbefore hle

/-- A block is left at the depth at which its end was reached. -/
theorem depth_of_leaving (hbody : body.WellFormed) (hdepth : depth ≤ threshold)
    (hreached : (body.leaving threshold block depth).depth? = some reached) :
    reached ≤ threshold ∧ reached = depth + body.counted block := by
  have hcounted : ∀ {opcode : Opcode} {found : Nat},
      body.terminatorWithin? threshold (body.instructionsOf block) depth =
        some (opcode, found) → some found = some reached →
      reached ≤ threshold ∧ reached = depth + body.counted block := by
    intro opcode found hfound heq
    obtain rfl := Option.some.inj heq
    exact reached_of_terminatorWithin? hbody hdepth hfound
  rw [leaving] at hreached
  split at hreached
  · next hfound => exact hcounted hfound hreached
  · next hfound =>
      split at hreached
      · exact hcounted hfound hreached
      · cases hreached
  · next hfound => exact hcounted hfound hreached
  · next hfound =>
      split at hreached
      · exact hcounted hfound hreached
      · cases hreached
  · cases hreached

theorem Decides.unique {whenTrue whenFalse whenTrue' whenFalse' : BlockId}
    {outcome outcome' : Bool}
    (hdecides : body.Decides assignment block whenTrue whenFalse outcome)
    (hother : body.Decides assignment block whenTrue' whenFalse' outcome') :
    whenTrue = whenTrue' ∧ whenFalse = whenFalse' ∧ outcome = outcome' := by
  obtain ⟨hlast, hopcode, _, hcompares, houtcome⟩ := hdecides
  obtain ⟨hlast', hopcode', _, hcompares', houtcome'⟩ := hother
  obtain ⟨rfl, rfl, rfl, rfl, rfl⟩ := Opcode.branch.inj
    (opcode_eq_of_lastOf? hlast hopcode hlast' hopcode')
  obtain ⟨rfl, rfl⟩ := hcompares.unique hcompares'
  exact ⟨rfl, rfl, Bool.eq_iff_iff.mpr (houtcome.trans houtcome'.symm)⟩

theorem Decides.not_goto {whenTrue whenFalse target : BlockId} {outcome : Bool}
    {last : InstrId}
    (hdecides : body.Decides assignment block whenTrue whenFalse outcome)
    (hlast : body.lastOf? block = some last) :
    body.opcode last ≠ .goto target := by
  obtain ⟨hlast', hopcode', _⟩ := hdecides
  intro hopcode
  cases opcode_eq_of_lastOf? hlast hopcode hlast' hopcode'

/-- The run under an assignment goes one way only. -/
theorem Goes.unique : Relator.RightUnique (body.Goes assignment) := by
  intro block target other htarget hother
  cases htarget with
  | goto hlast hopcode =>
      cases hother with
      | goto hlast' hopcode' =>
          exact Opcode.goto.inj
            (opcode_eq_of_lastOf? hlast hopcode hlast' hopcode')
      | whenTrue hdecides | whenFalse hdecides =>
          exact absurd hopcode (hdecides.not_goto hlast)
  | whenTrue hdecides =>
      cases hother with
      | goto hlast hopcode => exact absurd hopcode (hdecides.not_goto hlast)
      | whenTrue hdecides' => exact (hdecides.unique hdecides').1
      | whenFalse hdecides' => cases (hdecides.unique hdecides').2.2
  | whenFalse hdecides =>
      cases hother with
      | goto hlast hopcode => exact absurd hopcode (hdecides.not_goto hlast)
      | whenTrue hdecides' => cases (hdecides.unique hdecides').2.2
      | whenFalse hdecides' => exact (hdecides.unique hdecides').2.1

theorem Goes.jumps {target : BlockId}
    (hgoes : body.Goes assignment block target) : body.Jumps block target := by
  cases hgoes with
  | goto hlast hopcode =>
      simp [Jumps, normalSuccessors, hlast, hopcode, Opcode.targets]
  | whenTrue hdecides | whenFalse hdecides =>
      obtain ⟨hlast, hopcode, _⟩ := hdecides
      simp [Jumps, normalSuccessors, hlast, hopcode, Opcode.mem_targets_branch]

/-- Where a comparison of an argument with a number leads. -/
theorem Goes.of_compares (assignment : Nat → Int) {comparison : Comparison}
    {whenTrue whenFalse : BlockId} {last : InstrId} {index : Nat} {number : Int}
    (hlast : body.lastOf? block = some last)
    (hopcode : body.opcode last =
      .branch comparison left right whenTrue whenFalse)
    (hcomparison : comparison = .eq ∨ comparison = .ne)
    (hcompares : body.Compares left right index number) :
    body.Goes assignment block
      (if assignment index = number ↔ comparison = .eq then whenTrue
        else whenFalse) := by
  split
  · next hway =>
      exact .whenTrue (.branch hlast hopcode hcomparison hcompares
        (iff_of_true rfl hway))
  · next hway =>
      exact .whenFalse (.branch hlast hopcode hcomparison hcompares
        (iff_of_false nofun hway))

/-- The run from a block, entered at a depth, passes only comparisons that are
recognized and comes to an exit within the threshold. -/
structure Concludes (body : Body) (threshold : Nat) (assignment : Nat → Int)
    (block : BlockId) (depth : Nat) : Prop where
  exits : ∃ count, depth + count ≤ threshold ∧
    body.Exits assignment block count
  recognized : ∀ other, ReflTransGen (body.Goes assignment) block other →
    body.Recognized other

theorem recognized_of_opcode {last : InstrId} {opcode : Opcode}
    (hlast : body.lastOf? block = some last)
    (hopcode : body.opcode last = opcode)
    (hother : ∀ comparison left right whenTrue whenFalse,
      opcode ≠ .branch comparison left right whenTrue whenFalse) :
    body.Recognized block := by
  intro last' comparison left right whenTrue whenFalse hlast' hopcode'
  exact absurd (opcode_eq_of_lastOf? hlast hopcode hlast' hopcode')
    (hother comparison left right whenTrue whenFalse)

/-- The run to an exit may be started a block earlier. -/
theorem Exits.of_goes {next : BlockId} {count : Nat}
    (hgoes : body.Goes assignment block next)
    (hexits : body.Exits assignment next count) :
    body.Exits assignment block (body.counted block + count) := by
  cases hgoes with
  | goto hlast hopcode => exact .goto hlast hopcode hexits
  | whenTrue hdecides =>
      obtain ⟨hlast, hopcode, hcomparison, hcompares, houtcome⟩ := hdecides
      refine .branch hlast hopcode hcomparison hcompares ?_
      rwa [if_pos (houtcome.mp rfl)]
  | whenFalse hdecides =>
      obtain ⟨hlast, hopcode, hcomparison, hcompares, houtcome⟩ := hdecides
      refine .branch hlast hopcode hcomparison hcompares ?_
      rwa [if_neg (fun hway => Bool.false_ne_true (houtcome.mpr hway))]

theorem Concludes.head {next : BlockId} (hself : body.Recognized block)
    (hgoes : body.Goes assignment block next)
    (hnext : body.Concludes threshold assignment next
      (depth + body.counted block)) :
    body.Concludes threshold assignment block depth where
  exits := by
    obtain ⟨count, hle, hexits⟩ := hnext.exits
    exact ⟨body.counted block + count, by omega, .of_goes hgoes hexits⟩
  recognized := by
    intro other hway
    rcases hway.cases_head with rfl | ⟨target, htarget, hrest⟩
    · exact hself
    · obtain rfl := Goes.unique hgoes htarget
      exact hnext.recognized other hrest

theorem exits_of_leaving_exit (hbody : body.WellFormed)
    (hleaving : body.leaving threshold block depth = .exit reached) :
    body.Exits assignment block (body.counted block) ∧
      ∀ target, ¬ body.Jumps block target := by
  have hnone : ∀ {last : InstrId} {opcode : Opcode},
      body.lastOf? block = some last → body.opcode last = opcode →
      opcode.targets = [] → ∀ target, ¬ body.Jumps block target := by
    intro last opcode hlast hopcode htargets target hjumps
    rw [Jumps, normalSuccessors, hlast] at hjumps
    simp [hopcode, htargets] at hjumps
  rw [leaving] at hleaving
  split at hleaving
  · next hfound =>
      obtain ⟨last, hlast, hopcode⟩ := lastOf?_of_terminatorWithin? hbody hfound
      exact ⟨.ret hlast hopcode, hnone hlast hopcode rfl⟩
  · next hfound =>
      obtain ⟨last, hlast, hopcode⟩ := lastOf?_of_terminatorWithin? hbody hfound
      split at hleaving
      · next huncaught =>
          exact ⟨.throw hlast hopcode (List.isEmpty_iff.mp huncaught),
            hnone hlast hopcode rfl⟩
      · cases hleaving
  · cases hleaving
  · split at hleaving <;> cases hleaving
  · cases hleaving

variable {arrival next : Arrival}

theorem Finishes.concludes (hbody : body.WellFormed)
    (hdepth : arrival.depth ≤ threshold)
    (hfinishes : body.Finishes threshold arrival) :
    body.Concludes threshold assignment arrival.block arrival.depth := by
  obtain ⟨reached, hleaving⟩ := hfinishes.leaving
  obtain ⟨hexits, hnone⟩ := exits_of_leaving_exit hbody hleaving
  obtain ⟨hle, hreached⟩ :=
    depth_of_leaving hbody hdepth (congrArg Leaving.depth? hleaving)
  refine ⟨⟨_, hreached ▸ hle, hexits⟩, ?_⟩
  intro other hway
  rcases hway.cases_head with rfl | ⟨target, hgoes, _⟩
  · intro last _ _ _ whenTrue _ hlast hopcode
    refine absurd ?_ (hnone whenTrue)
    simp [Jumps, normalSuccessors, hlast, hopcode, Opcode.mem_targets_branch]
  · exact absurd hgoes.jumps (hnone target)

theorem recognized_of_leaving_fork (hbody : body.WellFormed)
    {trueTest falseTest : ArgumentTest} {whenTrue whenFalse : BlockId}
    (hleaving : body.leaving threshold block depth =
      .fork trueTest falseTest whenTrue whenFalse reached) :
    body.Recognized block := by
  obtain ⟨last, comparison, left, right, hlast, hopcode, htests⟩ :=
    lastOf?_of_leaving_fork hbody hleaving
  intro last' comparison' left' right' whenTrue' whenFalse' hlast' hopcode'
  obtain ⟨rfl, rfl, rfl, _⟩ := Opcode.branch.inj
    (opcode_eq_of_lastOf? hlast hopcode hlast' hopcode')
  exact exists_branchTests?_iff.mp ⟨_, htests⟩

/-- The walk advances from a recognized comparison, or from a mere jump, by the
instructions of one block. -/
theorem Advances.recognized (hbody : body.WellFormed)
    (hdepth : arrival.depth ≤ threshold)
    (hadvances : body.Advances threshold assignment arrival next) :
    body.Recognized arrival.block ∧ next.depth ≤ threshold ∧
      next.depth = arrival.depth + body.counted arrival.block := by
  cases hadvances with
  | goto _ hleaving =>
      obtain ⟨last, hlast, hopcode⟩ := lastOf?_of_leaving_goto hbody hleaving
      exact ⟨recognized_of_opcode hlast hopcode nofun,
        depth_of_leaving hbody hdepth (congrArg Leaving.depth? hleaving)⟩
  | whenTrue _ hleaving | whenFalse _ hleaving =>
      exact ⟨recognized_of_leaving_fork hbody hleaving,
        depth_of_leaving hbody hdepth (congrArg Leaving.depth? hleaving)⟩

/-- Where the walk comes to an exit on the way of the arguments, so does the
run. -/
theorem Succeeds.concludes (hbody : body.WellFormed)
    (hfits : body.FitsTypes assignment) (hdepth : arrival.depth ≤ threshold)
    (hsucceeds : body.Succeeds threshold assignment arrival) :
    body.Concludes threshold assignment arrival.block arrival.depth := by
  obtain ⟨last, hrun, hfinishes⟩ := hsucceeds
  induction hrun using ReflTransGen.head_induction_on with
  | refl => exact hfinishes.concludes hbody hdepth
  | head hadvances _ ih =>
      obtain ⟨hrecognized, hle, hnext⟩ := hadvances.recognized hbody hdepth
      refine .head hrecognized (hadvances.goes hbody hfits) ?_
      rw [← hnext]
      exact ih hle

end Body

end FlowFacts
