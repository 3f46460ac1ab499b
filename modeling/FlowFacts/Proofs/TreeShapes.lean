/-
Bodies whose jumps form a tree.  In such a body the inlining walk comes to no
block twice, so its verdict is exact: arguments satisfy it if and only if the
run under them passes only comparisons that the walk recognizes and comes to an
exit within the threshold.
-/
import FlowFacts.Proofs.RecognizedTests

namespace FlowFacts

open Relation

namespace Body

variable {body : Body} {threshold depth : Nat} {block : BlockId}
variable {assignment : Nat → Int}

/-- An edge along which a block may be left by a jump.  The edges to the two
targets of a branch are told apart. -/
inductive Edge (body : Body) : BlockId → Bool → BlockId → Prop
  | goto {block target : BlockId} {last : InstrId}
      (hlast : body.lastOf? block = some last)
      (hopcode : body.opcode last = .goto target) :
      Edge body block true target
  | whenTrue {block whenTrue whenFalse : BlockId} {last : InstrId}
      {comparison : Comparison} {left : ValueId} {right : Option ValueId}
      (hlast : body.lastOf? block = some last)
      (hopcode : body.opcode last =
        .branch comparison left right whenTrue whenFalse) :
      Edge body block true whenTrue
  | whenFalse {block whenTrue whenFalse : BlockId} {last : InstrId}
      {comparison : Comparison} {left : ValueId} {right : Option ValueId}
      (hlast : body.lastOf? block = some last)
      (hopcode : body.opcode last =
        .branch comparison left right whenTrue whenFalse) :
      Edge body block false whenFalse

/-- No edge leads to the entry and at most one to any other block. -/
structure TreeShaped (body : Body) : Prop where
  entry : ∀ block way, ¬ body.Edge block way Body.entry
  single : ∀ {block other target way way'}, body.Edge block way target →
    body.Edge other way' target → block = other ∧ way = way'

def edgesOf (body : Body) (block : BlockId) : List (Bool × BlockId) :=
  match (body.lastOf? block).map body.opcode with
  | some (.goto target) => [(true, target)]
  | some (.branch _ _ _ whenTrue whenFalse) =>
      [(true, whenTrue), (false, whenFalse)]
  | _ => []

theorem edge_iff {way : Bool} {target : BlockId} :
    body.Edge block way target ↔ (way, target) ∈ body.edgesOf block := by
  constructor
  · intro hedge
    cases hedge with
    | goto hlast hopcode | whenTrue hlast hopcode | whenFalse hlast hopcode =>
        simp [edgesOf, hlast, hopcode]
  · intro hedge
    rw [edgesOf] at hedge
    split at hedge
    · next hends =>
        obtain ⟨last, hlast, hopcode⟩ := Option.map_eq_some_iff.mp hends
        obtain ⟨rfl, rfl⟩ := Prod.mk.inj (List.mem_singleton.mp hedge)
        exact .goto hlast hopcode
    · next hends =>
        obtain ⟨last, hlast, hopcode⟩ := Option.map_eq_some_iff.mp hends
        rcases List.mem_pair.mp hedge with heq | heq
        · obtain ⟨rfl, rfl⟩ := Prod.mk.inj heq
          exact .whenTrue hlast hopcode
        · obtain ⟨rfl, rfl⟩ := Prod.mk.inj heq
          exact .whenFalse hlast hopcode
    · cases hedge

theorem Edge.block_lt {way : Bool} {target : BlockId}
    (hedge : body.Edge block way target) : block < body.blocks.size := by
  cases hedge with
  | goto hlast | whenTrue hlast | whenFalse hlast =>
      exact lt_of_mem_instructionsOf (List.mem_of_getLast? hlast)

instance : Decidable body.TreeShaped :=
  decidable_of_iff
    (∀ block < body.blocks.size, ∀ edge ∈ body.edgesOf block,
      edge.2 ≠ Body.entry ∧
        ∀ other < body.blocks.size, ∀ edge' ∈ body.edgesOf other,
          edge.2 = edge'.2 → block = other ∧ edge.1 = edge'.1) <| by
    constructor
    · intro hedges
      refine ⟨?_, ?_⟩
      · intro block way hedge
        exact (hedges block hedge.block_lt _ (edge_iff.mp hedge)).1 rfl
      · intro block other target way way' hedge hother
        exact (hedges block hedge.block_lt _ (edge_iff.mp hedge)).2 other
          hother.block_lt _ (edge_iff.mp hother) rfl
    · rintro ⟨hentry, hsingle⟩ block _ ⟨way, target⟩ hedge
      refine ⟨?_, ?_⟩
      · rintro rfl
        exact hentry block way (edge_iff.mpr hedge)
      · rintro other _ ⟨way', target'⟩ hother rfl
        exact hsingle (edge_iff.mpr hedge) (edge_iff.mpr hother)

theorem jumps_iff_edge {target : BlockId} :
    body.Jumps block target ↔ ∃ way, body.Edge block way target := by
  simp only [edge_iff, Jumps, normalSuccessors, edgesOf]
  cases body.lastOf? block with
  | none => simp
  | some last =>
      simp only [Option.map_some]
      cases body.opcode last with
      | branch => simp [Opcode.mem_targets_branch, or_comm]
      | _ => simp [Opcode.targets]

theorem Edge.jumps {way : Bool} {target : BlockId}
    (hedge : body.Edge block way target) : body.Jumps block target :=
  jumps_iff_edge.mpr ⟨way, hedge⟩

namespace TreeShaped

variable {target other : BlockId} {way : Bool}

theorem eq_of_jumps (htree : body.TreeShaped) (hjumps : body.Jumps block target)
    (hother : body.Jumps other target) : block = other := by
  obtain ⟨way, hedge⟩ := jumps_iff_edge.mp hjumps
  obtain ⟨way', hedge'⟩ := jumps_iff_edge.mp hother
  exact (htree.single hedge hedge').1

/-- No block that can be reached lies on a circle: the way back from it leads
to the entry and ends there. -/
theorem not_circle (htree : body.TreeShaped)
    (hreached : ReflTransGen body.Jumps Body.entry block) :
    ¬ TransGen body.Jumps block block := by
  induction hreached with
  | refl =>
      intro hcircle
      obtain ⟨last, _, hjumps⟩ := TransGen.tail'_iff.mp hcircle
      obtain ⟨way, hedge⟩ := jumps_iff_edge.mp hjumps
      exact htree.entry last way hedge
  | tail _ hjumps ih =>
      intro hcircle
      obtain ⟨last, hway, hback⟩ := TransGen.tail'_iff.mp hcircle
      obtain rfl := htree.eq_of_jumps hback hjumps
      exact ih (.head' hjumps hway)

/-- Of two blocks with a common block behind them, one lies behind the
other. -/
theorem comparable (htree : body.TreeShaped)
    (hblock : ReflTransGen body.Jumps block target)
    (hother : ReflTransGen body.Jumps other target) :
    ReflTransGen body.Jumps block other ∨
      ReflTransGen body.Jumps other block := by
  have hunique : Relator.RightUnique (Function.swap body.Jumps) :=
    fun _ _ _ hfirst hsecond => htree.eq_of_jumps hfirst hsecond
  rw [← reflTransGen_swap] at hblock hother
  exact (hblock.total_of_right_unique hunique hother).symm.imp
    reflTransGen_swap.mp reflTransGen_swap.mp

/-- The other target of a branch does not lie behind the first. -/
theorem not_reaches_sibling (htree : body.TreeShaped)
    (hreached : ReflTransGen body.Jumps Body.entry block) {way' : Bool}
    (htarget : body.Edge block way target) (hother : body.Edge block way' other)
    (hne : way ≠ way') : ¬ ReflTransGen body.Jumps target other := by
  intro hreaches
  rcases hreaches.cases_tail with rfl | ⟨last, hway, hjumps⟩
  · exact hne (htree.single htarget hother).2
  · obtain rfl := htree.eq_of_jumps hjumps hother.jumps
    exact htree.not_circle hreached (.head' htarget.jumps hway)

end TreeShaped

/-- No block that the walk has seen lies behind the block that it enters. -/
structure Fresh (body : Body) (block : BlockId) (seen : List BlockId) :
    Prop where
  reached : ReflTransGen body.Jumps Body.entry block
  apart : ∀ other ∈ seen, ¬ ReflTransGen body.Jumps block other

namespace Fresh

variable {seen seen' : List BlockId} {target whenTrue whenFalse : BlockId}

theorem new (hfresh : body.Fresh block seen) : block ∉ seen :=
  fun hseen => hfresh.apart block hseen .refl

theorem enter (htree : body.TreeShaped) (hfresh : body.Fresh block seen)
    {way : Bool} (hedge : body.Edge block way target) :
    body.Fresh target (block :: seen) where
  reached := hfresh.reached.tail hedge.jumps
  apart := by
    intro other hother hreaches
    rcases List.mem_cons.mp hother with rfl | hseen
    · exact htree.not_circle hfresh.reached (.head' hedge.jumps hreaches)
    · exact hfresh.apart other hseen (.head hedge.jumps hreaches)

/-- What the walk sees behind the first target of a branch does not lie behind
the second. -/
theorem enter_second (htree : body.TreeShaped)
    (hfresh : body.Fresh block seen)
    (htrue : body.Edge block true whenTrue)
    (hfalse : body.Edge block false whenFalse)
    (hseen : ∀ other ∈ seen', other ∈ block :: seen ∨
      ReflTransGen body.Jumps whenTrue other) :
    body.Fresh whenFalse seen' where
  reached := hfresh.reached.tail hfalse.jumps
  apart := by
    intro other hother hreaches
    rcases hseen other hother with hmem | hbehind
    · exact (hfresh.enter htree hfalse).apart other hmem hreaches
    · rcases htree.comparable hbehind hreaches with hsibling | hsibling
      · exact htree.not_reaches_sibling hfresh.reached htrue hfalse (by simp)
          hsibling
      · exact htree.not_reaches_sibling hfresh.reached hfalse htrue (by simp)
          hsibling

end Fresh

theorem leaving_fork_of_counted_le (hbody : body.WellFormed) {last : InstrId}
    {comparison : Comparison} {left : ValueId} {right : Option ValueId}
    {whenTrue whenFalse : BlockId} {trueTest falseTest : ArgumentTest}
    (hlast : body.lastOf? block = some last)
    (hopcode : body.opcode last =
      .branch comparison left right whenTrue whenFalse)
    (htests : body.branchTests? comparison left right =
      some (trueTest, falseTest))
    (hle : depth + body.counted block ≤ threshold) :
    body.leaving threshold block depth =
      .fork trueTest falseTest whenTrue whenFalse
        (depth + body.counted block) := by
  rw [leaving, terminatorWithin?_of_counted_le hbody hlast hle, hopcode]
  simp only [htests]

namespace TreeShaped

variable {whenTrue whenFalse target : BlockId} {seen : List BlockId}

/-- The walk passes a fork to the target that the arguments decide for, since
what it sees behind the first target does not hinder it behind the second. -/
theorem succeeds_of_fork (htree : body.TreeShaped) (hbody : body.WellFormed)
    (hfits : body.FitsTypes assignment) (hfresh : body.Fresh block seen)
    {trueTest falseTest : ArgumentTest} {reached : Nat}
    (hleaving : body.leaving threshold block depth =
      .fork trueTest falseTest whenTrue whenFalse reached)
    (hholds : trueTest.HoldsFor assignment ∨ falseTest.HoldsFor assignment)
    (hgoes : body.Goes assignment block target)
    (hrest : ∀ seen', body.Fresh target seen' →
      body.Succeeds threshold assignment ⟨target, reached, seen'⟩) :
    body.Succeeds threshold assignment ⟨block, depth, seen⟩ := by
  obtain ⟨_, _, _, _, hlast, hopcode, _⟩ :=
    lastOf?_of_leaving_fork hbody hleaving
  have htrue : body.Edge block true whenTrue := .whenTrue hlast hopcode
  have hfalse : body.Edge block false whenFalse := .whenFalse hlast hopcode
  obtain ⟨hdecidesTrue, hdecidesFalse⟩ :=
    decides_of_leaving_fork hbody hfits hleaving
  -- the walk has been behind the first target, whichever way the run goes
  obtain ⟨verdict, seen', hfirst⟩ := exists_walks hbody threshold
    (htrue.jumps.target_lt hbody) reached (block :: seen)
  rw [succeeds_fork hfresh.new hleaving hfirst]
  rcases hholds with hholds | hholds
  · obtain rfl := Goes.unique hgoes (.whenTrue (hdecidesTrue hholds))
    exact Or.inl ⟨hholds, hrest _ (hfresh.enter htree htrue)⟩
  · obtain rfl := Goes.unique hgoes (.whenFalse (hdecidesFalse hholds))
    exact Or.inr ⟨hholds, hrest _ (hfresh.enter_second htree htrue hfalse
      fun _ hother => hfirst.mem_seen hbody hother)⟩

/-- In a tree the walk follows the run to the exit, as long as it recognizes
the comparisons on the way. -/
theorem succeeds (htree : body.TreeShaped) (hbody : body.WellFormed)
    (hfits : body.FitsTypes assignment) {count : Nat}
    (hexits : body.Exits assignment block count)
    (hle : depth + count ≤ threshold)
    (hrecognized : ∀ other, ReflTransGen (body.Goes assignment) block other →
      body.Recognized other)
    (hfresh : body.Fresh block seen) :
    body.Succeeds threshold assignment ⟨block, depth, seen⟩ := by
  induction hexits generalizing depth seen with
  | @ret block last value hlast hopcode =>
      refine succeeds_iff.mpr
        (Or.inl ⟨hfresh.new, depth + body.counted block, ?_⟩)
      rw [leaving, terminatorWithin?_of_counted_le hbody hlast hle, hopcode]
  | @throw block last exception hlast hopcode huncaught =>
      refine succeeds_iff.mpr
        (Or.inl ⟨hfresh.new, depth + body.counted block, ?_⟩)
      rw [leaving, terminatorWithin?_of_counted_le hbody hlast hle, hopcode,
        huncaught]
      rfl
  | @goto block target last count hlast hopcode hrest ih =>
      have hleaving : body.leaving threshold block depth =
          .goto target (depth + body.counted block) := by
        rw [leaving, terminatorWithin?_of_counted_le hbody hlast (by omega),
          hopcode]
      rw [succeeds_goto hfresh.new hleaving]
      exact ih (by omega)
        (fun other hway => hrecognized other (.head (.goto hlast hopcode) hway))
        (hfresh.enter htree (.goto hlast hopcode))
  | @branch block _ _ _ _ _ _ _ count _ hlast hopcode hcomparison hcompares
      _ ih =>
      obtain ⟨⟨trueTest, falseTest⟩, htests⟩ := exists_branchTests?_iff.mpr
        (hrecognized block .refl _ _ _ _ _ _ hlast hopcode)
      have hgoes := Goes.of_compares assignment hlast hopcode hcomparison
        hcompares
      have hwithin : depth + body.counted block ≤ threshold := by omega
      refine htree.succeeds_of_fork hbody hfits hfresh
        (leaving_fork_of_counted_le hbody hlast hopcode htests hwithin)
        (holds_of_branchTests? hfits htests) hgoes ?_
      intro seen' hfresh'
      exact ih (by omega)
        (fun other hway => hrecognized other (.head hgoes hway)) hfresh'

end TreeShaped

/-- In a tree the verdict is exact: where inlining is wanted, arguments satisfy
it if and only if the run under them comes to an exit within the threshold and
the walk recognizes every comparison on the way. -/
theorem satisfiedBy_iff_of_treeShaped (haccepted : body.Accepted)
    (htree : body.TreeShaped) {program : Program} {definition : MethodDecl}
    (hmethod : program.method body.method = .ok definition)
    (hparams : definition.params ≠ []) (options : InliningOptions)
    (henabled : options.enabled = true) :
    ∃ verdict, body.inliningVerdict program options = .ok verdict ∧
      ∀ assignment, body.FitsTypes assignment →
        (verdict.constraint.satisfiedBy assignment = true ↔
          (∃ count ≤ options.threshold,
            body.Exits assignment Body.entry count) ∧
          ∀ block, ReflTransGen (body.Goes assignment) Body.entry block →
            body.Recognized block) := by
  have hbody := haccepted.wellFormed
  obtain ⟨verdict, hverdict, hsatisfied⟩ :=
    exists_inliningVerdict hbody hmethod options
  refine ⟨verdict, hverdict, ?_⟩
  intro assignment hfits
  rw [hsatisfied assignment hfits, and_iff_right hparams,
    and_iff_right henabled]
  constructor
  · intro hsucceeds
    obtain ⟨⟨count, hle, hexits⟩, hrecognized⟩ :=
      hsucceeds.concludes hbody hfits (Nat.zero_le _)
    exact ⟨⟨count, by simpa [atEntry] using hle, hexits⟩, hrecognized⟩
  · rintro ⟨⟨count, hle, hexits⟩, hrecognized⟩
    exact htree.succeeds hbody hfits hexits (by omega) hrecognized
      ⟨.refl, by simp⟩

/-- A body with a test behind a test.  If the first argument is true, or the
second is not seven, there is work to do. -/
def twoTests : Body where
  method := 0
  isStatic := true
  values := #[
    { type := .primitive .boolean, definition := .instruction 0, users := [2] },
    { type := .primitive .int, definition := .instruction 1, users := [4] },
    { type := .primitive .int, definition := .instruction 3, users := [4] }]
  instructions := #[⟨0, .argument 0, some 0⟩, ⟨0, .argument 1, some 1⟩,
    ⟨0, .branch .eq 0 none 1 2, none⟩, ⟨1, .number 7, some 2⟩,
    ⟨1, .branch .ne 2 (some 1) 3 4, none⟩, ⟨2, .initClass 0, none⟩,
    ⟨2, .initClass 0, none⟩, ⟨2, .initClass 0, none⟩, ⟨2, .ret none, none⟩,
    ⟨3, .initClass 0, none⟩, ⟨3, .initClass 0, none⟩, ⟨3, .ret none, none⟩,
    ⟨4, .ret none, none⟩]
  blocks := #[⟨[0, 1, 2], [], []⟩, ⟨[3, 4], [], []⟩, ⟨[5, 6, 7, 8], [], []⟩,
    ⟨[9, 10, 11], [], []⟩, ⟨[12], [], []⟩]
  positions := #[0, 1, 2, 0, 1, 0, 1, 2, 3, 0, 1, 2, 0]
  incoming := #[[], [0], [0], [1], [1]]

theorem twoTests_accepted : twoTests.Accepted :=
  ⟨0, true,
    [.block, .block, .block, .block, .block,
      .value 0 (.argument 0) (.primitive .boolean),
      .value 0 (.argument 1) (.primitive .int),
      .push 0 (.branch .eq 0 none 1 2), .value 1 (.number 7) (.primitive .int),
      .push 1 (.branch .ne 2 (some 1) 3 4), .push 2 (.initClass 0),
      .push 2 (.initClass 0), .push 2 (.initClass 0), .push 2 (.ret none),
      .push 3 (.initClass 0), .push 3 (.initClass 0), .push 3 (.ret none),
      .push 4 (.ret none)], _, _, rfl, by decide +kernel⟩

def twoParameters : Program where
  types := #[]
  methods := #[
    { holder := 0, name := "run", params := [0, 1], returns := 0, traits := {} }]

theorem twoTests_exact : twoTests.Accepted ∧ twoTests.TreeShaped ∧
    twoTests.inliningVerdict twoParameters {} =
      .ok ⟨.all [.test ⟨0, .isFalse⟩, .test ⟨1, .equal 7⟩], 1⟩ ∧
    ((∃ count ≤ 2, twoTests.Exits (fun index => 7 * index) Body.entry count) ∧
      ∀ block, ReflTransGen (twoTests.Goes fun index => 7 * index) Body.entry
        block → twoTests.Recognized block) ∧
    ¬ ((∃ count ≤ 2, twoTests.Exits (fun _ => 0) Body.entry count) ∧
      ∀ block, ReflTransGen (twoTests.Goes fun _ => 0) Body.entry block →
        twoTests.Recognized block) := by
  have htree : twoTests.TreeShaped := by decide +kernel
  have hmethod : twoParameters.method twoTests.method = .ok _ := rfl
  have hevaluated : twoTests.inliningVerdict twoParameters {} =
      .ok ⟨.all [.test ⟨0, .isFalse⟩, .test ⟨1, .equal 7⟩], 1⟩ := rfl
  obtain ⟨verdict, hverdict, hexact⟩ := satisfiedBy_iff_of_treeShaped
    twoTests_accepted htree hmethod (List.cons_ne_nil _ _) {} rfl
  obtain rfl := Except.ok.inj (hevaluated.symm.trans hverdict)
  refine ⟨twoTests_accepted, htree, hevaluated, (hexact _ ?_).mp rfl, ?_⟩
  · intro value index hdefined hboolean
    match value with
    | 0 =>
        cases hdefined
        exact Or.inl rfl
    | 1 | 2 | _ + 3 => cases hboolean
  · rw [← hexact _ fun _ _ _ _ => Or.inl rfl]
    exact Bool.false_ne_true

end Body

end FlowFacts
