/-
The dominators of a block, listed on the way up the tree.  Going up ends at the
entry, each block met dominates all blocks met before it, and for a block that
is reached nothing on every path to it is left out.
-/
import FlowFacts.Proofs.DominatorTree

namespace FlowFacts

/-- The nodes on every path to a node, each once and the nearest first, from
the node itself up to the entry. -/
structure Graph.ListsDominators (graph : Graph) (node : Nat)
    (nodes : List Nat) : Prop where
  mem_iff : ∀ a, a ∈ nodes ↔ ∀ path, graph.Path 0 path node → a ∈ path
  nodup : nodes.Nodup
  nearest_first : nodes.Pairwise fun near far =>
    ∀ path, graph.Path 0 path near → far ∈ path
  head : nodes.head? = some node
  last : nodes.getLast? = some 0

namespace Dominators

variable {graph : Graph} {rank : Nat → Nat} {tree : Dominators}
variable {start : Option BlockId} {b far : BlockId} {blocks others : List BlockId}

/-- Going up from a block, or from none, meets these blocks and comes to an
end.  It stops at the entry, and goes on from every other block to the nearest
dominator. -/
inductive Ascends (tree : Dominators) : Option BlockId → List BlockId → Prop
  | stop : Ascends tree none []
  | entry : Ascends tree (some Body.entry) [Body.entry]
  | step {block : BlockId} {above : List BlockId} (hne : block ≠ Body.entry)
      (hrest : Ascends tree (tree.immediate? block) above) :
      Ascends tree (some block) (block :: above)

theorem Ascends.head?_eq (hup : tree.Ascends start blocks) :
    blocks.head? = start := by
  cases hup <;> rfl

/-- There is one way up. -/
theorem Ascends.unique (hup : tree.Ascends start blocks)
    (hup' : tree.Ascends start others) : blocks = others := by
  induction hup generalizing others with
  | stop =>
      cases hup'
      rfl
  | entry =>
      cases hup' with
      | entry => rfl
      | step hne => exact absurd rfl hne
  | step hne _ ih =>
      cases hup' with
      | entry => exact absurd rfl hne
      | step _ hrest => rw [ih hrest]

theorem Ascends.iff_eq (hup : tree.Ascends start blocks) :
    tree.Ascends start others ↔ others = blocks := by
  constructor
  · exact fun hup' => hup'.unique hup
  · rintro rfl
    exact hup

theorem immediate?_entry (hforest : graph.Forest rank tree.nearest) :
    tree.immediate? Body.entry = none := by
  rw [Option.eq_none_iff_forall_ne_some]
  intro up hup
  obtain ⟨hpointer, hne⟩ := immediate?_eq_some.mp hup
  rw [Body.entry, hforest.entry, Option.some.injEq] at hpointer
  exact hne hpointer.symm

/-- The entry needs no exception: nothing stands above it. -/
theorem Ascends.onward {above : List BlockId}
    (hup : tree.Ascends (tree.immediate? b) above)
    (hforest : graph.Forest rank tree.nearest) :
    tree.Ascends (some b) (b :: above) := by
  by_cases hentry : b = Body.entry
  · subst hentry
    rw [immediate?_entry hforest] at hup
    cases hup
    exact .entry
  · exact .step hentry hup

/-- A climb with enough steps goes all the way up. -/
theorem ascends_climb (hforest : graph.Forest rank tree.nearest) {steps : Nat}
    (hsteps : (tree.nearest.getD b none).isSome → rank b ≤ steps) :
    tree.Ascends (some b) (tree.climb steps b) := by
  induction steps generalizing b with
  | zero =>
      have hnone : tree.immediate? b = none :=
        Option.eq_none_iff_forall_ne_some.mpr fun up hup =>
          Nat.not_lt_zero _ (rank_lt_steps hforest hsteps hup)
      exact Ascends.onward (hnone ▸ .stop) hforest
  | succ steps ih =>
      refine Ascends.onward ?_ hforest
      cases hup : tree.immediate? b with
      | none => exact .stop
      | some up =>
          have hlt := rank_lt_steps hforest hsteps hup
          exact ih fun _ => Nat.le_of_lt_succ hlt

/-- Whatever is met on the way up stands above where the way starts. -/
theorem Ascends.above_of_mem (hup : tree.Ascends start blocks)
    (hfar : far ∈ blocks) :
    ∃ block, start = some block ∧ Graph.Above tree.nearest block far := by
  induction hup with
  | stop => cases hfar
  | entry =>
      obtain rfl := List.mem_singleton.mp hfar
      exact ⟨Body.entry, rfl, .refl Body.entry⟩
  | @step block above _ _ ih =>
      refine ⟨block, rfl, ?_⟩
      rcases List.mem_cons.mp hfar with rfl | hfar
      · exact .refl far
      · obtain ⟨up, hup, habove⟩ := ih hfar
        exact .step (immediate?_eq_some.mp hup).1 habove

/-- The way up leads to earlier places, each of them above the last. -/
theorem Ascends.pairwise (hup : tree.Ascends start blocks)
    (hforest : graph.Forest rank tree.nearest) :
    blocks.Pairwise fun near far =>
      rank far < rank near ∧ Graph.Above tree.nearest near far := by
  induction hup with
  | stop => exact .nil
  | entry => exact List.pairwise_singleton _ _
  | @step block above _ hrest ih =>
      refine .cons ?_ ih
      intro far hfar
      obtain ⟨up, hup, habove⟩ := hrest.above_of_mem hfar
      have hlt := rank_lt_of_immediate? hforest hup
      have hle := hforest.rank_le_of_above habove
      exact ⟨by omega, .step (immediate?_eq_some.mp hup).1 habove⟩

/-- Every block that is reached, the entry apart, has a block above it. -/
theorem exists_immediate? (hexact : graph.Exact rank tree.nearest)
    (hreach : graph.Reaches 0 b) (hne : b ≠ Body.entry) :
    ∃ up, tree.immediate? b = some up ∧ graph.Reaches 0 up := by
  obtain ⟨up, hup⟩ := Graph.Forest.exists_up (hexact.full b hreach)
  refine ⟨up, immediate?_eq_some.mpr ⟨hup, ?_⟩,
    hexact.reached_of_isSome (hexact.pointed hup)⟩
  rintro rfl
  exact Nat.lt_irrefl _ (hexact.rank_lt hne hup)

theorem Ascends.getLast?_eq (hup : tree.Ascends start blocks)
    (hexact : graph.Exact rank tree.nearest)
    (hstart : ∃ block, start = some block ∧ graph.Reaches 0 block) :
    blocks.getLast? = some Body.entry := by
  induction hup with
  | stop =>
      obtain ⟨block, hblock, _⟩ := hstart
      cases hblock
  | entry => rfl
  | step hne _ ih =>
      obtain ⟨block, hblock, hreach⟩ := hstart
      obtain rfl := Option.some.inj hblock
      rw [List.getLast?_cons, ih (exists_immediate? hexact hreach hne)]
      rfl

namespace Describes

variable {body : Body}

theorem ascends_chain (htree : tree.Describes body) (b : BlockId) :
    tree.Ascends (some b) (tree.chain b) :=
  ascends_climb htree.exact.toForest htree.place_le_size

/-- The way up from the nearest dominator is the same without its start. -/
theorem ascends_tail_chain (htree : tree.Describes body) (b : BlockId) :
    tree.Ascends (tree.immediate? b) (tree.chain b).tail := by
  have hup := htree.ascends_chain b
  generalize tree.chain b = blocks at hup
  cases hup with
  | entry =>
      rw [immediate?_entry htree.exact.toForest]
      exact .stop
  | step _ hrest => exact hrest

theorem listsDominators_chain (htree : tree.Describes body)
    (hreach : body.graph.Reaches Body.entry b) :
    body.graph.ListsDominators b (tree.chain b) := by
  have hup := htree.ascends_chain b
  have hpairwise := hup.pairwise htree.exact.toForest
  refine ⟨?_, ?_, ?_, hup.head?_eq, hup.getLast?_eq htree.exact ⟨b, rfl, hreach⟩⟩
  · intro a
    rw [htree.mem_chain]
    constructor
    · rintro (rfl | ⟨_, hpaths⟩)
      · exact fun path hpath => hpath.last_mem
      · exact hpaths
    · exact fun hpaths => Or.inr ⟨hreach, hpaths⟩
  · refine hpairwise.imp ?_
    rintro near far ⟨hlt, _⟩ rfl
    exact Nat.lt_irrefl _ hlt
  · refine hpairwise.imp ?_
    rintro near far ⟨_, habove⟩ path hpath
    rcases htree.exact.above_iff.mp habove with rfl | ⟨_, hpaths⟩
    · exact hpath.last_mem
    · exact hpaths path hpath

end Describes

end Dominators

namespace Body

variable {body : Body}

/-- The dominators of a block are listed on the way up the tree, which ends:
for a block that is reached they are the blocks on every path to it, each once
and the nearest first, and for any other there is the block itself only.
Without the block, the list starts with its nearest dominator. -/
theorem dominators_listed_upwards (haccepted : body.Accepted) :
    ∃ tree, body.dominators = .ok tree ∧
      ∀ b, b < body.blocks.size → ∃ above,
        tree.all b = .ok (b :: above) ∧ tree.strict b = .ok above ∧
        (∀ blocks, tree.Ascends (some b) blocks ↔ blocks = b :: above) ∧
        (∀ blocks, tree.Ascends (tree.immediate? b) blocks ↔ blocks = above) ∧
        above.head? = tree.immediate? b ∧
        (body.graph.Reaches Body.entry b →
          body.graph.ListsDominators b (b :: above)) ∧
        (¬ body.graph.Reaches Body.entry b → above = []) := by
  obtain ⟨tree, htree, hdescribes, _⟩ := exists_dominators haccepted.wellFormed
  refine ⟨tree, htree, ?_⟩
  intro b hb
  have hup := hdescribes.ascends_chain b
  have habove := hdescribes.ascends_tail_chain b
  have hchain : tree.chain b = b :: (tree.chain b).tail :=
    tree.climb_eq_cons tree.nearest.size b
  have hcheck := hdescribes.check_eq_ok hb
  refine ⟨(tree.chain b).tail, ?_, ?_, ?_, ?_, habove.head?_eq, ?_, ?_⟩
  · rw [Dominators.all, hcheck, ← hchain]
    rfl
  · rw [Dominators.strict, hcheck]
    rfl
  · rw [← hchain]
    exact fun blocks => hup.iff_eq
  · exact fun blocks => habove.iff_eq
  · rw [← hchain]
    exact hdescribes.listsDominators_chain
  · intro hunreached
    have hnone : tree.immediate? b = none := by
      rw [Dominators.immediate?,
        hdescribes.exact.eq_none_of_not_reaches hunreached]
    rw [hnone] at habove
    exact habove.unique .stop

/-- Two ways from the entry meet in a block that may go back to the entry, and
nothing leads to the last block. -/
def loopToEntry : List Draft.Command :=
  [.block, .block, .block, .block, .block, .block,
    .value 0 (.argument 0) (.primitive .int), .push 0 (.branch .eq 0 none 1 2),
    .push 1 (.goto 3), .push 2 (.goto 3),
    .push 3 (.initClass 0), .push 3 (.branch .ne 0 none 0 4),
    .handler 3 ⟨none, 4⟩, .push 4 (.ret none), .push 5 (.goto 4)]

theorem loopToEntry_dominators_listed : ∃ given draft body tree above,
    Draft.run { method := 0, isStatic := true } loopToEntry =
        .ok (given, draft) ∧
      draft.build = .ok body ∧ body.dominators = .ok tree ∧
      tree.all 4 = .ok (4 :: above) ∧
      body.graph.ListsDominators 4 (4 :: above) := by
  have hbuilt : ∃ given draft body,
      Draft.run { method := 0, isStatic := true } loopToEntry =
          .ok (given, draft) ∧
        draft.build = .ok body ∧
        body.graph = ⟨#[[1, 2], [3], [3], [0, 4], [], [4]]⟩ :=
    ⟨_, _, _, rfl, rfl, rfl⟩
  obtain ⟨given, draft, body, hrun, hbuild, hgraph⟩ := hbuilt
  obtain ⟨tree, htree, hlisted⟩ := dominators_listed_upwards
    ⟨0, true, loopToEntry, given, draft, hrun, hbuild⟩
  have hsize : body.blocks.size = 6 := by
    rw [← Body.size_graph, hgraph]
    rfl
  have hreach : body.graph.Reaches Body.entry 4 := by
    rw [hgraph]
    exact ⟨[0, 1, 3, 4], .step (by decide) (.step (by decide)
      (.step (by decide) (.single 4)))⟩
  obtain ⟨above, hall, _, _, _, _, hlists, _⟩ := hlisted 4 (by omega)
  exact ⟨given, draft, body, tree, above, hrun, hbuild, htree, hall,
    hlists hreach⟩

end Body

end FlowFacts
