/-
The dominator tree of a body.  For an accepted body the tree exists, and the
chain above a block consists of exactly the blocks that lie on every path from
the entry.
-/
import FlowFacts.Proofs.Accepted
import FlowFacts.Proofs.Dominance

namespace FlowFacts

namespace Dominators

variable {graph : Graph} {rank : Nat → Nat} {tree : Dominators} {a b : BlockId}

theorem immediate?_eq_some {up : BlockId} : tree.immediate? b = some up ↔
    tree.nearest.getD b none = some up ∧ up ≠ b := by
  rw [immediate?]
  split
  · next found hfound =>
      rw [hfound]
      split
      · next heq => simp [heq, eq_comm]
      · next hne =>
          constructor
          · rintro ⟨rfl⟩
            exact ⟨rfl, hne⟩
          · rintro ⟨⟨rfl⟩, _⟩
            rfl
  · next hnone =>
      rw [hnone]
      simp

/-- Only the entry points to itself, and nothing else is above it. -/
theorem above_iff_immediate? (hforest : graph.Forest rank tree.nearest) :
    Graph.Above tree.nearest b a ↔
      a = b ∨ ∃ up, tree.immediate? b = some up ∧
        Graph.Above tree.nearest up a := by
  constructor
  · intro habove
    cases habove with
    | refl => exact Or.inl rfl
    | @step _ up _ hup hrest =>
        by_cases heq : up = b
        · subst heq
          have hentry : up = 0 := by
            by_contra hne
            exact Nat.lt_irrefl _ (hforest.rank_lt hne hup)
          rw [hforest.eq_zero_of_above hrest hentry, hentry]
          exact Or.inl rfl
        · exact Or.inr ⟨up, immediate?_eq_some.mpr ⟨hup, heq⟩, hrest⟩
  · rintro (rfl | ⟨up, hup, hrest⟩)
    · exact .refl a
    · exact .step (immediate?_eq_some.mp hup).1 hrest

theorem rank_lt_of_immediate? (hforest : graph.Forest rank tree.nearest)
    {up : BlockId} (hup : tree.immediate? b = some up) : rank up < rank b := by
  obtain ⟨hpointer, hne⟩ := immediate?_eq_some.mp hup
  apply hforest.rank_lt _ hpointer
  intro hentry
  rw [hentry, hforest.entry, Option.some.injEq] at hpointer
  exact hne (hpointer.symm.trans hentry.symm)

theorem isSome_of_immediate? {up : BlockId}
    (hup : tree.immediate? b = some up) :
    (tree.nearest.getD b none).isSome :=
  Option.isSome_iff_exists.mpr ⟨up, (immediate?_eq_some.mp hup).1⟩

theorem rank_lt_steps (hforest : graph.Forest rank tree.nearest) {steps : Nat}
    (hsteps : (tree.nearest.getD b none).isSome → rank b ≤ steps)
    {up : BlockId} (hup : tree.immediate? b = some up) : rank up < steps :=
  Nat.lt_of_lt_of_le (rank_lt_of_immediate? hforest hup)
    (hsteps (isSome_of_immediate? hup))

/-- A climb meets everything above a block if it may take as many steps as
the block has nodes before it. -/
theorem mem_climb (hforest : graph.Forest rank tree.nearest) {steps : Nat}
    (hsteps : (tree.nearest.getD b none).isSome → rank b ≤ steps) :
    a ∈ tree.climb steps b ↔ Graph.Above tree.nearest b a := by
  rw [above_iff_immediate? hforest]
  have hrank : ∀ {up}, tree.immediate? b = some up → rank up < steps :=
    rank_lt_steps hforest hsteps
  induction steps generalizing b with
  | zero =>
      rw [climb, List.mem_singleton]
      constructor
      · exact Or.inl
      · rintro (heq | ⟨up, hup, _⟩)
        · exact heq
        · exact absurd (hrank hup) (Nat.not_lt_zero _)
  | succ steps ih =>
      rw [climb, List.mem_cons]
      refine or_congr_right ?_
      cases hup : tree.immediate? b with
      | none => simp
      | some up =>
          have hle := Nat.le_of_lt_succ (hrank hup)
          simp only [Option.some.injEq, exists_eq_left']
          rw [above_iff_immediate? hforest]
          refine ih (fun _ => hle) ?_
          intro above habove
          exact Nat.lt_of_lt_of_le (rank_lt_of_immediate? hforest habove) hle

theorem climb_eq_cons (tree : Dominators) (steps : Nat) (b : BlockId) :
    tree.climb steps b = b :: (tree.climb steps b).tail := by
  cases steps <;> rfl

/-- What a climb meets after the first step is of smaller rank, so the climb
does not come back. -/
theorem not_mem_tail_climb (hforest : graph.Forest rank tree.nearest)
    {steps : Nat} (hsteps : (tree.nearest.getD b none).isSome →
      rank b ≤ steps) : b ∉ (tree.climb steps b).tail := by
  cases steps with
  | zero => simp [climb]
  | succ steps =>
      rw [climb, List.tail_cons]
      cases hup : tree.immediate? b with
      | none => simp
      | some up =>
          have hlt := rank_lt_of_immediate? hforest hup
          have hb := hsteps (isSome_of_immediate? hup)
          intro hmem
          rw [mem_climb hforest (fun _ => by omega)] at hmem
          have hle := hforest.rank_le_of_above hmem
          omega

/-- The tree tells the dominators of the blocks of a body. -/
structure Describes (tree : Dominators) (body : Body) : Prop where
  exact : body.graph.Exact body.graph.place tree.nearest
  closed : body.graph.Closed

namespace Describes

variable {body : Body}

theorem size_eq (htree : tree.Describes body) :
    tree.nearest.size = body.blocks.size := by
  rw [htree.exact.size_eq, Body.size_graph]

theorem check_eq_ok (htree : tree.Describes body)
    (hb : b < body.blocks.size) : tree.check b = .ok () :=
  if_pos (htree.size_eq ▸ hb)

theorem place_le_size (htree : tree.Describes body)
    (hb : (tree.nearest.getD b none).isSome) :
    body.graph.place b ≤ tree.nearest.size := by
  have hrank := Graph.ranking_place htree.closed
  have hlt := hrank.rank_lt_length (htree.exact.reached_of_isSome hb)
  have hle := hrank.length_le_size htree.closed
  rw [htree.exact.size_eq]
  omega

theorem mem_chain (htree : tree.Describes body) :
    a ∈ tree.chain b ↔ body.graph.Dominates a b := by
  rw [chain, mem_climb htree.exact.toForest htree.place_le_size,
    htree.exact.above_iff]

theorem strict_eq_ok (htree : tree.Describes body)
    (hb : b < body.blocks.size) : ∃ above, tree.strict b = .ok above ∧
      ∀ a, a ∈ above ↔ body.graph.Dominates a b ∧ a ≠ b := by
  refine ⟨(tree.chain b).tail, ?_, ?_⟩
  · rw [strict, htree.check_eq_ok hb]
    rfl
  · intro a
    have hnot := not_mem_tail_climb (b := b) htree.exact.toForest
      htree.place_le_size
    have hcons := tree.climb_eq_cons tree.nearest.size b
    rw [← htree.mem_chain, chain, hcons, List.mem_cons, List.tail_cons]
    constructor
    · intro ha
      refine ⟨Or.inr ha, ?_⟩
      rintro rfl
      exact hnot ha
    · rintro ⟨heq | ha, hne⟩
      · exact absurd heq hne
      · exact ha

theorem dominates_eq_ok (htree : tree.Describes body)
    (hb : b < body.blocks.size) : ∃ answer,
      tree.dominates a b = .ok answer ∧
        (answer = true ↔ body.graph.Dominates a b) := by
  by_cases heq : a = b
  · exact ⟨true, by rw [dominates, if_pos heq]; rfl,
      by simp [heq, Graph.Dominates]⟩
  · refine ⟨(tree.chain b).contains a, ?_, ?_⟩
    · rw [dominates, if_neg heq, htree.check_eq_ok hb]
      rfl
    · rw [List.contains_iff_mem, htree.mem_chain]

end Describes

end Dominators

namespace Body

variable {body : Body}

theorem exists_dominators (hbody : body.WellFormed) :
    ∃ tree, body.dominators = .ok tree ∧ tree.Describes body ∧
      tree.builtAt = body.revision := by
  have hclosed := hbody.graph_closed
  obtain ⟨nearest, hnearest, hexact⟩ := Graph.nearestDominators?_exact hclosed
  refine ⟨{ nearest, builtAt := body.revision }, ?_, ⟨hexact, hclosed⟩, rfl⟩
  rw [dominators, postorder, Graph.dangling?_eq_none hclosed, hnearest]
  rfl

/-- Dominance as the tree answers it is dominance on all paths, whatever the
shape of the body. -/
theorem dominates_iff_on_every_path (haccepted : body.Accepted) :
    ∃ tree, body.dominators = .ok tree ∧
      ∀ a b, a < body.blocks.size → b < body.blocks.size →
        ∃ answer, tree.dominates a b = .ok answer ∧
          (answer = true ↔ a = b ∨ (body.graph.Reaches Body.entry b ∧
            ∀ path, body.graph.Path Body.entry path b → a ∈ path)) ∧
          (¬ body.graph.Reaches Body.entry a ∨
            ¬ body.graph.Reaches Body.entry b →
              (answer = true ↔ a = b)) := by
  obtain ⟨tree, htree, hdescribes, _⟩ := exists_dominators haccepted.wellFormed
  refine ⟨tree, htree, ?_⟩
  intro a b _ hb
  obtain ⟨answer, hanswer, hiff⟩ := hdescribes.dominates_eq_ok hb
  refine ⟨answer, hanswer, hiff, ?_⟩
  intro hunreached
  rw [hiff]
  constructor
  · intro hdom
    rcases hdom.eq_or_reaches with heq | ⟨ha, hb⟩
    · exact heq
    · exact absurd hunreached (by simp [Body.entry, ha, hb])
  · exact Or.inl

/-- A loop with two ways in, an exception that leaves it, and a block that
nothing leads to. -/
def twoEntryLoop : List Draft.Command :=
  [.block, .block, .block, .block, .block,
    .value 0 (.argument 0) (.primitive .int), .push 0 (.branch .eq 0 none 1 2),
    .push 1 (.goto 2),
    .push 2 (.initClass 0), .push 2 (.branch .ne 0 none 1 3),
    .handler 2 ⟨none, 3⟩, .push 3 (.ret none), .push 4 (.goto 3)]

theorem twoEntryLoop_dominates_iff : ∃ given draft body,
    Draft.run { method := 0, isStatic := true } twoEntryLoop =
        .ok (given, draft) ∧
      draft.build = .ok body ∧
      ∃ tree, body.dominators = .ok tree ∧
        ∀ a b, a < body.blocks.size → b < body.blocks.size →
          ∃ answer, tree.dominates a b = .ok answer ∧
            (answer = true ↔ a = b ∨ (body.graph.Reaches Body.entry b ∧
              ∀ path, body.graph.Path Body.entry path b → a ∈ path)) ∧
            (¬ body.graph.Reaches Body.entry a ∨
              ¬ body.graph.Reaches Body.entry b →
                (answer = true ↔ a = b)) :=
  ⟨_, _, _, rfl, rfl, dominates_iff_on_every_path
    ⟨0, true, twoEntryLoop, _, _, rfl, rfl⟩⟩

end Body

end FlowFacts
