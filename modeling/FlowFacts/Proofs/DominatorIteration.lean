/-
The dominator iteration, step by step and without a limit.  Every node that
the pass has gone by has a pointer, and pointers lead to earlier nodes, so two
nodes that are merged climb until they meet; the passes stop changing
anything, so the iteration comes to its end from wherever it stands.
-/
import Mathlib.Logic.Relation
import FlowFacts.Proofs.DominatorTree

namespace FlowFacts

open Relation

/-- A run without choices that comes to an end is the only one. -/
theorem acc_of_run {α : Type} {step : α → α → Prop} {start last : α}
    (hunique : Relator.RightUnique step) (hrun : ReflTransGen step start last)
    (hlast : ∀ next, ¬ step last next) : Acc (Function.swap step) start := by
  induction hrun using ReflTransGen.head_induction_on with
  | refl => exact ⟨_, fun next hstep => absurd hstep (hlast next)⟩
  | head hfirst _ ih =>
      constructor
      intro next hstep
      exact hunique hfirst hstep ▸ ih

namespace Graph

variable {graph : Graph} {order : List Nat} {rank : Nat → Nat}
variable {pointers before result : Pointers} {a b node : Nat} {nodes : List Nat}

/-- Two nodes meet at `top`, when the later of them moves up again and again.
Whatever moves has a pointer, and the pointer leads to an earlier node. -/
inductive Meets (rank : Nat → Nat) (pointers : Pointers) :
    Nat → Nat → Nat → Prop
  | same (node : Nat) : Meets rank pointers node node node
  | left {a b up top : Nat} (hlater : rank b < rank a)
      (hup : pointers.getD a none = some up) (hearlier : rank up < rank a)
      (hrest : Meets rank pointers up b top) : Meets rank pointers a b top
  | right {a b up top : Nat} (hlater : rank a < rank b)
      (hup : pointers.getD b none = some up) (hearlier : rank up < rank b)
      (hrest : Meets rank pointers a up top) : Meets rank pointers a b top

/-- Merging with enough steps comes to where the nodes meet. -/
theorem Meets.merge_eq {steps top : Nat} (hmeets : Meets rank pointers a b top)
    (hsteps : rank a + rank b < steps) :
    merge pointers rank steps a b = some top := by
  induction hmeets generalizing steps with
  | same node =>
      cases steps with
      | zero => omega
      | succ steps => simp [merge]
  | @left a b up top hlater hup hearlier hrest ih =>
      cases steps with
      | zero => omega
      | succ steps =>
          have hne : a ≠ b := fun heq => Nat.lt_irrefl _ (heq ▸ hlater)
          simp only [merge, hne, hlater, hup, if_true, if_false]
          exact ih (by omega)
  | @right a b up top hlater hup hearlier hrest ih =>
      cases steps with
      | zero => omega
      | succ steps =>
          have hne : a ≠ b := fun heq => Nat.lt_irrefl _ (heq ▸ hlater)
          have hnot : ¬ rank b < rank a := Nat.lt_asymm hlater
          simp only [merge, hne, hnot, hup, if_false]
          exact ih (by omega)

theorem Forest.exists_meets (hforest : graph.Forest rank pointers)
    (hrank : graph.Ranking order rank) (ha : (pointers.getD a none).isSome)
    (hb : (pointers.getD b none).isSome) :
    ∃ top, Meets rank pointers a b top := by
  induction hplaces : rank a + rank b using Nat.strongRecOn generalizing a b with
  | _ places ih =>
      subst hplaces
      have hra := hforest.reached_of_isSome ha
      have hrb := hforest.reached_of_isSome hb
      rcases Nat.lt_trichotomy (rank a) (rank b) with hlt | heq | hlt
      · obtain ⟨up, hup, hless, _⟩ := hforest.exists_move_up hrank hb hra hlt
        obtain ⟨top, htop⟩ := ih _ (by omega) ha (hforest.pointed hup) rfl
        exact ⟨top, .right hlt hup hless htop⟩
      · obtain rfl := hrank.rank_inj hra hrb heq
        exact ⟨a, .same a⟩
      · obtain ⟨up, hup, hless, _⟩ := hforest.exists_move_up hrank ha hrb hlt
        obtain ⟨top, htop⟩ := ih _ (by omega) (hforest.pointed hup) hb rfl
        exact ⟨top, .left hlt hup hless htop⟩

/-- Where the iteration stands: the pointers at the start of the running pass,
the nodes that the pass has still to visit, and the pointers now. -/
structure Iteration where
  before : Pointers
  coming : List Nat
  pointers : Pointers
deriving DecidableEq, Repr

namespace Iteration

variable {state next : Iteration}

/-- The iteration visits the next node, or starts another pass after one that
has changed something. -/
inductive Step (graph : Graph) : Iteration → Iteration → Prop
  | visit {before pointers improved : Pointers} {node : Nat} {coming : List Nat}
      (himprove : graph.improve graph.place pointers node (graph.previous node) =
        some improved) :
      Step graph ⟨before, node :: coming, pointers⟩ ⟨before, coming, improved⟩
  | again {before pointers : Pointers} (hchanged : pointers ≠ before) :
      Step graph ⟨before, [], pointers⟩
        ⟨pointers, graph.reversePostorder.tail, pointers⟩

def start (graph : Graph) : Iteration :=
  ⟨graph.start, graph.reversePostorder.tail, graph.start⟩

/-- Here the iteration merges a predecessor of the node that it visits into
what the predecessors before it have been merged into. -/
def Merges (graph : Graph) (state : Iteration) (source up : Nat) : Prop :=
  ∃ node coming first done rest, state.coming = node :: coming ∧
    (graph.previous node).filter
        (fun source => (state.pointers.getD source none).isSome) =
      first :: (done ++ source :: rest) ∧
    done.foldlM (fun up source =>
      merge state.pointers graph.place (2 * graph.size + 1) source up) first =
        some up

theorem step_rightUnique (graph : Graph) : Relator.RightUnique (Step graph) := by
  intro state first second hfirst hsecond
  cases hfirst with
  | visit himprove =>
      cases hsecond with
      | visit himprove' => rw [Option.some.inj (himprove.symm.trans himprove')]
  | again =>
      cases hsecond with
      | again => rfl

theorem not_step_of_unchanged (result : Pointers) :
    ¬ Step graph ⟨result, [], result⟩ next := by
  intro hstep
  cases hstep with
  | again hchanged => exact hchanged rfl

theorem run_of_pass (before : Pointers)
    (hpass : graph.pass graph.place (graph.stops nodes) pointers = some result) :
    ReflTransGen (Step graph) ⟨before, nodes, pointers⟩ ⟨before, [], result⟩ := by
  induction nodes generalizing pointers with
  | nil =>
      obtain rfl := Option.some.inj hpass
      exact .refl
  | cons node nodes ih =>
      simp only [pass, stops, List.map_cons, List.foldlM_cons,
        Option.bind_eq_bind, Option.bind_eq_some_iff] at hpass
      obtain ⟨improved, himprove, hrest⟩ := hpass
      exact .head (.visit himprove) (ih hrest)

theorem run_of_settle {rounds : Nat}
    (hsettle : graph.settle graph.place
      (graph.stops graph.reversePostorder.tail) rounds pointers = some result) :
    ReflTransGen (Step graph)
      ⟨pointers, graph.reversePostorder.tail, pointers⟩ ⟨result, [], result⟩ := by
  induction rounds generalizing pointers with
  | zero => cases hsettle
  | succ rounds ih =>
      simp only [settle, Option.bind_eq_bind, Option.bind_eq_some_iff] at hsettle
      obtain ⟨improved, hpass, hrest⟩ := hsettle
      have hrun := run_of_pass pointers hpass
      split at hrest
      · next hsame =>
          obtain rfl := Option.some.inj hrest
          rwa [hsame] at hrun
      · next hchanged => exact hrun.trans (.head (.again hchanged) (ih hrest))

/-- The pointers are in order, and all nodes that the pass has gone by have
one. -/
structure Sound (graph : Graph) (state : Iteration) : Prop where
  forest : graph.Forest graph.place state.pointers
  visited : ∃ done, graph.reversePostorder = 0 :: (done ++ state.coming) ∧
    ∀ node ∈ 0 :: done, (state.pointers.getD node none).isSome

theorem sound_start (hgraph : graph.Closed) : Sound graph (start graph) where
  forest := forest_start hgraph graph.place
  visited := by
    refine ⟨[], (ranking_place hgraph).head, ?_⟩
    simp [start, getD_start hgraph]

/-- The node that is visited comes after one of its predecessors, which has a
pointer. -/
theorem Sound.exists_improvement (hgraph : graph.Closed) {coming : List Nat}
    (hsound : Sound graph ⟨before, node :: coming, pointers⟩) :
    ∃ up, graph.improve graph.place pointers node (graph.previous node) =
        some (moved pointers node up) ∧
      graph.Improvement graph.place pointers node up := by
  obtain ⟨done, horder, hdone⟩ := hsound.visited
  have hrank := ranking_place hgraph
  have hsplit : graph.reversePostorder = (0 :: done) ++ node :: coming := horder
  have hne : node ≠ 0 := by
    rintro rfl
    have hnodup := hrank.nodup
    rw [horder] at hnodup
    simp at hnodup
  have hreach : graph.Reaches 0 node :=
    (hrank.mem_iff node).mp (by simp [hsplit])
  obtain ⟨source, hsource, hedge⟩ := hrank.earlier _ node coming hsplit hne
  exact hsound.forest.improve_spec hrank hgraph hne hreach hedge
    (hdone source hsource) (hrank.rank_lt_of_before hsplit hsource)

theorem Sound.step (hgraph : graph.Closed) (hsound : Sound graph state)
    (hstep : Step graph state next) : Sound graph next := by
  cases hstep with
  | @visit before pointers improved node coming himprove =>
      obtain ⟨up, himproved, hmove⟩ := hsound.exists_improvement hgraph
      obtain rfl := Option.some.inj (himproved.symm.trans himprove)
      obtain ⟨done, horder, hdone⟩ := hsound.visited
      refine ⟨hsound.forest.move hmove hgraph, done ++ [node], ?_, ?_⟩
      · simpa using horder
      · intro other hother
        apply hsound.forest.isSome_moved hmove hgraph
        rw [← List.cons_append, List.mem_append] at hother
        rcases hother with hother | hother
        · exact Or.inr (hdone other hother)
        · exact Or.inl (List.mem_singleton.mp hother)
  | again =>
      refine ⟨hsound.forest, [], (ranking_place hgraph).head, ?_⟩
      intro other hother
      obtain rfl := List.mem_singleton.mp hother
      rw [hsound.forest.entry]
      rfl

theorem Sound.run (hgraph : graph.Closed)
    (hrun : ReflTransGen (Step graph) (start graph) state) :
    Sound graph state := by
  induction hrun with
  | refl => exact sound_start hgraph
  | tail _ hstep ih => exact ih.step hgraph hstep

/-- What is merged has pointers: the predecessors are chosen so, and the rest
is above them. -/
theorem Sound.exists_meets (hgraph : graph.Closed) (hsound : Sound graph state)
    {source up : Nat} (hmerges : Merges graph state source up) :
    ∃ top, Meets graph.place state.pointers source up top ∧
      merge state.pointers graph.place (2 * graph.size + 1) source up =
        some top := by
  obtain ⟨node, coming, first, done, rest, _, hpointing, hup⟩ := hmerges
  have hforest := hsound.forest
  have hrank := ranking_place hgraph
  have hsome : ∀ other ∈ first :: (done ++ source :: rest),
      (state.pointers.getD other none).isSome := by
    intro other hother
    rw [← hpointing] at hother
    simpa using (List.mem_filter.mp hother).2
  have hsource := hsome source (by simp)
  obtain ⟨merged, hmerged, habove, _⟩ := hforest.merge_all_spec hrank hgraph
    (fun other hother => hsome other (by simp at hother ⊢; tauto))
  obtain rfl := Option.some.inj (hmerged.symm.trans hup)
  have hupSome := hforest.isSome_of_above (habove first List.mem_cons_self)
    (hsome first List.mem_cons_self)
  obtain ⟨top, htop⟩ := hforest.exists_meets hrank hsource hupSome
  refine ⟨top, htop, htop.merge_eq ?_⟩
  have hlength := hrank.length_le_size hgraph
  have hlts := hrank.rank_lt_length (hforest.reached_of_isSome hsource)
  have hltu := hrank.rank_lt_length (hforest.reached_of_isSome hupSome)
  omega

end Iteration

end Graph

namespace Body

variable {body : Body}

theorem nearestDominators?_of_dominators {tree : Dominators}
    (htree : body.dominators = .ok tree) :
    body.graph.nearestDominators? = some tree.nearest := by
  obtain ⟨order, _, hrest⟩ := exists_of_bind htree
  split at hrest
  · next nearest hnearest =>
      obtain rfl := Except.ok.inj hrest
      exact hnearest
  · cases hrest

/-- The iteration has no endless run and comes to the dominators, and wherever
it merges two nodes on its way, they meet. -/
theorem dominators_iteration_ends (haccepted : body.Accepted) :
    Acc (Function.swap (Graph.Iteration.Step body.graph))
      (Graph.Iteration.start body.graph) ∧
    (∃ tree, body.dominators = .ok tree ∧
      ReflTransGen (Graph.Iteration.Step body.graph)
        (Graph.Iteration.start body.graph)
        ⟨tree.nearest, [], tree.nearest⟩) ∧
    ∀ state, ReflTransGen (Graph.Iteration.Step body.graph)
        (Graph.Iteration.start body.graph) state →
      ∀ source up, Graph.Iteration.Merges body.graph state source up →
        ∃ top, Graph.Meets body.graph.place state.pointers source up top ∧
          Graph.merge state.pointers body.graph.place (2 * body.graph.size + 1)
            source up = some top := by
  have hclosed := haccepted.wellFormed.graph_closed
  obtain ⟨tree, htree, _⟩ := exists_dominators haccepted.wellFormed
  have hrun := Graph.Iteration.run_of_settle
    (nearestDominators?_of_dominators htree)
  refine ⟨?_, ⟨tree, htree, hrun⟩, ?_⟩
  · apply acc_of_run (Graph.Iteration.step_rightUnique body.graph) hrun
    exact fun next => Graph.Iteration.not_step_of_unchanged tree.nearest
  · intro state hstate source up hmerges
    exact (Graph.Iteration.Sound.run hclosed hstate).exists_meets hclosed hmerges

/-- The graph of the loop with two ways in. -/
def twoEntryGraph : Graph := ⟨#[[1, 2], [2], [1, 3], [], [3]]⟩

/-- The first pass has just given block `2` a pointer when it merges the
predecessors `0` and `2` of block `1`. -/
theorem twoEntryGraph_merges : ∃ state,
    ReflTransGen (Graph.Iteration.Step twoEntryGraph)
        (Graph.Iteration.start twoEntryGraph) state ∧
      Graph.Iteration.Merges twoEntryGraph state 2 0 := by
  have hstart : Graph.Iteration.start twoEntryGraph =
      ⟨twoEntryGraph.start, [2, 1, 3], twoEntryGraph.start⟩ := by decide
  have himprove : twoEntryGraph.improve twoEntryGraph.place twoEntryGraph.start
      2 (twoEntryGraph.previous 2) =
        some #[some 0, none, some 0, none, none] := by decide
  refine ⟨⟨twoEntryGraph.start, [1, 3], #[some 0, none, some 0, none, none]⟩,
    ?_, ?_⟩
  · rw [hstart]
    exact .single (.visit himprove)
  · exact ⟨1, [3], 0, [], [], rfl, by decide, rfl⟩

theorem twoEntryLoop_iteration_ends : ∃ given draft body,
    Draft.run { method := 0, isStatic := true } twoEntryLoop =
        .ok (given, draft) ∧
      draft.build = .ok body ∧
      Acc (Function.swap (Graph.Iteration.Step body.graph))
        (Graph.Iteration.start body.graph) ∧
      ∃ state, ReflTransGen (Graph.Iteration.Step body.graph)
          (Graph.Iteration.start body.graph) state ∧
        Graph.Iteration.Merges body.graph state 2 0 ∧
        ∃ top, Graph.Meets body.graph.place state.pointers 2 0 top := by
  have hbuilt : ∃ given draft body,
      Draft.run { method := 0, isStatic := true } twoEntryLoop =
          .ok (given, draft) ∧
        draft.build = .ok body ∧ body.graph = twoEntryGraph :=
    ⟨_, _, _, rfl, rfl, rfl⟩
  obtain ⟨given, draft, body, hrun, hbuild, hgraph⟩ := hbuilt
  obtain ⟨hacc, _, hmeets⟩ := dominators_iteration_ends
    ⟨0, true, twoEntryLoop, given, draft, hrun, hbuild⟩
  obtain ⟨state, hstate, hmerges⟩ := twoEntryGraph_merges
  rw [← hgraph] at hstate hmerges
  obtain ⟨top, htop, _⟩ := hmeets state hstate 2 0 hmerges
  exact ⟨given, draft, body, hrun, hbuild, hacc, state, hstate, hmerges, top, htop⟩

end Body

end FlowFacts
