/-
Circles of dependencies.  Values that depend on each other form a circle, and
between circles there are no further circles.  So whenever values are left to
be settled, one of them depends on settled values only, and round by round all
of them are settled.
-/
import Mathlib.Data.Fintype.Card
import Mathlib.Data.Fintype.EquivFin
import Mathlib.Data.Fintype.Sets
import Mathlib.Data.List.Basic
import Mathlib.Logic.Relation
import Mathlib.Order.WellFounded
import FlowFacts.Independence.Dependencies
import FlowFacts.Proofs.Closures

namespace FlowFacts

open Relation

namespace DependencyGraph

variable {graph condensed : DependencyGraph} {component : ValueId → ValueId}
variable {value other source target a b : ValueId}

def DependsOn (graph : DependencyGraph) (source target : ValueId) : Prop :=
  (source, target) ∈ graph.edges

def Mutual (graph : DependencyGraph) (a b : ValueId) : Prop :=
  ReflTransGen graph.DependsOn a b ∧ ReflTransGen graph.DependsOn b a

/-- Dependencies lead from values of the graph to values of the graph. -/
structure Linked (graph : DependencyGraph) : Prop where
  source_mem : ∀ {source target}, graph.DependsOn source target →
    source ∈ graph.nodes
  target_mem : ∀ {source target}, graph.DependsOn source target →
    target ∈ graph.nodes

/-- What can be added to a graph. -/
inductive Addition
  | value (value : ValueId)
  | dependency (source target : ValueId)
deriving DecidableEq, Repr

def add (graph : DependencyGraph) : Addition → DependencyGraph
  | .value value => graph.addValue value
  | .dependency source target => graph.addDependency source target

def ofAdditions (additions : List Addition) : DependencyGraph :=
  additions.foldl add {}

theorem mem_addValue :
    other ∈ (graph.addValue value).nodes ↔ other = value ∨ other ∈ graph.nodes := by
  rw [addValue]
  split
  · next hmem =>
      rw [List.contains_iff_mem] at hmem
      constructor
      · exact Or.inr
      · rintro (rfl | hother)
        · exact hmem
        · exact hother
  · simp [or_comm]

theorem dependsOn_addValue :
    (graph.addValue value).DependsOn source target ↔
      graph.DependsOn source target := by
  rw [addValue]
  split
  · rfl
  · rfl

theorem mem_addDependency :
    other ∈ (graph.addDependency source target).nodes ↔
      other = source ∨ other = target ∨ other ∈ graph.nodes := by
  have hnodes : (graph.addDependency source target).nodes =
      ((graph.addValue source).addValue target).nodes := by
    rw [addDependency]
    split
    · rfl
    · rfl
  rw [hnodes, mem_addValue, mem_addValue]
  tauto

theorem dependsOn_addDependency :
    (graph.addDependency source target).DependsOn a b ↔
      (a = source ∧ b = target) ∨ graph.DependsOn a b := by
  have hkept : (a, b) ∈ ((graph.addValue source).addValue target).edges ↔
      graph.DependsOn a b :=
    dependsOn_addValue.trans dependsOn_addValue
  rw [addDependency, DependsOn]
  split
  · next hmem =>
      rw [List.contains_iff_mem] at hmem
      rw [hkept]
      constructor
      · exact Or.inr
      · rintro (⟨rfl, rfl⟩ | hedge)
        · exact hkept.mp hmem
        · exact hedge
  · rw [List.mem_append, hkept, List.mem_singleton, Prod.mk.injEq, or_comm]

theorem linked_empty : Linked {} where
  source_mem hedge := absurd hedge List.not_mem_nil
  target_mem hedge := absurd hedge List.not_mem_nil

theorem Linked.addValue (hlinked : graph.Linked) (value : ValueId) :
    (graph.addValue value).Linked where
  source_mem hedge :=
    mem_addValue.mpr (Or.inr (hlinked.source_mem (dependsOn_addValue.mp hedge)))
  target_mem hedge :=
    mem_addValue.mpr (Or.inr (hlinked.target_mem (dependsOn_addValue.mp hedge)))

theorem Linked.addDependency (hlinked : graph.Linked)
    (source target : ValueId) : (graph.addDependency source target).Linked where
  source_mem := by
    intro a b hedge
    rw [mem_addDependency]
    rcases dependsOn_addDependency.mp hedge with ⟨rfl, _⟩ | hedge
    · exact Or.inl rfl
    · exact Or.inr (Or.inr (hlinked.source_mem hedge))
  target_mem := by
    intro a b hedge
    rw [mem_addDependency]
    rcases dependsOn_addDependency.mp hedge with ⟨_, rfl⟩ | hedge
    · exact Or.inr (Or.inl rfl)
    · exact Or.inr (Or.inr (hlinked.target_mem hedge))

theorem linked_ofAdditions (additions : List Addition) :
    (ofAdditions additions).Linked := by
  apply List.foldlRecOn
  · exact linked_empty
  · intro graph hlinked addition _
    cases addition with
    | value value => exact hlinked.addValue value
    | dependency source target => exact hlinked.addDependency source target

theorem mem_next : target ∈ graph.next source ↔ graph.DependsOn source target := by
  rw [next, DependsOn, List.mem_filterMap]
  constructor
  · rintro ⟨⟨first, second⟩, hedge, hsome⟩
    split at hsome
    · next heq =>
        obtain rfl := Option.some.inj hsome
        exact heq ▸ hedge
    · cases hsome
  · exact fun hedge => ⟨(source, target), hedge, by simp⟩

/-- As many rounds as there are values find all that a value depends on. -/
theorem mem_below (hlinked : graph.Linked) :
    other ∈ graph.below value ↔ ReflTransGen graph.DependsOn value other := by
  have hsinks : ∀ node, node ∉ graph.nodes → graph.next node = [] := by
    intro node hnode
    apply List.eq_nil_iff_forall_not_mem.mpr
    intro target htarget
    exact hnode (hlinked.source_mem (mem_next.mp htarget))
  obtain ⟨rounds, hrounds, found, hends⟩ : ∃ rounds ≤ graph.nodes.length + 1,
      ∃ found, Exhausts graph.next rounds [] [value] found :=
    exists_exhausts graph.nodes hsinks (List.length_filter_le _ graph.nodes)
      (by simp)
  have hbelow : graph.below value = found := hends.expandRounds_eq hrounds
  rw [hbelow, hends.mem_found]
  simp only [mem_next]

theorem Mutual.refl (graph : DependencyGraph) (value : ValueId) :
    graph.Mutual value value :=
  ⟨.refl, .refl⟩

theorem Mutual.symm (hmutual : graph.Mutual a b) : graph.Mutual b a :=
  ⟨hmutual.2, hmutual.1⟩

theorem Mutual.trans (hfirst : graph.Mutual a b) (hsecond : graph.Mutual b value) :
    graph.Mutual a value :=
  ⟨hfirst.1.trans hsecond.1, hsecond.2.trans hfirst.2⟩

def isMutual (graph : DependencyGraph) (value other : ValueId) : Bool :=
  (graph.below value).contains other && (graph.below other).contains value

theorem isMutual_iff (hlinked : graph.Linked) :
    graph.isMutual value other = true ↔ graph.Mutual value other := by
  rw [isMutual, Bool.and_eq_true, List.contains_iff_mem, List.contains_iff_mem,
    mem_below hlinked, mem_below hlinked]
  rfl

/-- A leader is a value of the graph, and on a circle with all it leads. -/
theorem leader_spec (hlinked : graph.Linked) (hvalue : value ∈ graph.nodes) :
    graph.nodes.find? (graph.isMutual value) = some (graph.leader value) ∧
      graph.leader value ∈ graph.nodes ∧
      graph.Mutual value (graph.leader value) := by
  have hsome : (graph.nodes.find? (graph.isMutual value)).isSome = true :=
    List.find?_isSome.mpr
      ⟨value, hvalue, (isMutual_iff hlinked).mpr (.refl graph value)⟩
  obtain ⟨first, hfirst⟩ := Option.isSome_iff_exists.mp hsome
  have hleader : graph.leader value = first := by
    change (graph.nodes.find? (graph.isMutual value)).getD value = first
    rw [hfirst, Option.getD_some]
  rw [hleader]
  exact ⟨hfirst, List.mem_of_find?_eq_some hfirst,
    (isMutual_iff hlinked).mp (List.find?_some hfirst)⟩

theorem leader_eq_iff (hlinked : graph.Linked) (ha : a ∈ graph.nodes)
    (hb : b ∈ graph.nodes) :
    graph.leader a = graph.leader b ↔ graph.Mutual a b := by
  obtain ⟨hfirst, _, hmutual⟩ := leader_spec hlinked ha
  obtain ⟨hsecond, _, hmutual'⟩ := leader_spec hlinked hb
  constructor
  · intro heq
    rw [heq] at hmutual
    exact hmutual.trans hmutual'.symm
  · intro hab
    -- both are the first value on the same circle
    have hsame : graph.isMutual a = graph.isMutual b := by
      funext other
      rw [Bool.eq_iff_iff, isMutual_iff hlinked, isMutual_iff hlinked]
      exact ⟨fun h => hab.symm.trans h, fun h => hab.trans h⟩
    rw [hsame, hsecond] at hfirst
    exact (Option.some.inj hfirst).symm

/-- The nodes of the second graph stand for the circles of the first one, and
its edges for the dependencies between different circles. -/
structure Condenses (graph : DependencyGraph) (component : ValueId → ValueId)
    (condensed : DependencyGraph) : Prop where
  mem_nodes : ∀ {node}, node ∈ condensed.nodes ↔
    ∃ value ∈ graph.nodes, component value = node
  eq_iff : ∀ {a b}, a ∈ graph.nodes → b ∈ graph.nodes →
    (component a = component b ↔ graph.Mutual a b)
  dependsOn_iff : ∀ {source target}, condensed.DependsOn source target ↔
    source ≠ target ∧ ∃ a b, graph.DependsOn a b ∧
      component a = source ∧ component b = target

theorem condensed_condenses (hlinked : graph.Linked) :
    graph.Condenses graph.leader graph.condensed := by
  have hlookup : ∀ value ∈ graph.nodes,
      ((graph.nodes.map fun value => (value, graph.leader value)).lookup
        value).getD value = graph.leader value := by
    intro value hvalue
    rw [List.lookup_graph graph.leader hvalue, Option.getD_some]
  refine ⟨?_, leader_eq_iff hlinked, ?_⟩
  · intro node
    rw [condensed]
    simp only [List.mem_filter, beq_iff_eq]
    constructor
    · rintro ⟨hmem, hself⟩
      rw [hlookup node hmem] at hself
      exact ⟨node, hmem, hself⟩
    · rintro ⟨value, hvalue, rfl⟩
      obtain ⟨_, hmem, hmutual⟩ := leader_spec hlinked hvalue
      refine ⟨hmem, ?_⟩
      rw [hlookup _ hmem]
      exact ((leader_eq_iff hlinked hvalue hmem).mpr hmutual).symm
  · intro source target
    rw [DependsOn, condensed]
    simp only [List.mem_filterMap]
    constructor
    · rintro ⟨⟨a, b⟩, hedge, hsome⟩
      rw [hlookup a (hlinked.source_mem hedge),
        hlookup b (hlinked.target_mem hedge)] at hsome
      split at hsome
      · cases hsome
      · next hne =>
          obtain ⟨rfl, rfl⟩ := Prod.mk.inj (Option.some.inj hsome)
          exact ⟨hne, a, b, hedge, rfl, rfl⟩
    · rintro ⟨hne, a, b, hedge, rfl, rfl⟩
      refine ⟨(a, b), hedge, ?_⟩
      rw [hlookup a (hlinked.source_mem hedge),
        hlookup b (hlinked.target_mem hedge), if_neg hne]

theorem Condenses.linked (hcondenses : graph.Condenses component condensed)
    (hlinked : graph.Linked) : condensed.Linked where
  source_mem hedge := by
    obtain ⟨_, a, b, hab, rfl, _⟩ := hcondenses.dependsOn_iff.mp hedge
    exact hcondenses.mem_nodes.mpr ⟨a, hlinked.source_mem hab, rfl⟩
  target_mem hedge := by
    obtain ⟨_, a, b, hab, _, rfl⟩ := hcondenses.dependsOn_iff.mp hedge
    exact hcondenses.mem_nodes.mpr ⟨b, hlinked.target_mem hab, rfl⟩

/-- A way between circles leads from every value of the first to every value
of the last. -/
theorem Condenses.reaches (hcondenses : graph.Condenses component condensed)
    (hlinked : graph.Linked)
    (hway : ReflTransGen condensed.DependsOn source target) :
    ∀ a ∈ graph.nodes, ∀ b ∈ graph.nodes, component a = source →
      component b = target → ReflTransGen graph.DependsOn a b := by
  induction hway using ReflTransGen.head_induction_on with
  | refl =>
      intro a ha b hb hsource htarget
      exact ((hcondenses.eq_iff ha hb).mp (hsource.trans htarget.symm)).1
  | head hedge _ ih =>
      intro a ha b hb hsource htarget
      obtain ⟨_, first, second, hstep, hfirst, hsecond⟩ :=
        hcondenses.dependsOn_iff.mp hedge
      have hsame := (hcondenses.eq_iff ha (hlinked.source_mem hstep)).mp
        (hsource.trans hfirst.symm)
      have hrest := ih second (hlinked.target_mem hstep) b hb hsecond htarget
      exact hsame.1.trans (.head hstep hrest)

/-- Between circles there are no circles. -/
theorem Condenses.acyclic (hcondenses : graph.Condenses component condensed)
    (hlinked : graph.Linked) (node : ValueId) :
    ¬ TransGen condensed.DependsOn node node := by
  intro hcircle
  obtain ⟨second, hedge, hback⟩ := TransGen.head'_iff.mp hcircle
  obtain ⟨hne, a, b, hab, rfl, rfl⟩ := hcondenses.dependsOn_iff.mp hedge
  have ha := hlinked.source_mem hab
  have hb := hlinked.target_mem hab
  have hreturn := hcondenses.reaches hlinked hback b hb a ha rfl rfl
  exact hne ((hcondenses.eq_iff ha hb).mpr ⟨.single hab, hreturn⟩)

def isReady (graph : DependencyGraph) (settled : List ValueId)
    (value : ValueId) : Bool :=
  (graph.next value).all settled.contains

theorem isReady_iff {settled : List ValueId} :
    graph.isReady settled value = true ↔
      ∀ target, graph.DependsOn value target → target ∈ settled := by
  simp [isReady, List.all_eq_true, mem_next]

/-- Where settling stands: the values left, and the settled ones. -/
structure Settling where
  pending : List ValueId
  settled : List ValueId
deriving DecidableEq, Repr

namespace Settling

variable {state next : Settling}

/-- A round settles all values that are ready, of which there must be some. -/
inductive Round (graph : DependencyGraph) : Settling → Settling → Prop
  | settle {pending settled : List ValueId}
      (hready : ∃ value ∈ pending, graph.isReady settled value = true) :
      Round graph ⟨pending, settled⟩
        ⟨pending.filter fun value => !graph.isReady settled value,
          pending.filter (graph.isReady settled) ++ settled⟩

def start (graph : DependencyGraph) : Settling := ⟨graph.nodes, []⟩

def Covers (graph : DependencyGraph) (state : Settling) : Prop :=
  ∀ value ∈ graph.nodes, value ∈ state.pending ∨ value ∈ state.settled

theorem Covers.round (hcovers : Covers graph state)
    (hround : Round graph state next) : Covers graph next := by
  cases hround with
  | @settle pending settled hready =>
      intro value hvalue
      simp only [List.mem_append, List.mem_filter, Bool.not_eq_true']
      rcases hcovers value hvalue with hpending | hsettled
      · cases graph.isReady settled value with
        | true => exact Or.inr (Or.inl ⟨hpending, rfl⟩)
        | false => exact Or.inl ⟨hpending, rfl⟩
      · exact Or.inr (Or.inr hsettled)

theorem covers_of_run (hrun : ReflTransGen (Round graph) (start graph) state) :
    Covers graph state := by
  induction hrun with
  | refl => exact fun _ hvalue => Or.inl hvalue
  | tail _ hround ih => exact ih.round hround

theorem Round.length_lt (hround : Round graph state next) :
    next.pending.length < state.pending.length := by
  cases hround with
  | settle hready =>
      obtain ⟨value, hpending, hready⟩ := hready
      apply List.length_filter_lt_length_iff_exists.mpr
      exact ⟨value, hpending, by simp [hready]⟩

/-- Rounds cannot go on for ever. -/
theorem acc_round (graph : DependencyGraph) (state : Settling) :
    Acc (Function.swap (Round graph)) state :=
  Subrelation.accessible (fun hround => Round.length_lt hround)
    ((measure fun state : Settling => state.pending.length).wf.apply state)

/-- Among values without circles, one of those left depends on none of those
left. -/
theorem exists_round (hlinked : graph.Linked)
    (hacyclic : ∀ node, ¬ TransGen graph.DependsOn node node)
    (hcovers : Covers graph state) (hpending : state.pending ≠ []) :
    ∃ next, Round graph state next := by
  obtain ⟨pending, settled⟩ := state
  let after (first second : { value // value ∈ pending }) : Prop :=
    TransGen graph.DependsOn second.1 first.1
  have : IsTrans _ after := ⟨fun _ _ _ hfirst hsecond => hsecond.trans hfirst⟩
  have : Std.Irrefl after := ⟨fun value => hacyclic value.1⟩
  have hwf : WellFounded after := Finite.wellFounded_of_trans_of_irrefl after
  obtain ⟨first, hfirst⟩ := List.exists_mem_of_ne_nil pending hpending
  obtain ⟨last, _, hlast⟩ := hwf.has_min Set.univ ⟨⟨first, hfirst⟩, trivial⟩
  refine ⟨_, .settle ⟨last.1, last.2, isReady_iff.mpr ?_⟩⟩
  intro target hedge
  rcases hcovers target (hlinked.target_mem hedge) with hleft | hsettled
  · exact absurd (.single hedge) (hlast ⟨target, hleft⟩ trivial)
  · exact hsettled

/-- A round of the function is a round. -/
theorem Round.settles_eq (hround : Round graph state next) (rounds : Nat) :
    graph.settles (rounds + 1) state.pending state.settled =
      graph.settles rounds next.pending next.settled := by
  cases hround with
  | @settle pending settled hready =>
      obtain ⟨value, hpending, hready⟩ := hready
      have hpending' : ¬ pending.isEmpty = true := by
        rw [List.isEmpty_iff]
        exact List.ne_nil_of_mem hpending
      have hsome : ¬ (pending.filter (graph.isReady settled)).isEmpty = true := by
        rw [List.isEmpty_iff]
        exact List.ne_nil_of_mem (List.mem_filter.mpr ⟨hpending, hready⟩)
      rw [settles, if_neg hpending']
      exact if_neg hsome

/-- Settling ends with nothing left, and then the answer is yes. -/
theorem exists_run (hlinked : graph.Linked)
    (hacyclic : ∀ node, ¬ TransGen graph.DependsOn node node)
    {rounds : Nat} (hcovers : Covers graph state)
    (hrounds : state.pending.length ≤ rounds) :
    (∃ settled, ReflTransGen (Round graph) state ⟨[], settled⟩) ∧
      graph.settles rounds state.pending state.settled = true := by
  induction rounds generalizing state with
  | zero =>
      obtain ⟨pending, settled⟩ := state
      obtain rfl := List.eq_nil_of_length_eq_zero (Nat.le_zero.mp hrounds)
      exact ⟨⟨settled, .refl⟩, rfl⟩
  | succ rounds ih =>
      by_cases hpending : state.pending = []
      · obtain ⟨pending, settled⟩ := state
        obtain rfl := hpending
        exact ⟨⟨settled, .refl⟩, rfl⟩
      · obtain ⟨next, hround⟩ := exists_round hlinked hacyclic hcovers hpending
        have hless := hround.length_lt
        obtain ⟨⟨settled, hrun⟩, hsettles⟩ :=
          ih (hcovers.round hround) (by omega)
        rw [hround.settles_eq]
        exact ⟨⟨settled, .head hround hrun⟩, hsettles⟩

end Settling

/-- Everything can be settled. -/
theorem Linked.isIndependent (hlinked : graph.Linked) :
    graph.isIndependent = true := by
  have hcondenses := condensed_condenses hlinked
  have hcovers : Settling.Covers graph.condensed (.start graph.condensed) :=
    Settling.covers_of_run .refl
  exact (Settling.exists_run (hcondenses.linked hlinked)
    (hcondenses.acyclic hlinked) hcovers (Nat.le_refl _)).2

/-- However a graph has been put together, its circles are condensed into a
graph without circles; in any such graph, settling has no endless run, finds a
value that is ready as long as values are left, and so comes to its end with
nothing left.  The answer is that all values are independent. -/
theorem ofAdditions_isIndependent (additions : List Addition) :
    (ofAdditions additions).Condenses (ofAdditions additions).leader
      (ofAdditions additions).condensed ∧
    (∀ component condensed,
      (ofAdditions additions).Condenses component condensed →
        (∀ node, ¬ TransGen condensed.DependsOn node node) ∧
        Acc (Function.swap (Settling.Round condensed)) (.start condensed) ∧
        (∀ state, ReflTransGen (Settling.Round condensed) (.start condensed)
            state → state.pending ≠ [] →
          ∃ next, Settling.Round condensed state next) ∧
        (∃ settled, ReflTransGen (Settling.Round condensed) (.start condensed)
          ⟨[], settled⟩) ∧
        condensed.settles condensed.nodes.length condensed.nodes [] = true) ∧
    (ofAdditions additions).isIndependent = true := by
  have hlinked := linked_ofAdditions additions
  refine ⟨condensed_condenses hlinked, ?_, hlinked.isIndependent⟩
  intro component condensed hcondenses
  have hlinked' := hcondenses.linked hlinked
  have hacyclic := hcondenses.acyclic hlinked
  obtain ⟨hrun, hsettles⟩ := Settling.exists_run hlinked' hacyclic
    (Settling.covers_of_run .refl) (Nat.le_refl condensed.nodes.length)
  refine ⟨hacyclic, Settling.acc_round condensed _, ?_, hrun, hsettles⟩
  intro state hstate hpending
  exact Settling.exists_round hlinked' hacyclic (Settling.covers_of_run hstate)
    hpending

/-- Two circles of two values, with a value between them that depends on
itself, and a value apart. -/
def twoCircles : List Addition :=
  [.dependency 0 1, .dependency 1 0, .dependency 1 2, .dependency 2 2,
    .dependency 2 3, .dependency 3 4, .dependency 4 3, .value 5]

theorem twoCircles_isIndependent :
    (ofAdditions twoCircles).condensed =
        { nodes := [0, 2, 3, 5], edges := [(0, 2), (2, 3)] } ∧
      (∀ node, ¬ TransGen (ofAdditions twoCircles).condensed.DependsOn node node) ∧
      (∃ settled, ReflTransGen
        (Settling.Round (ofAdditions twoCircles).condensed)
        (.start (ofAdditions twoCircles).condensed) ⟨[], settled⟩) ∧
      (ofAdditions twoCircles).isIndependent = true := by
  obtain ⟨hcondenses, hsettling, hindependent⟩ :=
    ofAdditions_isIndependent twoCircles
  obtain ⟨hacyclic, _, _, hrun, _⟩ := hsettling _ _ hcondenses
  exact ⟨by decide, hacyclic, hrun, hindependent⟩

end DependencyGraph

end FlowFacts
