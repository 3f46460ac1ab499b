/-
The dominator iteration.  Every pointer leads to a node that all strict
dominators still dominate, so no dominator is ever lost from the chain of
pointers above a node.  After the first pass, each further pass makes the
chains fit into paths that are one node longer; paths without repetitions are
bounded, so the iteration settles, and then the chains are exactly the
dominators.
-/
import FlowFacts.Flow.Dominators
import FlowFacts.Proofs.Postorder

namespace FlowFacts

namespace Graph

variable {graph : Graph} {order : List Nat} {rank : Nat → Nat}
variable {pointers : Pointers}

/-- An order of the reachable nodes, with the places of its nodes. -/
structure Ranking (graph : Graph) (order : List Nat) (rank : Nat → Nat) : Prop
    extends graph.IsOrder order where
  rank_eq : ∀ node ∈ order, rank node = order.idxOf node

namespace Ranking

theorem rank_lt_length (hrank : graph.Ranking order rank) {node : Nat}
    (hreach : graph.Reaches 0 node) : rank node < order.length := by
  have hnode := (hrank.mem_iff node).mpr hreach
  rw [hrank.rank_eq node hnode]
  exact List.idxOf_lt_length_of_mem hnode

theorem length_le_size (hrank : graph.Ranking order rank)
    (hgraph : graph.Closed) : order.length ≤ graph.size :=
  length_le_of_lt hrank.nodup fun node hnode =>
    ((hrank.mem_iff node).mp hnode).lt_size hgraph

theorem rank_inj (hrank : graph.Ranking order rank) {a b : Nat}
    (ha : graph.Reaches 0 a) (hb : graph.Reaches 0 b)
    (heq : rank a = rank b) : a = b := by
  have ha := (hrank.mem_iff a).mpr ha
  rw [hrank.rank_eq a ha, hrank.rank_eq b ((hrank.mem_iff b).mpr hb)] at heq
  exact List.idxOf_inj ha |>.mp heq

theorem rank_lt_of_before (hrank : graph.Ranking order rank)
    {before after : List Nat} {source node : Nat}
    (horder : order = before ++ node :: after) (hsource : source ∈ before) :
    rank source < rank node := by
  have hfresh : node ∉ before := by
    have hnodup := hrank.nodup
    rw [horder, List.nodup_append] at hnodup
    exact fun hnode => hnodup.2.2 node hnode node List.mem_cons_self rfl
  rw [hrank.rank_eq source (by simp [horder, hsource]),
    hrank.rank_eq node (by simp [horder]), horder,
    List.idxOf_append_of_mem hsource, List.idxOf_append_of_notMem hfresh]
  have hlt := List.idxOf_lt_length_of_mem hsource
  simp only [List.idxOf_cons_self]
  omega

theorem exists_earlier (hrank : graph.Ranking order rank) {node : Nat}
    (hreach : graph.Reaches 0 node) (hne : node ≠ 0) :
    ∃ source, graph.Reaches 0 source ∧ node ∈ graph.next source ∧
      rank source < rank node := by
  obtain ⟨before, after, horder⟩ :=
    List.append_of_mem ((hrank.mem_iff node).mpr hreach)
  obtain ⟨source, hsource, hedge⟩ :=
    hrank.earlier before node after horder hne
  refine ⟨source, (hrank.mem_iff source).mp (by simp [horder, hsource]),
    hedge, hrank.rank_lt_of_before horder hsource⟩

/-- A dominator does not come after the nodes it dominates. -/
theorem rank_le_of_dominates (hrank : graph.Ranking order rank) {a b : Nat}
    (hreach : graph.Reaches 0 b) (hdom : graph.Dominates a b) :
    rank a ≤ rank b := by
  induction hb : rank b using Nat.strongRecOn generalizing b with
  | _ place ih =>
      subst hb
      by_cases heq : a = b
      · exact heq ▸ Nat.le_refl _
      · by_cases hzero : b = 0
        · subst hzero
          exact absurd hdom.eq_zero heq
        · obtain ⟨source, hsource, hedge, hlt⟩ :=
            hrank.exists_earlier hreach hzero
          have hle := ih _ hlt hsource (hdom.of_edge heq hsource hedge) rfl
          omega

end Ranking

/-- The node `top` is met when pointers are followed upwards. -/
inductive Above (pointers : Pointers) : Nat → Nat → Prop
  | refl (node : Nat) : Above pointers node node
  | step {node up top : Nat} (hup : pointers.getD node none = some up)
      (hrest : Above pointers up top) : Above pointers node top

theorem Above.trans {a b c : Nat} (hab : Above pointers a b)
    (hbc : Above pointers b c) : Above pointers a c := by
  induction hab with
  | refl => exact hbc
  | step hup _ ih => exact .step hup (ih hbc)

/-- Without a pointer there is nothing above a node but itself. -/
theorem Above.eq_of_none {a b : Nat} (hab : Above pointers a b)
    (hnone : pointers.getD a none = none) : a = b := by
  cases hab with
  | refl => rfl
  | step hup _ => rw [hnone] at hup; cases hup

/-- What holds of the pointers at every moment of the iteration. -/
structure Forest (graph : Graph) (rank : Nat → Nat) (pointers : Pointers) :
    Prop where
  size_eq : pointers.size = graph.size
  entry : pointers.getD 0 none = some 0
  reached : ∀ {node up}, pointers.getD node none = some up →
    graph.Reaches 0 node
  pointed : ∀ {node up}, pointers.getD node none = some up →
    (pointers.getD up none).isSome
  rank_lt : ∀ {node up}, node ≠ 0 → pointers.getD node none = some up →
    rank up < rank node
  /-- No strict dominator is passed over. -/
  keeps : ∀ {node up a}, pointers.getD node none = some up → a ≠ node →
    graph.Dominates a node → graph.Dominates a up

namespace Forest

theorem exists_up {node : Nat} (hnode : (pointers.getD node none).isSome) :
    ∃ up, pointers.getD node none = some up :=
  Option.isSome_iff_exists.mp hnode

theorem reached_of_isSome (hforest : graph.Forest rank pointers) {node : Nat}
    (hnode : (pointers.getD node none).isSome) : graph.Reaches 0 node := by
  obtain ⟨up, hup⟩ := exists_up hnode
  exact hforest.reached hup

theorem eq_none_of_not_reaches (hforest : graph.Forest rank pointers)
    {node : Nat} (hreach : ¬ graph.Reaches 0 node) :
    pointers.getD node none = none := by
  rw [Option.eq_none_iff_forall_ne_some]
  exact fun up hup => hreach (hforest.reached hup)

theorem eq_zero_of_above (hforest : graph.Forest rank pointers)
    {node top : Nat} (habove : Above pointers node top) (hnode : node = 0) :
    top = 0 := by
  induction habove with
  | refl => exact hnode
  | step hup _ ih =>
      rw [hnode, hforest.entry, Option.some.injEq] at hup
      exact ih hup.symm

theorem isSome_of_above (hforest : graph.Forest rank pointers) {a b : Nat}
    (habove : Above pointers a b) (ha : (pointers.getD a none).isSome) :
    (pointers.getD b none).isSome := by
  induction habove with
  | refl => exact ha
  | step hup _ ih => exact ih (hforest.pointed hup)

theorem rank_le_of_above (hforest : graph.Forest rank pointers) {a b : Nat}
    (habove : Above pointers a b) : rank b ≤ rank a := by
  induction habove with
  | refl => exact Nat.le_refl _
  | @step node up top hup _ ih =>
      by_cases hzero : node = 0
      · subst hzero
        rw [hforest.entry, Option.some.injEq] at hup
        rwa [hup]
      · have hlt := hforest.rank_lt hzero hup
        omega

/-- Every dominator of a node stands above it. -/
theorem above_of_dominates (hforest : graph.Forest rank pointers) {a b : Nat}
    (hb : (pointers.getD b none).isSome) (hdom : graph.Dominates a b) :
    Above pointers b a := by
  induction hplace : rank b using Nat.strongRecOn generalizing b with
  | _ place ih =>
      subst hplace
      by_cases heq : a = b
      · rw [heq]
        exact .refl b
      · obtain ⟨up, hup⟩ := exists_up hb
        have hzero : b ≠ 0 := by
          rintro rfl
          exact heq hdom.eq_zero
        exact .step hup (ih _ (hforest.rank_lt hzero hup)
          (hforest.pointed hup) (hforest.keeps hup heq hdom) rfl)

end Forest

/-- Where the pointer of a node is moved to by its predecessors. -/
structure Improvement (graph : Graph) (rank : Nat → Nat) (pointers : Pointers)
    (node up : Nat) : Prop where
  node_ne : node ≠ 0
  reached : graph.Reaches 0 node
  pointed : (pointers.getD up none).isSome
  rank_lt : rank up < rank node
  keeps : ∀ {a}, a ≠ node → graph.Dominates a node → graph.Dominates a up
  common : ∀ {source}, node ∈ graph.next source →
    (pointers.getD source none).isSome → Above pointers source up

abbrev moved (pointers : Pointers) (node up : Nat) : Pointers :=
  pointers.setIfInBounds node (some up)

theorem getD_moved_self {node up : Nat} (hnode : node < pointers.size) :
    (moved pointers node up).getD node none = some up := by
  simp [hnode]

theorem getD_moved_ne {node up other : Nat} (hne : other ≠ node) :
    (moved pointers node up).getD other none = pointers.getD other none := by
  simp [Array.getElem?_setIfInBounds_ne hne.symm]

/-- A way up in the moved pointers is an old one, or an old one to the node
moved and on from where it points now. -/
theorem Above.of_moved {node up start top : Nat}
    (hnode : node < pointers.size)
    (habove : Above (moved pointers node up) start top) :
    Above pointers start top ∨
      (Above pointers start node ∧ Above pointers up top) := by
  induction habove with
  | refl => exact Or.inl (.refl _)
  | @step start next top hup _ ih =>
      by_cases heq : start = node
      · subst heq
        rw [getD_moved_self hnode, Option.some.injEq] at hup
        subst hup
        exact Or.inr ⟨.refl _, ih.elim id And.right⟩
      · rw [getD_moved_ne heq] at hup
        rcases ih with ih | ⟨ih, htop⟩
        · exact Or.inl (.step hup ih)
        · exact Or.inr ⟨.step hup ih, htop⟩

namespace Forest

theorem isSome_moved (hforest : graph.Forest rank pointers) {node up : Nat}
    (himprove : graph.Improvement rank pointers node up)
    (hgraph : graph.Closed) {other : Nat}
    (hother : other = node ∨ (pointers.getD other none).isSome) :
    ((moved pointers node up).getD other none).isSome := by
  by_cases heq : other = node
  · have hlt := himprove.reached.lt_size hgraph
    rw [heq, getD_moved_self (hforest.size_eq ▸ hlt)]
    rfl
  · rw [getD_moved_ne heq]
    exact hother.resolve_left heq

theorem move (hforest : graph.Forest rank pointers) {node up : Nat}
    (himprove : graph.Improvement rank pointers node up)
    (hgraph : graph.Closed) : graph.Forest rank (moved pointers node up) := by
  have hself : (moved pointers node up).getD node none = some up :=
    getD_moved_self (hforest.size_eq ▸ himprove.reached.lt_size hgraph)
  -- A pointer of the moved ones is the new one or an old one.
  have hcases : ∀ {other next},
      (moved pointers node up).getD other none = some next →
        (other = node ∧ next = up) ∨ pointers.getD other none = some next := by
    intro other next hnext
    by_cases heq : other = node
    · rw [heq, hself, Option.some.injEq] at hnext
      exact Or.inl ⟨heq, hnext.symm⟩
    · rw [getD_moved_ne heq] at hnext
      exact Or.inr hnext
  refine ⟨by simpa using hforest.size_eq, ?_, ?_, ?_, ?_, ?_⟩
  · rw [getD_moved_ne himprove.node_ne.symm]
    exact hforest.entry
  · intro other next hnext
    rcases hcases hnext with ⟨rfl, _⟩ | hnext
    · exact himprove.reached
    · exact hforest.reached hnext
  · intro other next hnext
    apply hforest.isSome_moved himprove hgraph
    rcases hcases hnext with ⟨_, rfl⟩ | hnext
    · exact Or.inr himprove.pointed
    · exact Or.inr (hforest.pointed hnext)
  · intro other next hne hnext
    rcases hcases hnext with ⟨rfl, rfl⟩ | hnext
    · exact himprove.rank_lt
    · exact hforest.rank_lt hne hnext
  · intro other next a hnext hne hdom
    rcases hcases hnext with ⟨rfl, rfl⟩ | hnext
    · exact himprove.keeps hne hdom
    · exact hforest.keeps hnext hne hdom

/-- A node can move up past a higher one without losing a common dominator:
it is not the entry, and it dominates nothing that is higher. -/
theorem exists_move_up (hforest : graph.Forest rank pointers)
    (hrank : graph.Ranking order rank) {a b : Nat}
    (ha : (pointers.getD a none).isSome) (hb : graph.Reaches 0 b)
    (hlt : rank b < rank a) :
    ∃ up, pointers.getD a none = some up ∧ rank up < rank a ∧
      ∀ d, graph.Dominates d a → graph.Dominates d b →
        graph.Dominates d up := by
  have hne : ∀ d, graph.Dominates d b → d ≠ a := by
    rintro d hdom rfl
    have hle := hrank.rank_le_of_dominates hb hdom
    omega
  obtain ⟨up, hup⟩ := exists_up ha
  exact ⟨up, hup, hforest.rank_lt (hne 0 (entry_dominates hb)).symm hup,
    fun d hda hdb => hforest.keeps hup (hne d hdb) hda⟩

/-- Two nodes with pointers are merged into a node above both that everything
dominating both dominates. -/
theorem merge_spec (hforest : graph.Forest rank pointers)
    (hrank : graph.Ranking order rank) {steps a b : Nat}
    (ha : (pointers.getD a none).isSome) (hb : (pointers.getD b none).isSome)
    (hsteps : rank a + rank b < steps) :
    ∃ up, merge pointers rank steps a b = some up ∧ Above pointers a up ∧
      Above pointers b up ∧
      ∀ d, graph.Dominates d a → graph.Dominates d b →
        graph.Dominates d up := by
  induction steps generalizing a b with
  | zero => omega
  | succ steps ih =>
      have hra := hforest.reached_of_isSome ha
      have hrb := hforest.reached_of_isSome hb
      by_cases heq : a = b
      · subst heq
        exact ⟨a, by simp [merge], .refl a, .refl a, fun d hd _ => hd⟩
      · by_cases hlt : rank b < rank a
        · obtain ⟨up, hup, hless, hkeep⟩ :=
            hforest.exists_move_up hrank ha hrb hlt
          obtain ⟨top, hmerge, htop, hbtop, hdom⟩ :=
            ih (hforest.pointed hup) hb (by omega)
          exact ⟨top, by simp [merge, heq, hlt, hup, hmerge],
            .step hup htop, hbtop,
            fun d hda hdb => hdom d (hkeep d hda hdb) hdb⟩
        · have hne : rank a ≠ rank b :=
            fun hsame => heq (hrank.rank_inj hra hrb hsame)
          obtain ⟨up, hup, hless, hkeep⟩ :=
            hforest.exists_move_up hrank hb hra (by omega)
          obtain ⟨top, hmerge, hatop, htop, hdom⟩ :=
            ih ha (hforest.pointed hup) (by omega)
          exact ⟨top, by simp [merge, heq, hlt, hup, hmerge], hatop,
            .step hup htop, fun d hda hdb => hdom d hda (hkeep d hdb hda)⟩

/-- Merging one node after another gives a node above all of them. -/
theorem merge_all_spec (hforest : graph.Forest rank pointers)
    (hrank : graph.Ranking order rank) (hgraph : graph.Closed)
    {first : Nat} {rest : List Nat}
    (hsome : ∀ source ∈ first :: rest, (pointers.getD source none).isSome) :
    ∃ up, rest.foldlM
        (fun up source => merge pointers rank (2 * graph.size + 1) source up)
        first = some up ∧
      (∀ source ∈ first :: rest, Above pointers source up) ∧
      ∀ d, (∀ source ∈ first :: rest, graph.Dominates d source) →
        graph.Dominates d up := by
  induction rest generalizing first with
  | nil =>
      refine ⟨first, rfl, ?_, fun d hd => hd first List.mem_cons_self⟩
      intro source hsource
      obtain rfl := List.mem_singleton.mp hsource
      exact .refl source
  | cons next rest ih =>
      have hfirst := hsome first (by simp)
      have hnext := hsome next (by simp)
      have hsteps : rank next + rank first < 2 * graph.size + 1 := by
        have hlength := hrank.length_le_size hgraph
        have hltn := hrank.rank_lt_length (hforest.reached_of_isSome hnext)
        have hltf := hrank.rank_lt_length (hforest.reached_of_isSome hfirst)
        omega
      obtain ⟨both, hboth, hnextup, hfirstup, hdomboth⟩ :=
        hforest.merge_spec hrank hnext hfirst hsteps
      obtain ⟨up, hup, habove, hdom⟩ := @ih both (by
        intro source hsource
        rcases List.mem_cons.mp hsource with rfl | hsource
        · exact hforest.isSome_of_above hnextup hnext
        · exact hsome source (by simp [hsource]))
      have hbothup := habove both List.mem_cons_self
      refine ⟨up, by simp [List.foldlM_cons, hboth, hup], ?_, ?_⟩
      · intro source hsource
        simp only [List.mem_cons] at hsource
        rcases hsource with rfl | rfl | hsource
        · exact hfirstup.trans hbothup
        · exact hnextup.trans hbothup
        · exact habove source (List.mem_cons_of_mem _ hsource)
      · intro d hd
        apply hdom
        intro source hsource
        rcases List.mem_cons.mp hsource with rfl | hsource
        · exact hdomboth d (hd next (by simp)) (hd first (by simp))
        · exact hd source (by simp [hsource])

/-- A node with an earlier predecessor that has a pointer gets a pointer. -/
theorem improve_spec (hforest : graph.Forest rank pointers)
    (hrank : graph.Ranking order rank) (hgraph : graph.Closed)
    {node source : Nat} (hne : node ≠ 0) (hreach : graph.Reaches 0 node)
    (hedge : node ∈ graph.next source)
    (hsource : (pointers.getD source none).isSome)
    (hlt : rank source < rank node) :
    ∃ up, graph.improve rank pointers node (graph.previous node) =
        some (moved pointers node up) ∧
      graph.Improvement rank pointers node up := by
  have hmem : ∀ other, other ∈ (graph.previous node).filter
      (fun source => (pointers.getD source none).isSome) ↔
        node ∈ graph.next other ∧ (pointers.getD other none).isSome := by
    intro other
    simp only [previous, List.filter_filter, List.mem_filter, List.mem_range,
      Bool.and_eq_true, List.contains_iff_mem]
    constructor
    · exact fun h => ⟨h.2.2, h.2.1⟩
    · exact fun h =>
        ⟨(hforest.reached_of_isSome h.2).lt_size hgraph, h.2, h.1⟩
  cases hpointing : (graph.previous node).filter
      (fun source => (pointers.getD source none).isSome) with
  | nil =>
      have hin := (hmem source).mpr ⟨hedge, hsource⟩
      rw [hpointing] at hin
      cases hin
  | cons first rest =>
      rw [hpointing] at hmem
      obtain ⟨up, hup, habove, hdom⟩ := hforest.merge_all_spec hrank hgraph
        fun other hother => ((hmem other).mp hother).2
      have hsourceUp := habove source ((hmem source).mpr ⟨hedge, hsource⟩)
      refine ⟨up, ?_, hne, hreach, ?_, ?_, ?_, ?_⟩
      · unfold improve
        rw [hpointing]
        simp only [hup]
        rfl
      · exact hforest.isSome_of_above hsourceUp hsource
      · have hle := hforest.rank_le_of_above hsourceUp
        omega
      · intro a hane hadom
        apply hdom
        intro other hother
        obtain ⟨hotherEdge, hotherSome⟩ := (hmem other).mp hother
        exact hadom.of_edge hane (hforest.reached_of_isSome hotherSome)
          hotherEdge
      · intro other hotherEdge hotherSome
        exact habove other ((hmem other).mpr ⟨hotherEdge, hotherSome⟩)

end Forest

def Full (graph : Graph) (pointers : Pointers) : Prop :=
  ∀ node, graph.Reaches 0 node → (pointers.getD node none).isSome

/-- The nodes with their predecessors that one pass goes through. -/
abbrev stops (graph : Graph) (nodes : List Nat) : List (Nat × List Nat) :=
  nodes.map fun node => (node, graph.previous node)

/-- A pass goes through from any pointers, and gives all reachable nodes
pointers.  Whatever single improvements preserve, a pass preserves. -/
theorem pass_rule {P : List Nat → Pointers → Prop}
    (hgraph : graph.Closed) (hrank : graph.Ranking order rank)
    (hstep : ∀ done node pointers up, graph.Forest rank pointers →
      graph.Improvement rank pointers node up → P done pointers →
        P (done ++ [node]) (moved pointers node up))
    (hforest : graph.Forest rank pointers) (hstart : P [] pointers) :
    ∃ result, graph.pass rank (graph.stops order.tail) pointers = some result ∧
      graph.Forest rank result ∧ graph.Full result ∧ P order.tail result := by
  -- The nodes gone through so far have pointers, as the entry has.
  have hrun : ∀ rest done pointers, order = 0 :: (done ++ rest) →
      graph.Forest rank pointers →
      (∀ node ∈ 0 :: done, (pointers.getD node none).isSome) →
      P done pointers →
      ∃ result, graph.pass rank (graph.stops rest) pointers = some result ∧
        graph.Forest rank result ∧ graph.Full result ∧
        P (done ++ rest) result := by
    intro rest
    induction rest with
    | nil =>
        intro done pointers horder hforest hdone hP
        refine ⟨pointers, rfl, hforest, ?_, by simpa using hP⟩
        intro node hreach
        apply hdone
        have hmem := (hrank.mem_iff node).mpr hreach
        rw [horder] at hmem
        simpa using hmem
    | cons node rest ih =>
        intro done pointers horder hforest hdone hP
        have hne : node ≠ 0 := by
          rintro rfl
          have hnodup := hrank.nodup
          rw [horder] at hnodup
          simp at hnodup
        have hreach : graph.Reaches 0 node :=
          (hrank.mem_iff node).mp (by simp [horder])
        have hsplit : order = (0 :: done) ++ node :: rest := horder
        obtain ⟨source, hsource, hedge⟩ :=
          hrank.earlier (0 :: done) node rest hsplit hne
        obtain ⟨up, himproved, himprove⟩ :=
          hforest.improve_spec hrank hgraph hne hreach hedge
            (hdone source hsource) (hrank.rank_lt_of_before hsplit hsource)
        obtain ⟨result, hresult, hrest⟩ :=
          ih (done ++ [node]) (moved pointers node up) (by simpa using horder)
            (hforest.move himprove hgraph)
            (by
              intro other hother
              apply hforest.isSome_moved himprove hgraph
              rw [← List.cons_append, List.mem_append] at hother
              rcases hother with hother | hother
              · exact Or.inr (hdone other hother)
              · exact Or.inl (List.mem_singleton.mp hother))
            (hstep done node pointers up hforest himprove hP)
        refine ⟨result, ?_, by simpa using hrest⟩
        rw [← hresult]
        simp [pass, stops, himproved]
  have hentry : ∀ node ∈ [0], (pointers.getD node none).isSome := by
    intro node hnode
    obtain rfl := List.mem_singleton.mp hnode
    rw [hforest.entry]
    rfl
  simpa using hrun order.tail [] pointers hrank.head hforest hentry hstart

/-- Everything above a node lies on each path to it with at most so many
nodes. -/
def Within (graph : Graph) (pointers : Pointers) (bound node : Nat) : Prop :=
  ∀ path, graph.Path 0 path node → path.length ≤ bound →
    ∀ top, Above pointers node top → top ∈ path

theorem Forest.within_one (hforest : graph.Forest rank pointers) (node : Nat) :
    graph.Within pointers 1 node := by
  intro path hpath hlength top habove
  rcases hpath.eq_or_append_edge with ⟨rfl, rfl⟩ | ⟨before, _, hbefore, _, rfl⟩
  · rw [hforest.eq_zero_of_above habove rfl]
    exact List.mem_singleton_self 0
  · have hpos := List.length_pos_of_mem hbefore.first_mem
    simp only [List.length_append, List.length_singleton] at hlength
    omega

theorem Within.mono {bound bound' node : Nat}
    (hwithin : graph.Within pointers bound' node) (hle : bound ≤ bound') :
    graph.Within pointers bound node :=
  fun path hpath hlength => hwithin path hpath (Nat.le_trans hlength hle)

/-- A path through an improved node comes to it from a predecessor, on a part
that is shorter, and everything above the new pointer is above that
predecessor. -/
theorem Improvement.mem_of_above {node up bound : Nat}
    (himprove : graph.Improvement rank pointers node up)
    (hfull : graph.Full pointers)
    (hall : ∀ other, graph.Within pointers bound other)
    {path : List Nat} {last top : Nat} (hpath : graph.Path 0 path last)
    (hlength : path.length ≤ bound + 1) (hnode : node ∈ path)
    (htop : Above pointers up top) : top ∈ path := by
  obtain ⟨start, hstart, hprefix⟩ := hpath.to_member hnode
  rcases hstart.eq_or_append_edge with ⟨hzero, _⟩ |
    ⟨before, source, hbefore, hedge, rfl⟩
  · exact absurd hzero.symm himprove.node_ne
  · have hshort : before.length ≤ bound := by
      have hle := hprefix.length_le
      simp only [List.length_append, List.length_singleton] at hle
      omega
    have hup := himprove.common hedge (hfull source ⟨before, hbefore⟩)
    have htopMem := hall source before hbefore hshort top (hup.trans htop)
    exact hprefix.subset (List.mem_append_left _ htopMem)

/-- An improvement keeps the bounds of all nodes, up to one more than what all
of them have. -/
theorem Within.move {node up bound bound' other : Nat}
    (hwithin : graph.Within pointers bound' other) (hle : bound' ≤ bound + 1)
    (himprove : graph.Improvement rank pointers node up)
    (hnode : node < pointers.size) (hfull : graph.Full pointers)
    (hall : ∀ other, graph.Within pointers bound other) :
    graph.Within (moved pointers node up) bound' other := by
  intro path hpath hlength top habove
  rcases habove.of_moved hnode with hold | ⟨hmet, htop⟩
  · exact hwithin path hpath hlength top hold
  · exact himprove.mem_of_above hfull hall hpath (Nat.le_trans hlength hle)
      (hwithin path hpath hlength node hmet) htop

/-- The node improved gets one more than what all nodes have. -/
theorem Improvement.within_succ {node up bound : Nat}
    (himprove : graph.Improvement rank pointers node up)
    (hnode : node < pointers.size) (hfull : graph.Full pointers)
    (hall : ∀ other, graph.Within pointers bound other) :
    graph.Within (moved pointers node up) (bound + 1) node := by
  intro path hpath hlength top habove
  cases habove with
  | refl => exact hpath.last_mem
  | step hup hrest =>
      rw [getD_moved_self hnode, Option.some.injEq] at hup
      subst hup
      exact himprove.mem_of_above hfull hall hpath hlength hpath.last_mem
        ((hrest.of_moved hnode).elim id And.right)

/-- From the second pass on, every pass makes the bounds longer by one. -/
theorem pass_within (hgraph : graph.Closed) (hrank : graph.Ranking order rank)
    (hforest : graph.Forest rank pointers) (hfull : graph.Full pointers)
    {bound : Nat} (hall : ∀ node, graph.Within pointers bound node) :
    ∃ result, graph.pass rank (graph.stops order.tail) pointers = some result ∧
      graph.Forest rank result ∧ graph.Full result ∧
      ∀ node, graph.Within result (bound + 1) node := by
  obtain ⟨result, hresult, hforest', hfull', _, _, hdone⟩ := pass_rule
    (P := fun done pointers => graph.Full pointers ∧
      (∀ node, graph.Within pointers bound node) ∧
      ∀ node ∈ done, graph.Within pointers (bound + 1) node)
    hgraph hrank
    (by
      rintro done node pointers up hforest himprove ⟨hfull, hall, hdone⟩
      have hnode : node < pointers.size :=
        hforest.size_eq ▸ himprove.reached.lt_size hgraph
      refine ⟨?_, ?_, ?_⟩
      · intro other hreach
        exact hforest.isSome_moved himprove hgraph
          (Or.inr (hfull other hreach))
      · intro other
        exact (hall other).move (Nat.le_succ bound) himprove hnode hfull hall
      · intro other hother
        rcases List.mem_append.mp hother with hother | hother
        · exact (hdone other hother).move (Nat.le_refl _) himprove hnode
            hfull hall
        · obtain rfl := List.mem_singleton.mp hother
          exact himprove.within_succ hnode hfull hall)
    hforest ⟨hfull, hall, by simp⟩
  refine ⟨result, hresult, hforest', hfull', ?_⟩
  intro node path hpath
  have hnode := (hrank.mem_iff node).mpr ⟨path, hpath⟩
  rw [hrank.head, List.mem_cons] at hnode
  rcases hnode with rfl | hnode
  · intro _ top habove
    rw [hforest'.eq_zero_of_above habove rfl]
    exact hpath.last_mem
  · exact hdone node hnode path hpath

/-- Pointers whose chains are exactly the dominators. -/
structure Exact (graph : Graph) (rank : Nat → Nat) (pointers : Pointers) : Prop
    extends graph.Forest rank pointers where
  full : graph.Full pointers
  dominates_of_above : ∀ {a b}, graph.Reaches 0 b → Above pointers b a →
    graph.Dominates a b

theorem Forest.exact_of_within (hgraph : graph.Closed)
    (hforest : graph.Forest rank pointers) (hfull : graph.Full pointers)
    {bound : Nat} (hbound : graph.size ≤ bound)
    (hall : ∀ node, graph.Within pointers bound node) :
    graph.Exact rank pointers := by
  refine ⟨hforest, hfull, ?_⟩
  intro a b hreach habove
  refine Or.inr ⟨hreach, ?_⟩
  intro path hpath
  obtain ⟨short, hshort, hnodup, hsubset⟩ := hpath.exists_nodup
  have hlength := hshort.length_le_size hgraph hgraph.entry_lt hnodup
  exact hsubset (hall b short hshort (Nat.le_trans hlength hbound) a habove)

theorem Exact.above_iff (hexact : graph.Exact rank pointers) {a b : Nat} :
    Above pointers b a ↔ graph.Dominates a b := by
  by_cases hreach : graph.Reaches 0 b
  · exact ⟨hexact.dominates_of_above hreach,
      hexact.above_of_dominates (hexact.full b hreach)⟩
  · have hnone := hexact.eq_none_of_not_reaches hreach
    constructor
    · intro habove
      exact Or.inl (habove.eq_of_none hnone).symm
    · rintro (rfl | ⟨h, _⟩)
      · exact .refl a
      · exact absurd h hreach

/-- The nearest dominator is the strict dominator of the greatest rank, so
there is no choice of pointers. -/
theorem Exact.unique (hrank : graph.Ranking order rank)
    {pointers' : Pointers} (hexact : graph.Exact rank pointers)
    (hexact' : graph.Exact rank pointers') : pointers = pointers' := by
  have hle : ∀ {p q : Pointers} {node up up' : Nat}, graph.Exact rank p →
      graph.Exact rank q → node ≠ 0 → p.getD node none = some up →
      q.getD node none = some up' → rank up' ≤ rank up := by
    intro p q node up up' hp hq hne hup hup'
    have habove : Above p node up' :=
      hp.above_iff.mpr (hq.above_iff.mp (.step hup' (.refl up')))
    cases habove with
    | refl => exact absurd (hq.rank_lt hne hup') (Nat.lt_irrefl _)
    | step hup₂ hrest =>
        rw [hup, Option.some.injEq] at hup₂
        exact hup₂ ▸ hp.rank_le_of_above hrest
  have hsame : ∀ node, pointers.getD node none = pointers'.getD node none := by
    intro node
    by_cases hreach : graph.Reaches 0 node
    · obtain ⟨up, hup⟩ := Forest.exists_up (hexact.full node hreach)
      obtain ⟨up', hup'⟩ := Forest.exists_up (hexact'.full node hreach)
      by_cases hzero : node = 0
      · rw [hzero, hexact.entry, hexact'.entry]
      · have hrankEq : rank up = rank up' :=
          Nat.le_antisymm (hle hexact' hexact hzero hup' hup)
            (hle hexact hexact' hzero hup hup')
        rw [hup, hup', hrank.rank_inj
          (hexact.reached_of_isSome (hexact.pointed hup))
          (hexact'.reached_of_isSome (hexact'.pointed hup')) hrankEq]
    · rw [hexact.eq_none_of_not_reaches hreach,
        hexact'.eq_none_of_not_reaches hreach]
  apply Array.ext
  · rw [hexact.size_eq, hexact'.size_eq]
  · intro index hindex hindex'
    have hget := hsame index
    simpa [Array.getD_eq_getD_getElem?, hindex, hindex'] using hget

/-- Pointers that a pass does not change are exact: their bounds can be made
as long as one likes. -/
theorem exact_of_fixpoint (hgraph : graph.Closed)
    (hrank : graph.Ranking order rank) (hforest : graph.Forest rank pointers)
    (hfull : graph.Full pointers)
    (hfix : graph.pass rank (graph.stops order.tail) pointers =
      some pointers) : graph.Exact rank pointers := by
  have hall : ∀ bound node, graph.Within pointers (bound + 1) node := by
    intro bound
    induction bound with
    | zero => exact hforest.within_one
    | succ bound ih =>
        obtain ⟨result, hresult, _, _, hwithin⟩ :=
          pass_within hgraph hrank hforest hfull ih
        rw [hfix, Option.some.injEq] at hresult
        exact hresult ▸ hwithin
  exact hforest.exact_of_within hgraph hfull (Nat.le_succ _) (hall graph.size)

theorem settle_succ {nodes : List (Nat × List Nat)} {rounds : Nat}
    {improved : Pointers}
    (hpass : graph.pass rank nodes pointers = some improved) :
    graph.settle rank nodes (rounds + 1) pointers =
      if improved = pointers then some pointers
      else graph.settle rank nodes rounds improved := by
  rw [settle, hpass]
  rfl

/-- Once all nodes have pointers, the passes settle before the bounds are as
long as paths without repetitions can be. -/
theorem settle_exact (hgraph : graph.Closed)
    (hrank : graph.Ranking order rank) {rounds bound : Nat}
    (hforest : graph.Forest rank pointers) (hfull : graph.Full pointers)
    (hall : ∀ node, graph.Within pointers bound node)
    (hrounds : graph.size ≤ rounds + bound) :
    ∃ result, graph.settle rank (graph.stops order.tail) (rounds + 1) pointers =
        some result ∧ graph.Exact rank result := by
  induction rounds generalizing bound pointers with
  | zero =>
      obtain ⟨improved, hpass, hforest', hfull', hall'⟩ :=
        pass_within hgraph hrank hforest hfull hall
      have hexact := hforest.exact_of_within hgraph hfull
        (Nat.zero_add bound ▸ hrounds) hall
      have hexact' := hforest'.exact_of_within hgraph hfull' (by omega) hall'
      have hsame : improved = pointers := hexact'.unique hrank hexact
      exact ⟨pointers, by rw [settle_succ hpass, if_pos hsame], hexact⟩
  | succ rounds ih =>
      obtain ⟨improved, hpass, hforest', hfull', hall'⟩ :=
        pass_within hgraph hrank hforest hfull hall
      by_cases hsame : improved = pointers
      · subst hsame
        exact ⟨improved, by rw [settle_succ hpass, if_pos rfl],
          exact_of_fixpoint hgraph hrank hforest hfull hpass⟩
      · obtain ⟨result, hresult, hexact⟩ :=
          ih hforest' hfull' hall' (by omega)
        exact ⟨result, by rw [settle_succ hpass, if_neg hsame, hresult],
          hexact⟩

def start (graph : Graph) : Pointers :=
  ((List.range graph.size).map fun node =>
    if node = 0 then some 0 else none).toArray

theorem getD_start (hgraph : graph.Closed) (node : Nat) :
    graph.start.getD node none = if node = 0 then some 0 else none := by
  by_cases hnode : node < graph.size
  · simp [start, hnode]
  · have hzero : node ≠ 0 := by
      have hentry := hgraph.entry_lt
      omega
    simp [start, hnode, hzero]

theorem forest_start (hgraph : graph.Closed) (rank : Nat → Nat) :
    graph.Forest rank graph.start := by
  have hcases : ∀ {node up}, graph.start.getD node none = some up →
      node = 0 ∧ up = 0 := by
    intro node up hup
    rw [getD_start hgraph] at hup
    split at hup
    · next hzero => exact ⟨hzero, (Option.some.inj hup).symm⟩
    · cases hup
  refine ⟨by simp [start], by simp [getD_start hgraph], ?_, ?_, ?_, ?_⟩
  · intro node up hup
    rw [(hcases hup).1]
    exact Reaches.refl graph 0
  · intro node up hup
    rw [(hcases hup).2, getD_start hgraph]
    rfl
  · intro node up hne hup
    exact absurd (hcases hup).1 hne
  · intro node up a hup hne hdom
    rwa [(hcases hup).2, ← (hcases hup).1]

/-- The place of a node in reverse postorder, read from a table. -/
def place (graph : Graph) (node : Nat) : Nat :=
  ((List.range graph.size).map graph.reversePostorder.idxOf).toArray.getD node
    graph.size

theorem ranking_place (hgraph : graph.Closed) :
    graph.Ranking graph.reversePostorder graph.place where
  toIsOrder := reversePostorder_isOrder hgraph
  rank_eq := by
    intro node hnode
    have hreach := ((reversePostorder_isOrder hgraph).mem_iff node).mp hnode
    simp [place, hreach.lt_size hgraph]

/-- The iteration settles, and what it settles on is exact. -/
theorem nearestDominators?_exact (hgraph : graph.Closed) :
    ∃ pointers, graph.nearestDominators? = some pointers ∧
      graph.Exact graph.place pointers := by
  have hrank := ranking_place hgraph
  have hforest := forest_start hgraph graph.place
  obtain ⟨first, hfirst, hforest', hfull, _⟩ :=
    pass_rule (P := fun _ _ => True) hgraph hrank
      (fun _ _ _ _ _ _ _ => trivial) hforest trivial
  have hsettle : graph.nearestDominators? = graph.settle graph.place
      (graph.stops graph.reversePostorder.tail)
      (graph.size * graph.size + 1 + 1) graph.start := rfl
  rw [hsettle, settle_succ hfirst]
  by_cases hsame : first = graph.start
  · subst hsame
    exact ⟨graph.start, if_pos rfl,
      exact_of_fixpoint hgraph hrank hforest hfull hfirst⟩
  · obtain ⟨result, hresult, hexact⟩ := settle_exact hgraph hrank hforest'
      hfull hforest'.within_one
      (Nat.le_trans (Nat.le_mul_self graph.size) (Nat.le_succ _))
    exact ⟨result, by rw [if_neg hsame, hresult], hexact⟩

end Graph

end FlowFacts
