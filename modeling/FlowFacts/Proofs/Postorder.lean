/-
The depth-first walk.  Every node that the entry reaches is listed once, the
entry comes first in reverse postorder, and every other node comes after one
of its predecessors.
-/
import FlowFacts.Flow.Postorder
import FlowFacts.Proofs.Paths

namespace FlowFacts

def Visit.node : Visit → Nat
  | enter node => node
  | leave node => node

/-- The nodes that have been entered and not been left. -/
def opened : List Visit → List Nat
  | [] => []
  | .enter _ :: agenda => opened agenda
  | .leave node :: agenda => node :: opened agenda

@[simp] theorem opened_enters_append (nodes : List Nat) (agenda : List Visit) :
    opened (nodes.map .enter ++ agenda) = opened agenda := by
  induction nodes with
  | nil => rfl
  | cons node nodes ih => exact ih

namespace Graph

variable {graph : Graph}

theorem mem_unentered {node target : Nat} {seen : List Nat} :
    target ∈ graph.unentered node seen ↔
      target ∈ graph.next node ∧ target ∉ node :: seen := by
  simp [unentered]

/-- What a node can put on the agenda when it is entered: leaving it, and its
successors. -/
def work (graph : Graph) (node : Nat) : List Nat := node :: graph.next node

/-- The steps that the walk can still make. -/
def pending (graph : Graph) (agenda : List Visit) (seen : List Nat) : Nat :=
  agenda.length +
    (((List.range graph.size).filter (· ∉ seen)).flatMap graph.work).length

theorem pending_enter (agenda : List Visit) {seen : List Nat} {node : Nat}
    (hfresh : node ∉ seen) (hnode : node < graph.size) :
    graph.pending
        ((graph.unentered node seen).reverse.map .enter ++ .leave node :: agenda)
        (node :: seen) <
      graph.pending (.enter node :: agenda) seen := by
  have hmem : node ∈ (List.range graph.size).filter (· ∉ seen) := by
    simp [hfresh, hnode]
  have hnodup : ((List.range graph.size).filter (· ∉ seen)).Nodup :=
    List.nodup_range.filter _
  have herase : ((List.range graph.size).filter (· ∉ seen)).erase node =
      (List.range graph.size).filter (· ∉ node :: seen) := by
    rw [hnodup.erase_eq_filter, List.filter_filter]
    apply List.filter_congr
    intro other _
    by_cases hother : other = node <;> simp [hother]
  have hlength :=
    ((List.perm_cons_erase hmem).flatMap_right graph.work).length_eq
  rw [herase, List.flatMap_cons, List.length_append] at hlength
  have hfewer : (graph.unentered node seen).length ≤ (graph.next node).length :=
    List.length_filter_le _ _
  simp only [pending, hlength, work, List.length_append, List.length_map,
    List.length_reverse, List.length_cons]
  omega

/-- Whatever the three sorts of steps preserve holds when the walk is over.
The walk ends with an empty agenda, because every step uses up pending work. -/
theorem walk_rule {P : List Visit → List Nat → List Nat → Prop}
    (hleave : ∀ node agenda seen finished,
      P (.leave node :: agenda) seen finished →
        P agenda seen (node :: finished))
    (hskip : ∀ node agenda seen finished,
      node ∈ seen ∨ graph.size ≤ node →
        P (.enter node :: agenda) seen finished → P agenda seen finished)
    (henter : ∀ node agenda seen finished, node ∉ seen → node < graph.size →
      P (.enter node :: agenda) seen finished →
        P ((graph.unentered node seen).reverse.map .enter ++
            .leave node :: agenda)
          (node :: seen) finished)
    (steps : Nat) (agenda : List Visit) (seen finished : List Nat)
    (hsteps : graph.pending agenda seen ≤ steps)
    (hstart : P agenda seen finished) :
    ∃ seen', P [] seen' (graph.walk steps agenda seen finished) := by
  induction steps generalizing agenda seen finished with
  | zero =>
      have hagenda : agenda = [] := by
        apply List.eq_nil_of_length_eq_zero
        simp only [pending] at hsteps
        omega
      subst hagenda
      exact ⟨seen, hstart⟩
  | succ steps ih =>
      cases agenda with
      | nil => exact ⟨seen, hstart⟩
      | cons visit agenda =>
          have hrest : graph.pending agenda seen ≤ steps := by
            simp only [pending, List.length_cons] at hsteps ⊢
            omega
          cases visit with
          | leave node => exact ih _ _ _ hrest (hleave _ _ _ _ hstart)
          | enter node =>
              simp only [walk]
              split
              · next hold => exact ih _ _ _ hrest (hskip _ _ _ _ hold hstart)
              · next hnew =>
                simp only [not_or, Nat.not_le] at hnew
                have hpending := pending_enter agenda hnew.1 hnew.2
                exact ih _ _ _ (by omega)
                  (henter _ _ _ _ hnew.1 hnew.2 hstart)

theorem length_flatMap_next (graph : Graph) :
    ((List.range graph.size).flatMap graph.next).length = graph.edges := by
  rw [edges, List.flatMap_def]
  congr 2
  apply List.ext_getElem
  · simp [size]
  · intro index hindex _
    simp only [List.length_map, List.length_range, size] at hindex
    simp [next, hindex]

theorem length_work (graph : Graph) :
    ((List.range graph.size).flatMap graph.work).length =
      graph.edges + graph.size := by
  have hsplit : ∀ nodes : List Nat, (nodes.flatMap graph.work).length =
      (nodes.flatMap graph.next).length + nodes.length := by
    intro nodes
    induction nodes with
    | nil => rfl
    | cons node nodes ih =>
        simp only [List.flatMap_cons, List.length_append, ih, work,
          List.length_cons]
        omega
  rw [hsplit, length_flatMap_next, List.length_range]

/-- The walk from the entry has enough steps. -/
theorem pending_start (graph : Graph) :
    graph.pending [.enter 0] [] ≤ 2 * graph.size + graph.edges + 2 := by
  have hall : (List.range graph.size).filter (· ∉ ([] : List Nat)) =
      List.range graph.size := by simp
  simp only [pending, List.length_singleton, hall, length_work]
  omega

/-- Every visit but the one of the entry was put on the agenda by a
predecessor that is still open. -/
def Rooted (graph : Graph) : List Visit → Prop
  | [] => True
  | visit :: agenda =>
      (visit.node = 0 ∨
        ∃ source ∈ opened agenda, visit.node ∈ graph.next source) ∧
      Rooted graph agenda

theorem Rooted.enters_append {agenda : List Visit} {source : Nat}
    (hagenda : graph.Rooted agenda) (hsource : source ∈ opened agenda)
    {nodes : List Nat} (hnodes : ∀ node ∈ nodes, node ∈ graph.next source) :
    graph.Rooted (nodes.map .enter ++ agenda) := by
  induction nodes with
  | nil => exact hagenda
  | cons node nodes ih =>
      refine ⟨Or.inr ⟨source, ?_, hnodes node List.mem_cons_self⟩, ?_⟩
      · show source ∈ opened (nodes.map .enter ++ agenda)
        rw [opened_enters_append]
        exact hsource
      · exact ih fun node hnode => hnodes node (List.mem_cons_of_mem _ hnode)

/-- Every listed node but the entry has a predecessor that comes before it in
the list or is among the nodes above the list. -/
def Parented (graph : Graph) : List Nat → List Nat → Prop
  | _, [] => True
  | above, node :: rest =>
      (node = 0 ∨ ∃ source ∈ above, node ∈ graph.next source) ∧
      Parented graph (node :: above) rest

theorem Parented.mono {above above' nodes : List Nat}
    (hnodes : graph.Parented above nodes) (habove : above ⊆ above') :
    graph.Parented above' nodes := by
  induction nodes generalizing above above' with
  | nil => trivial
  | cons node nodes ih =>
      refine ⟨hnodes.1.imp id ?_, ?_⟩
      · rintro ⟨source, hsource, hedge⟩
        exact ⟨source, habove hsource, hedge⟩
      · exact ih hnodes.2 (List.cons_subset_cons node habove)

theorem Parented.of_append {above before after : List Nat} {node : Nat}
    (hnodes : graph.Parented above (before ++ node :: after)) :
    node = 0 ∨
      ∃ source, (source ∈ above ∨ source ∈ before) ∧
        node ∈ graph.next source := by
  induction before generalizing above with
  | nil =>
      refine hnodes.1.imp id ?_
      rintro ⟨source, hsource, hedge⟩
      exact ⟨source, Or.inl hsource, hedge⟩
  | cons head before ih =>
      refine (ih hnodes.2).imp id ?_
      rintro ⟨source, hsource, hedge⟩
      refine ⟨source, ?_, hedge⟩
      simp only [List.mem_cons] at hsource ⊢
      tauto

/-- What holds at every moment of the walk. -/
structure Walked (graph : Graph) (agenda : List Visit)
    (seen finished : List Nat) : Prop where
  placed : (opened agenda ++ finished).Perm seen
  nodup : seen.Nodup
  reached : ∀ node ∈ seen, graph.Reaches 0 node
  awaited : ∀ node, .enter node ∈ agenda → graph.Reaches 0 node
  entry : 0 ∈ seen ∨ .enter 0 ∈ agenda
  expanded : ∀ node ∈ seen, ∀ target ∈ graph.next node,
    target ∈ seen ∨ .enter target ∈ agenda
  rooted : graph.Rooted agenda
  parented : graph.Parented (opened agenda) finished

/-- Only reachable nodes are awaited, and these are in range, so a node that
is passed over has been seen. -/
theorem Walked.mem_seen_of_skip {agenda : List Visit} {seen finished : List Nat}
    {node : Nat} (hwalk : graph.Walked (.enter node :: agenda) seen finished)
    (hgraph : graph.Closed) (hold : node ∈ seen ∨ graph.size ≤ node) :
    node ∈ seen := by
  have hlt := (hwalk.awaited node List.mem_cons_self).lt_size hgraph
  exact hold.resolve_right (Nat.not_le.mpr hlt)

/-- A node that has been entered has been left, or it is open. -/
theorem Walked.finished_or_opened {agenda : List Visit}
    {seen finished : List Nat} {node other : Nat}
    (hwalk : graph.Walked (.enter node :: agenda) seen finished)
    (hother : other ∈ seen) : other ∈ finished ∨ other ∈ opened agenda :=
  (List.mem_append.mp (hwalk.placed.mem_iff.mpr hother)).symm

theorem Walked.leave {agenda : List Visit} {seen finished : List Nat}
    {node : Nat} (hwalk : graph.Walked (.leave node :: agenda) seen finished) :
    graph.Walked agenda seen (node :: finished) where
  placed := List.perm_middle.trans hwalk.placed
  nodup := hwalk.nodup
  reached := hwalk.reached
  awaited := fun other hother =>
    hwalk.awaited other (List.mem_cons_of_mem _ hother)
  entry := by simpa using hwalk.entry
  expanded := by simpa using hwalk.expanded
  rooted := hwalk.rooted.2
  parented := ⟨hwalk.rooted.1, hwalk.parented⟩

theorem Walked.skip {agenda : List Visit} {seen finished : List Nat}
    {node : Nat} (hwalk : graph.Walked (.enter node :: agenda) seen finished)
    (hseen : node ∈ seen) : graph.Walked agenda seen finished where
  placed := hwalk.placed
  nodup := hwalk.nodup
  reached := hwalk.reached
  awaited := fun other hother =>
    hwalk.awaited other (List.mem_cons_of_mem _ hother)
  entry := by
    rcases hwalk.entry with hentry | hentry
    · exact Or.inl hentry
    · rcases List.mem_cons.mp hentry with heq | hentry
      · cases heq
        exact Or.inl hseen
      · exact Or.inr hentry
  expanded := by
    intro source hsource target hedge
    rcases hwalk.expanded source hsource target hedge with htarget | htarget
    · exact Or.inl htarget
    · rcases List.mem_cons.mp htarget with heq | htarget
      · cases heq
        exact Or.inl hseen
      · exact Or.inr htarget
  rooted := hwalk.rooted.2
  parented := hwalk.parented

theorem Walked.enter {agenda : List Visit} {seen finished : List Nat}
    {node : Nat} (hwalk : graph.Walked (.enter node :: agenda) seen finished)
    (hfresh : node ∉ seen) :
    graph.Walked
      ((graph.unentered node seen).reverse.map .enter ++ .leave node :: agenda)
      (node :: seen) finished where
  placed := by
    rw [opened_enters_append]
    exact hwalk.placed.cons node
  nodup := List.nodup_cons.mpr ⟨hfresh, hwalk.nodup⟩
  reached := by
    intro other hother
    rcases List.mem_cons.mp hother with rfl | hother
    · exact hwalk.awaited other List.mem_cons_self
    · exact hwalk.reached other hother
  awaited := by
    intro other hother
    have hnode := hwalk.awaited node List.mem_cons_self
    simp only [List.mem_append, List.mem_map, List.mem_reverse,
      List.mem_cons, reduceCtorEq, false_or] at hother
    rcases hother with ⟨target, hedge, heq⟩ | hother
    · cases heq
      exact hnode.append_edge (mem_unentered.mp hedge).1
    · exact hwalk.awaited other (List.mem_cons_of_mem _ hother)
  entry := by
    rcases hwalk.entry with hentry | hentry
    · exact Or.inl (List.mem_cons_of_mem _ hentry)
    · rcases List.mem_cons.mp hentry with heq | hentry
      · cases heq
        exact Or.inl List.mem_cons_self
      · exact Or.inr (by simp [hentry])
  expanded := by
    intro source hsource target hedge
    rcases List.mem_cons.mp hsource with rfl | hsource
    · by_cases htarget : target ∈ source :: seen
      · exact Or.inl htarget
      · exact Or.inr (by simp [mem_unentered.mpr ⟨hedge, htarget⟩])
    · rcases hwalk.expanded source hsource target hedge with htarget | htarget
      · exact Or.inl (List.mem_cons_of_mem _ htarget)
      · rcases List.mem_cons.mp htarget with heq | htarget
        · cases heq
          exact Or.inl List.mem_cons_self
        · exact Or.inr (by simp [htarget])
  rooted := by
    have hbelow : graph.Rooted (.leave node :: agenda) := hwalk.rooted
    exact hbelow.enters_append List.mem_cons_self
      fun target htarget => (mem_unentered.mp (List.mem_reverse.mp htarget)).1
  parented := by
    rw [opened_enters_append]
    exact hwalk.parented.mono (List.subset_cons_self node _)

theorem dangling?_eq_none (hgraph : graph.Closed) : graph.dangling? = none := by
  rw [dangling?, List.find?_eq_none]
  intro target htarget
  obtain ⟨source, _, hedge⟩ := List.mem_flatMap.mp htarget
  simpa using hgraph.target_lt hedge

/-- An order of the reachable nodes in which every node but the entry comes
after one of its predecessors. -/
structure IsOrder (graph : Graph) (order : List Nat) : Prop where
  nodup : order.Nodup
  mem_iff : ∀ node, node ∈ order ↔ graph.Reaches 0 node
  head : order = 0 :: order.tail
  earlier : ∀ before node after, order = before ++ node :: after → node ≠ 0 →
    ∃ source ∈ before, node ∈ graph.next source

theorem walked_start (graph : Graph) : graph.Walked [.enter 0] [] [] where
  placed := List.Perm.refl _
  nodup := List.nodup_nil
  reached := by simp
  awaited := by simpa using Reaches.refl graph 0
  entry := Or.inr List.mem_cons_self
  expanded := by simp
  rooted := ⟨Or.inl rfl, trivial⟩
  parented := trivial

theorem walked_reversePostorder (hgraph : graph.Closed) :
    ∃ seen, graph.Walked [] seen graph.reversePostorder := by
  apply graph.walk_rule (P := graph.Walked)
  · exact fun node agenda seen finished hwalk => hwalk.leave
  · exact fun node agenda seen finished hold hwalk =>
      hwalk.skip (hwalk.mem_seen_of_skip hgraph hold)
  · exact fun node agenda seen finished hfresh _ hwalk => hwalk.enter hfresh
  · exact pending_start graph
  · exact walked_start graph

/-- The walk of a graph gives such an order. -/
theorem reversePostorder_isOrder (hgraph : graph.Closed) :
    graph.IsOrder graph.reversePostorder := by
  obtain ⟨seen, hwalk⟩ := walked_reversePostorder hgraph
  have hmem : ∀ node, node ∈ graph.reversePostorder ↔ node ∈ seen :=
    fun node => hwalk.placed.mem_iff
  have hentry : 0 ∈ graph.reversePostorder := by
    rw [hmem]
    simpa using hwalk.entry
  refine ⟨hwalk.placed.nodup_iff.mpr hwalk.nodup, ?_, ?_, ?_⟩
  · intro node
    rw [hmem]
    refine ⟨hwalk.reached node, ?_⟩
    rintro ⟨path, hpath⟩
    refine hpath.induct ?_ ((hmem 0).mp hentry)
    intro source target hsource hedge
    simpa using hwalk.expanded source hsource target hedge
  · have hparented := hwalk.parented
    cases horder : graph.reversePostorder with
    | nil => simp [horder] at hentry
    | cons node rest =>
        rw [horder] at hparented
        rcases hparented.1 with rfl | ⟨source, hsource, _⟩
        · rfl
        · simp [opened] at hsource
  · intro before node after horder hne
    have hparented := hwalk.parented
    rw [horder] at hparented
    rcases hparented.of_append with heq | ⟨source, hsource, hedge⟩
    · exact absurd heq hne
    · exact ⟨source, by simpa [opened] using hsource, hedge⟩

end Graph

end FlowFacts
