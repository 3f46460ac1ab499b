/-
The order in which a depth-first walk finishes the nodes.  Nodes that are open
reach whatever is visited before they are left, and when a node is left, its
successors are finished or still open.  So an edge leads to a node that is
finished earlier, or to one that leads back.
-/
import Mathlib.Logic.Relation
import FlowFacts.Proofs.Accepted
import FlowFacts.Proofs.Worklists

namespace FlowFacts

open Relation

namespace Graph

variable {graph : Graph} {agenda : List Visit} {node : Nat}
variable {done done' seen finished nodes order : List Nat}

/-- Nodes that are open below a visit reach the node of the visit. -/
def Nested (graph : Graph) : List Visit → Prop
  | [] => True
  | visit :: agenda =>
      (∀ lower ∈ opened agenda, graph.Reaches lower visit.node) ∧
      Nested graph agenda

theorem Nested.enters_append {source : Nat}
    (hagenda : graph.Nested (.leave source :: agenda))
    (hnodes : ∀ node ∈ nodes, node ∈ graph.next source) :
    graph.Nested (nodes.map .enter ++ .leave source :: agenda) := by
  induction nodes with
  | nil => exact hagenda
  | cons node nodes ih =>
      have hedge := hnodes node List.mem_cons_self
      refine ⟨?_, ih fun other hother => hnodes other (by simp [hother])⟩
      intro lower hlower
      have hopen : lower ∈ opened (nodes.map .enter ++ .leave source :: agenda) :=
        hlower
      rw [opened_enters_append] at hopen
      rcases List.mem_cons.mp hopen with rfl | hopen
      · exact (Reaches.refl graph lower).append_edge hedge
      · exact (hagenda.1 lower hopen).append_edge hedge

/-- Whenever a node is left, its successors are done or still open.  Done are
the given nodes and those whose visits come first. -/
def Timely (graph : Graph) : List Nat → List Visit → Prop
  | _, [] => True
  | done, .enter node :: agenda => Timely graph (node :: done) agenda
  | done, .leave node :: agenda =>
      (∀ target ∈ graph.next node,
        target ∈ done ∨ target ∈ node :: opened agenda) ∧
      Timely graph (node :: done) agenda

theorem Timely.mono (htimely : graph.Timely done agenda)
    (hsubset : done ⊆ done') : graph.Timely done' agenda := by
  induction agenda generalizing done done' with
  | nil => trivial
  | cons visit agenda ih =>
      cases visit with
      | enter node => exact ih htimely (List.cons_subset_cons node hsubset)
      | leave node =>
          refine ⟨?_, ih htimely.2 (List.cons_subset_cons node hsubset)⟩
          intro target htarget
          exact (htimely.1 target htarget).imp_left (@hsubset target)

/-- A visit to a node that has been entered before adds nothing: the node is
done, or it is open until its own turn comes. -/
theorem Timely.skip (htimely : graph.Timely (node :: done) agenda)
    (hnode : node ∈ done ∨ node ∈ opened agenda) :
    graph.Timely done agenda := by
  induction agenda generalizing done with
  | nil => trivial
  | cons visit agenda ih =>
      cases visit with
      | enter other =>
          have hrest : graph.Timely (node :: other :: done) agenda :=
            Timely.mono htimely (List.Perm.swap node other done).subset
          exact ih hrest (hnode.imp_left (List.mem_cons_of_mem other))
      | leave other =>
          have hrest : graph.Timely (node :: other :: done) agenda :=
            htimely.2.mono (List.Perm.swap node other done).subset
          simp only [opened, List.mem_cons] at hnode
          refine ⟨?_, ih hrest (by simp only [List.mem_cons]; tauto)⟩
          intro target htarget
          have hcases := htimely.1 target htarget
          simp only [List.mem_cons] at hcases ⊢
          rcases hcases with (rfl | hdone) | hopen
          · tauto
          · exact Or.inl hdone
          · exact Or.inr hopen

theorem timely_enters_append :
    graph.Timely done (nodes.map .enter ++ agenda) ↔
      graph.Timely (nodes.reverse ++ done) agenda := by
  induction nodes generalizing done with
  | nil => rfl
  | cons node nodes ih =>
      rw [List.reverse_cons, List.append_assoc]
      exact ih

/-- Every successor of a listed node comes later in the list or leads back to
the node. -/
def Ordered (graph : Graph) : List Nat → Prop
  | [] => True
  | node :: rest =>
      (∀ target ∈ graph.next node,
        target ∈ rest ∨ graph.Reaches target node) ∧
      Ordered graph rest

theorem Ordered.sublist_or_reaches (hordered : graph.Ordered order)
    {target : Nat} (hnode : node ∈ order) (hedge : target ∈ graph.next node) :
    [node, target].Sublist order ∨ graph.Reaches target node := by
  induction order with
  | nil => cases hnode
  | cons head rest ih =>
      rcases List.mem_cons.mp hnode with rfl | hnode
      · refine (hordered.1 target hedge).imp_left ?_
        intro htarget
        exact (List.singleton_sublist.mpr htarget).cons_cons node
      · exact (ih hordered.2 hnode).imp_left (List.Sublist.cons head)

/-- What holds of the visits ahead and of the nodes finished at every moment
of the walk. -/
structure Disciplined (graph : Graph) (agenda : List Visit)
    (finished : List Nat) : Prop where
  nested : graph.Nested agenda
  timely : graph.Timely finished agenda
  ordered : graph.Ordered finished

theorem Disciplined.leave
    (hwalk : graph.Disciplined (.leave node :: agenda) finished) :
    graph.Disciplined agenda (node :: finished) where
  nested := hwalk.nested.2
  timely := hwalk.timely.2
  ordered := by
    refine ⟨?_, hwalk.ordered⟩
    intro target htarget
    rcases hwalk.timely.1 target htarget with hdone | hopen
    · exact Or.inl hdone
    · rcases List.mem_cons.mp hopen with rfl | hopen
      · exact Or.inr (Reaches.refl graph target)
      · exact Or.inr (hwalk.nested.1 target hopen)

theorem Disciplined.skip
    (hwalk : graph.Disciplined (.enter node :: agenda) finished)
    (hnode : node ∈ finished ∨ node ∈ opened agenda) :
    graph.Disciplined agenda finished where
  nested := hwalk.nested.2
  timely := Timely.skip hwalk.timely hnode
  ordered := hwalk.ordered

theorem Disciplined.enter
    (hwalk : graph.Disciplined (.enter node :: agenda) finished)
    (hseen : ∀ other ∈ seen, other ∈ finished ∨ other ∈ opened agenda) :
    graph.Disciplined
      ((graph.unentered node seen).reverse.map .enter ++ .leave node :: agenda)
      finished where
  nested := by
    have hbelow : graph.Nested (.leave node :: agenda) := hwalk.nested
    exact hbelow.enters_append fun target htarget =>
      (mem_unentered.mp (List.mem_reverse.mp htarget)).1
  timely := by
    have hbelow : graph.Timely (node :: finished) agenda := hwalk.timely
    rw [timely_enters_append, List.reverse_reverse]
    refine ⟨?_, hbelow.mono ?_⟩
    · -- a successor that is not visited again is done, or open
      intro target htarget
      by_cases hold : target ∈ node :: seen
      · rcases List.mem_cons.mp hold with rfl | hold
        · exact Or.inr List.mem_cons_self
        · exact (hseen target hold).imp (List.mem_append_right _)
            (List.mem_cons_of_mem node)
      · exact Or.inl (List.mem_append_left finished
          (mem_unentered.mpr ⟨htarget, hold⟩))
    · exact List.cons_subset_cons node (List.subset_append_right _ finished)
  ordered := hwalk.ordered

theorem reversePostorder_ordered (hgraph : graph.Closed) :
    graph.Ordered graph.reversePostorder := by
  obtain ⟨seen, _, hdisciplined⟩ := graph.walk_rule
    (P := fun agenda seen finished =>
      graph.Walked agenda seen finished ∧ graph.Disciplined agenda finished)
    (fun node agenda seen finished hwalk => ⟨hwalk.1.leave, hwalk.2.leave⟩)
    (by
      rintro node agenda seen finished hold ⟨hwalk, hdisciplined⟩
      have hseen := hwalk.mem_seen_of_skip hgraph hold
      exact ⟨hwalk.skip hseen, hdisciplined.skip (hwalk.finished_or_opened hseen)⟩)
    (by
      rintro node agenda seen finished hfresh _ ⟨hwalk, hdisciplined⟩
      exact ⟨hwalk.enter hfresh,
        hdisciplined.enter fun _ => hwalk.finished_or_opened⟩)
    _ _ _ _ (pending_start graph)
    ⟨walked_start graph, ⟨by simp [opened], trivial⟩, trivial, trivial⟩
  exact hdisciplined.ordered

def Acyclic (graph : Graph) : Prop :=
  ∀ source target, graph.Reaches 0 source → target ∈ graph.next source →
    ¬ graph.Reaches target source

theorem acyclic_of_lt
    (hlt : ∀ source target, target ∈ graph.next source → source < target) :
    graph.Acyclic := by
  rintro source target _ hedge ⟨path, hpath⟩
  have hle : target ≤ source := hpath.induct
    (fun first second hfirst hstep =>
      Nat.le_trans hfirst (Nat.le_of_lt (hlt first second hstep)))
    (Nat.le_refl target)
  exact Nat.not_lt.mpr hle (hlt source target hedge)

/-- Where a depth-first walk stands: the visits ahead, and the nodes entered
and left so far. -/
structure Traversal where
  agenda : List Visit
  seen : List Nat
  finished : List Nat
deriving DecidableEq, Repr

namespace Traversal

def start : Traversal := ⟨[.enter 0], [], []⟩

/-- The walk leaves a node, passes over a node that it has entered before or
that does not exist, or enters a node and puts first the successors that it
has not entered. -/
inductive Step (graph : Graph) : Traversal → Traversal → Prop
  | leave {node : Nat} {agenda : List Visit} {seen finished : List Nat} :
      Step graph ⟨.leave node :: agenda, seen, finished⟩
        ⟨agenda, seen, node :: finished⟩
  | skip {node : Nat} {agenda : List Visit} {seen finished : List Nat}
      (hold : node ∈ seen ∨ graph.size ≤ node) :
      Step graph ⟨.enter node :: agenda, seen, finished⟩
        ⟨agenda, seen, finished⟩
  | enter {node : Nat} {agenda : List Visit} {seen finished : List Nat}
      (hfresh : node ∉ seen) (hnode : node < graph.size) :
      Step graph ⟨.enter node :: agenda, seen, finished⟩
        ⟨(graph.unentered node seen).reverse.map .enter ++
          .leave node :: agenda, node :: seen, finished⟩

def remaining (graph : Graph) (state : Traversal) : Nat :=
  graph.pending state.agenda state.seen

theorem Step.remaining_lt {state next : Traversal}
    (hstep : Step graph state next) :
    remaining graph next < remaining graph state := by
  cases hstep with
  | leave => exact Nat.add_lt_add_right (Nat.lt_succ_self _) _
  | skip => exact Nat.add_lt_add_right (Nat.lt_succ_self _) _
  | enter hfresh hnode => exact pending_enter _ hfresh hnode

/-- No walk goes on for ever, wherever it starts. -/
theorem acc_step (graph : Graph) (state : Traversal) :
    Acc (Function.swap (Step graph)) state :=
  acc_of_decreasing (P := fun _ => True)
    (fun _ hstep => ⟨trivial, hstep.remaining_lt⟩) trivial

theorem run_to_reversePostorder (graph : Graph) :
    ∃ seen, ReflTransGen (Step graph) start ⟨[], seen, graph.reversePostorder⟩ :=
  graph.walk_rule
    (P := fun agenda seen finished =>
      ReflTransGen (Step graph) start ⟨agenda, seen, finished⟩)
    (fun _ _ _ _ hrun => hrun.tail .leave)
    (fun _ _ _ _ hold hrun => hrun.tail (.skip hold))
    (fun _ _ _ _ hfresh hnode hrun => hrun.tail (.enter hfresh hnode))
    _ _ _ _ (pending_start graph) .refl

end Traversal

end Graph

namespace Body

variable {body : Body}

theorem postorder_eq_ok (hbody : body.WellFormed) :
    body.postorder = .ok body.graph.postorder := by
  rw [postorder, Graph.dangling?_eq_none hbody.graph_closed]

/-- The walk ends, and has finished the blocks that the entry reaches, each
once and the entry last.  An edge leads to a block that is finished earlier or
that leads back, so without cycles the reverse order follows the edges; and in
reverse order every block comes after one of its predecessors. -/
theorem postorder_finishes_depth_first (haccepted : body.Accepted) :
    Acc (Function.swap (Graph.Traversal.Step body.graph))
      Graph.Traversal.start ∧
    ∃ order, body.postorder = .ok order ∧
      (∃ seen, ReflTransGen (Graph.Traversal.Step body.graph)
        Graph.Traversal.start ⟨[], seen, order.reverse⟩) ∧
      order.Nodup ∧
      (∀ block, block ∈ order ↔ body.graph.Reaches Body.entry block) ∧
      order.getLast? = some Body.entry ∧
      (∀ u v, body.graph.Reaches Body.entry u → v ∈ body.successors u →
        [v, u].Sublist order ∨ body.graph.Reaches v u) ∧
      (body.graph.Acyclic →
        ∀ u v, body.graph.Reaches Body.entry u → v ∈ body.successors u →
          [u, v].Sublist order.reverse) ∧
      (∀ v, body.graph.Reaches Body.entry v → v ≠ Body.entry →
        ∃ u, v ∈ body.successors u ∧ [u, v].Sublist order.reverse) := by
  have hclosed := haccepted.wellFormed.graph_closed
  have horder := Graph.reversePostorder_isOrder hclosed
  have hordered := Graph.reversePostorder_ordered hclosed
  have hedges : ∀ u v, body.graph.Reaches Body.entry u →
      v ∈ body.successors u →
      [u, v].Sublist body.graph.reversePostorder ∨ body.graph.Reaches v u := by
    intro u v hu hedge
    exact hordered.sublist_or_reaches ((horder.mem_iff u).mpr hu)
      (mem_graph_next.mpr hedge)
  refine ⟨Graph.Traversal.acc_step _ _, body.graph.postorder,
    postorder_eq_ok haccepted.wellFormed, ?_⟩
  rw [Graph.postorder, List.reverse_reverse]
  refine ⟨Graph.Traversal.run_to_reversePostorder _,
    List.nodup_reverse.mpr horder.nodup, ?_, ?_, ?_, ?_, ?_⟩
  · intro block
    rw [List.mem_reverse]
    exact horder.mem_iff block
  · rw [List.getLast?_reverse, horder.head]
    rfl
  · intro u v hu hedge
    exact (hedges u v hu hedge).imp_left List.Sublist.reverse
  · intro hacyclic u v hu hedge
    exact (hedges u v hu hedge).resolve_right
      (hacyclic u v hu (mem_graph_next.mpr hedge))
  · intro v hv hne
    obtain ⟨before, after, hsplit⟩ :=
      List.append_of_mem ((horder.mem_iff v).mpr hv)
    obtain ⟨u, hu, hedge⟩ := horder.earlier before v after hsplit hne
    refine ⟨u, mem_graph_next.mp hedge, ?_⟩
    rw [hsplit]
    exact (List.singleton_sublist.mpr hu).append
      (List.singleton_sublist.mpr List.mem_cons_self)

/-- Two ways from the entry meet again; one of them may also throw past where
they meet. -/
def throwingDiamond : List Draft.Command :=
  [.block, .block, .block, .block, .block,
    .value 0 (.argument 0) (.primitive .int), .push 0 (.branch .eq 0 none 1 2),
    .push 1 (.goto 3), .push 2 (.initClass 0), .push 2 (.goto 3),
    .handler 2 ⟨none, 4⟩, .push 3 (.goto 4), .push 4 (.ret none)]

theorem throwingDiamond_postorder : ∃ given draft body order,
    Draft.run { method := 0, isStatic := true } throwingDiamond =
        .ok (given, draft) ∧
      draft.build = .ok body ∧ body.postorder = .ok order ∧
      body.graph.Acyclic ∧ [2, 4].Sublist order.reverse := by
  have hbuilt : ∃ given draft body,
      Draft.run { method := 0, isStatic := true } throwingDiamond =
          .ok (given, draft) ∧
        draft.build = .ok body ∧
        body.graph = ⟨#[[1, 2], [3], [3, 4], [4], []]⟩ :=
    ⟨_, _, _, rfl, rfl, rfl⟩
  obtain ⟨given, draft, body, hrun, hbuild, hgraph⟩ := hbuilt
  obtain ⟨_, order, horder, _, _, _, _, _, htopological, _⟩ :=
    postorder_finishes_depth_first
      ⟨0, true, throwingDiamond, given, draft, hrun, hbuild⟩
  have hacyclic : body.graph.Acyclic := by
    apply Graph.acyclic_of_lt
    intro source target hedge
    have hsource := Graph.lt_size_of_mem_next hedge
    rw [hgraph] at hedge hsource
    revert hedge target
    revert hsource source
    decide
  have hreach : body.graph.Reaches Body.entry 2 := by
    rw [hgraph]
    exact ⟨[0, 2], .step (by decide) (.single 2)⟩
  have hedge : 4 ∈ body.successors 2 := by
    rw [← mem_graph_next, hgraph]
    decide
  exact ⟨given, draft, body, order, hrun, hbuild, horder, hacyclic,
    htopological hacyclic 2 4 hreach hedge⟩

end Body

end FlowFacts
