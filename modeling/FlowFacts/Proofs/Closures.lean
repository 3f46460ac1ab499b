/-
Closures found round by round.  A closure holds what is reached in as many
steps as there are rounds; since paths need not repeat nodes, as many rounds as
there are nodes reach everything.
-/
import Mathlib.Logic.Relation
import FlowFacts.Closure
import FlowFacts.Proofs.Accepted

namespace FlowFacts

/-- What is noted for one block leaves what is noted for the others. -/
theorem getD_setIfInBounds {α : Type} {notes : Array α} {block : BlockId}
    (hblock : block < notes.size) (note fallback : α) (other : BlockId) :
    (notes.setIfInBounds block note).getD other fallback =
      if other = block then note else notes.getD other fallback := by
  simp only [Array.getD_eq_getD_getElem?, Array.getElem?_setIfInBounds]
  by_cases heq : other = block
  · simp [heq, hblock]
  · simp [heq, Ne.symm heq]

variable {next : Nat → List Nat} {steps rounds first last : Nat}
variable {closed frontier : List Nat}

/-- The second node is reached from the first in this many steps. -/
inductive Steps (next : Nat → List Nat) : Nat → Nat → Nat → Prop
  | refl (node : Nat) : Steps next 0 node node
  | step {steps first second last : Nat} (hstep : second ∈ next first)
      (hrest : Steps next steps second last) :
      Steps next (steps + 1) first last

theorem Steps.append_step {target : Nat} (hsteps : Steps next steps first last)
    (hstep : target ∈ next last) : Steps next (steps + 1) first target := by
  induction hsteps with
  | refl node => exact .step hstep (.refl target)
  | step hhead _ ih => exact .step hhead (ih hstep)

theorem Steps.reaches (hsteps : Steps next steps first last) :
    Relation.ReflTransGen (fun a b => b ∈ next a) first last := by
  induction hsteps with
  | refl => exact .refl
  | step hstep _ ih => exact .head hstep ih

theorem exists_steps
    (hreach : Relation.ReflTransGen (fun a b => b ∈ next a) first last) :
    ∃ steps, Steps next steps first last := by
  induction hreach with
  | refl => exact ⟨0, .refl first⟩
  | tail _ hstep ih =>
      obtain ⟨steps, hsteps⟩ := ih
      exact ⟨steps + 1, hsteps.append_step hstep⟩

/-- The way out of nodes that have been expanded leads through the
frontier. -/
theorem Steps.mem_or_through (hsteps : Steps next steps first last)
    (hclosed : ∀ node ∈ closed, ∀ target ∈ next node,
      target ∈ closed ∨ target ∈ frontier) (hfirst : first ∈ closed) :
    last ∈ closed ∨
      ∃ node ∈ frontier, ∃ fewer < steps, Steps next fewer node last := by
  induction hsteps with
  | refl => exact Or.inl hfirst
  | @step steps first second last hstep hrest ih =>
      rcases hclosed first hfirst second hstep with hsecond | hsecond
      · rcases ih hsecond with hlast | ⟨node, hnode, fewer, hlt, hway⟩
        · exact Or.inl hlast
        · exact Or.inr ⟨node, hnode, fewer, Nat.lt_succ_of_lt hlt, hway⟩
      · exact Or.inr ⟨second, hsecond, steps, Nat.lt_succ_self steps, hrest⟩

theorem mem_expandRounds
    (hclosed : ∀ node ∈ closed, ∀ target ∈ next node,
      target ∈ closed ∨ target ∈ frontier) :
    last ∈ expandRounds next rounds closed frontier ↔
      last ∈ closed ∨
        ∃ node ∈ frontier, ∃ steps ≤ rounds, Steps next steps node last := by
  induction rounds generalizing closed frontier with
  | zero =>
      rw [expandRounds, List.mem_append]
      refine or_congr_right ?_
      constructor
      · exact fun hlast => ⟨last, hlast, 0, Nat.le_refl 0, .refl last⟩
      · rintro ⟨node, hnode, steps, hle, hsteps⟩
        obtain rfl := Nat.le_zero.mp hle
        cases hsteps
        exact hnode
  | succ rounds ih =>
      rw [expandRounds]
      split
      · next hempty =>
          obtain rfl := List.isEmpty_iff.mp hempty
          simp
      · have hclosed' : ∀ node ∈ closed ++ frontier, ∀ target ∈ next node,
            target ∈ closed ++ frontier ∨
              target ∈ firstUnseen (closed ++ frontier)
                (frontier.flatMap next) := by
          intro node hnode target htarget
          rw [mem_firstUnseen]
          rcases List.mem_append.mp hnode with hnode | hnode
          · left
            exact List.mem_append.mpr (hclosed node hnode target htarget)
          · have hmem : target ∈ frontier.flatMap next :=
              List.mem_flatMap.mpr ⟨node, hnode, htarget⟩
            tauto
        rw [ih hclosed']
        constructor
        · rintro (hlast | ⟨node, hnode, steps, hle, hsteps⟩)
          · rcases List.mem_append.mp hlast with hlast | hlast
            · exact Or.inl hlast
            · exact Or.inr ⟨last, hlast, 0, Nat.zero_le _, .refl last⟩
          · obtain ⟨source, hsource, hstep⟩ :=
              List.mem_flatMap.mp (mem_firstUnseen.mp hnode).1
            exact Or.inr ⟨source, hsource, steps + 1,
              Nat.succ_le_succ hle, .step hstep hsteps⟩
        · rintro (hlast | ⟨node, hnode, steps, hle, hsteps⟩)
          · exact Or.inl (List.mem_append_left frontier hlast)
          · rcases hsteps.mem_or_through hclosed'
              (List.mem_append_right closed hnode) with
              hlast | ⟨node, hnode, fewer, hlt, hway⟩
            · exact Or.inl hlast
            · exact Or.inr ⟨node, hnode, fewer, by omega, hway⟩

theorem mem_closure {start : List Nat} : last ∈ closure next rounds start ↔
    ∃ node ∈ start, ∃ steps ≤ rounds, Steps next steps node last := by
  rw [closure, mem_expandRounds (by simp)]
  simp [mem_firstUnseen]

/-- A search that is not cut off ends after this many rounds, when there is
nothing left to expand, and has found these nodes. -/
inductive Exhausts (next : Nat → List Nat) :
    Nat → List Nat → List Nat → List Nat → Prop
  | dry (closed : List Nat) : Exhausts next 0 closed [] closed
  | round {rounds : Nat} {closed frontier found : List Nat}
      (hsome : frontier ≠ [])
      (hrest : Exhausts next rounds (closed ++ frontier)
        (firstUnseen (closed ++ frontier) (frontier.flatMap next)) found) :
      Exhausts next (rounds + 1) closed frontier found

/-- A frontier of nodes that lead nowhere is the last one. -/
theorem exhausts_of_sinks (hsinks : ∀ node ∈ frontier, next node = []) :
    ∃ rounds ≤ 1, ∃ found, Exhausts next rounds closed frontier found := by
  by_cases hnil : frontier = []
  · exact ⟨0, Nat.zero_le 1, closed, hnil ▸ .dry closed⟩
  · have hempty :
        firstUnseen (closed ++ frontier) (frontier.flatMap next) = [] := by
      rw [List.flatMap_eq_nil_iff.mpr hsinks]
      rfl
    exact ⟨1, Nat.le_refl 1, closed ++ frontier,
      .round hnil (hempty ▸ .dry (closed ++ frontier))⟩

/-- Expanding a frontier with a new node leaves fewer nodes to expand. -/
theorem length_unexpanded_lt {nodes : List Nat} {node : Nat}
    (hnode : node ∈ frontier) (hmem : node ∈ nodes) (hfresh : node ∉ closed) :
    (nodes.filter (· ∉ closed ++ frontier)).length <
      (nodes.filter (· ∉ closed)).length := by
  have hsplit : nodes.filter (· ∉ closed ++ frontier) =
      (nodes.filter (· ∉ closed)).filter (· ∉ frontier) := by
    rw [List.filter_filter]
    apply List.filter_congr
    simp [Bool.and_comm]
  rw [hsplit]
  apply List.length_filter_lt_length_iff_exists.mpr
  exact ⟨node, by simp [hmem, hfresh], by simpa using hnode⟩

/-- What holds of an empty line, and of a line if it holds of its rest and of
the line that has got the successors of a first node that is new, holds of
every line.  With every node that is expanded, fewer are left or the line gets
shorter: a number too large for a node has no successors. -/
theorem line_induct {size : Nat} {P : List Nat → List Nat → Prop}
    (hsinks : ∀ node, size ≤ node → next node = [])
    (hnil : ∀ visited, P [] visited)
    (hcons : ∀ node rest visited, P rest visited →
      (node ∉ visited → P (rest ++ next node) (visited ++ [node])) →
        P (node :: rest) visited)
    (line visited : List Nat) : P line visited := by
  suffices hbounded : ∀ bound line visited,
      ((List.range size).filter (· ∉ visited)).length ≤ bound →
        P line visited from hbounded _ line visited (Nat.le_refl _)
  intro bound
  induction bound using Nat.strongRecOn with
  | _ bound ihBound =>
      intro line
      induction line with
      | nil => exact fun visited _ => hnil visited
      | cons node rest ihRest =>
          intro visited hbound
          refine hcons node rest visited (ihRest visited hbound) fun hfresh => ?_
          by_cases hnode : node < size
          · have hless := length_unexpanded_lt (List.mem_singleton_self node)
              (List.mem_range.mpr hnode) hfresh
            exact ihBound _ (Nat.lt_of_lt_of_le hless hbound) _ _ (Nat.le_refl _)
          · rw [hsinks node (Nat.not_lt.mp hnode), List.append_nil]
            apply ihRest
            refine Nat.le_trans (List.Sublist.length_le ?_) hbound
            apply List.monotone_filter_right
            intro other hother
            simp_all

/-- Where only these nodes lead anywhere, every round but the last expands one
of them for the first time. -/
theorem exists_exhausts (nodes : List Nat) {bound : Nat}
    (hsinks : ∀ node, node ∉ nodes → next node = [])
    (hbound : (nodes.filter (· ∉ closed)).length ≤ bound)
    (hfresh : ∀ node ∈ frontier, node ∉ closed) :
    ∃ rounds ≤ bound + 1, ∃ found,
      Exhausts next rounds closed frontier found := by
  induction bound generalizing closed frontier with
  | zero =>
      apply exhausts_of_sinks
      intro node hnode
      apply hsinks
      intro hmem
      have hopen : node ∈ nodes.filter (· ∉ closed) := by
        simp [hmem, hfresh node hnode]
      exact absurd (List.length_pos_of_mem hopen) (by omega)
  | succ bound ih =>
      by_cases hopen : ∃ node ∈ frontier, node ∈ nodes
      · obtain ⟨node, hnode, hmem⟩ := hopen
        have hfewer := length_unexpanded_lt hnode hmem (hfresh node hnode)
        obtain ⟨rounds, hle, found, hrest⟩ := @ih (closed ++ frontier)
          (firstUnseen (closed ++ frontier) (frontier.flatMap next))
          (by omega) fun other hother => (mem_firstUnseen.mp hother).2
        exact ⟨rounds + 1, by omega, found,
          .round (List.ne_nil_of_mem hnode) hrest⟩
      · have hlast : ∃ rounds ≤ 1, ∃ found,
            Exhausts next rounds closed frontier found := by
          apply exhausts_of_sinks
          intro node hnode
          exact hsinks node fun hmem => hopen ⟨node, hnode, hmem⟩
        obtain ⟨rounds, hle, hrounds⟩ := hlast
        exact ⟨rounds, by omega, hrounds⟩

/-- The last round finds nothing, so that one round fewer is enough. -/
theorem Exhausts.expandRounds_eq {found : List Nat} {limit : Nat}
    (hends : Exhausts next rounds closed frontier found)
    (hlimit : rounds ≤ limit + 1) :
    expandRounds next limit closed frontier = found := by
  induction hends generalizing limit with
  | dry closed => cases limit <;> simp [expandRounds]
  | @round rounds closed frontier found hsome hrest ih =>
      cases limit with
      | zero =>
          obtain rfl : rounds = 0 := by omega
          generalize firstUnseen _ _ = last at hrest
          cases hrest
          rfl
      | succ limit =>
          rw [expandRounds, if_neg (by simpa using hsome)]
          exact ih (by omega)

/-- A search that ends has found all that can be reached. -/
theorem Exhausts.mem_found {start : Nat} {found : List Nat}
    (hends : Exhausts next rounds [] [start] found) :
    last ∈ found ↔ Relation.ReflTransGen (fun a b => b ∈ next a) start last := by
  have hclosure : ∀ limit, rounds ≤ limit + 1 →
      closure next limit [start] = found :=
    fun limit hlimit => hends.expandRounds_eq hlimit
  constructor
  · intro hlast
    rw [← hclosure rounds (Nat.le_succ rounds), mem_closure] at hlast
    obtain ⟨node, hnode, steps, _, hsteps⟩ := hlast
    obtain rfl := List.mem_singleton.mp hnode
    exact hsteps.reaches
  · intro hreach
    obtain ⟨steps, hsteps⟩ := exists_steps hreach
    rw [← hclosure (rounds + steps) (by omega), mem_closure]
    exact ⟨start, List.mem_singleton_self start, steps, by omega, hsteps⟩

/-- Where no node from this number on leads anywhere, so many steps lead
everywhere. -/
theorem exists_steps_le {size : Nat}
    (hsinks : ∀ node, size ≤ node → next node = [])
    (hreach : Relation.ReflTransGen (fun a b => b ∈ next a) first last) :
    ∃ steps ≤ size, Steps next steps first last := by
  have hexhausts : ∃ rounds ≤ size + 1, ∃ found,
      Exhausts next rounds [] [first] found := by
    apply exists_exhausts (List.range size)
    · intro node hnode
      exact hsinks node (Nat.not_lt.mp fun hlt => hnode (List.mem_range.mpr hlt))
    · simp
    · simp
  obtain ⟨rounds, hrounds, found, hends⟩ := hexhausts
  have hclosure : closure next size [first] = found :=
    hends.expandRounds_eq hrounds
  have hlast : last ∈ closure next size [first] := by
    rwa [hclosure, hends.mem_found]
  obtain ⟨node, hnode, steps, hle, hsteps⟩ := mem_closure.mp hlast
  obtain rfl := List.mem_singleton.mp hnode
  exact ⟨steps, hle, hsteps⟩

namespace Graph

variable {graph : Graph} {path : List Nat}

theorem Path.steps_next (hnext : ∀ node, graph.next node ⊆ next node)
    (hpath : graph.Path first path last) :
    Steps next (path.length - 1) first last := by
  induction hpath with
  | single node => exact .refl node
  | @step first second last path hedge hrest ih =>
      have hlength : path.length - 1 + 1 = path.length := by
        cases hrest <;> rfl
      have hsteps := Steps.step (hnext first hedge) ih
      rwa [hlength] at hsteps

end Graph

/-- Where steps stay among finitely many nodes, as many steps as there are
nodes lead everywhere. -/
theorem Steps.exists_le {size : Nat} (hsteps : Steps next steps first last)
    (hclosed : ∀ node < size, ∀ target ∈ next node, target < size)
    (hfirst : first < size) : ∃ fewer ≤ size, Steps next fewer first last := by
  let graph : Graph := ⟨((List.range size).map next).toArray⟩
  have hsize : graph.size = size := by simp [graph, Graph.size]
  have hnext : ∀ node < size, graph.next node = next node := by
    intro node hnode
    simp [graph, Graph.next, hnode]
  have hsubset : ∀ node, graph.next node ⊆ next node := by
    intro node target htarget
    rwa [hnext node (hsize ▸ Graph.lt_size_of_mem_next htarget)] at htarget
  have hgraph : graph.Closed := by
    refine ⟨hsize ▸ Nat.zero_lt_of_lt hfirst, ?_⟩
    intro source target htarget
    rw [hsize]
    exact hclosed source (hsize ▸ Graph.lt_size_of_mem_next htarget) target
      (hsubset source htarget)
  have hreaches : graph.Reaches first last := by
    induction hsteps with
    | refl node => exact Graph.Reaches.refl graph node
    | @step steps first second last hstep _ ih =>
        obtain ⟨path, hpath⟩ := ih (hclosed first hfirst second hstep)
        exact ⟨first :: path, .step (by rwa [hnext first hfirst]) hpath⟩
  obtain ⟨path, hpath⟩ := hreaches
  obtain ⟨short, hshort, hnodup, _⟩ := hpath.exists_nodup
  have hlength := hshort.length_le_size hgraph (hsize ▸ hfirst) hnodup
  exact ⟨short.length - 1, by omega, hshort.steps_next hsubset⟩

end FlowFacts
