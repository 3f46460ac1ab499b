/-
Paths in a finite graph: where they can be cut, how they are joined, and that
every path runs through all nodes of some path without repetitions.
-/
import Mathlib.Data.List.Perm.Subperm
import FlowFacts.Flow.Graph

namespace FlowFacts

/-- There are at most as many different numbers below a bound. -/
theorem length_le_of_lt {nodes : List Nat} {size : Nat} (hnodup : nodes.Nodup)
    (hlt : ∀ node ∈ nodes, node < size) : nodes.length ≤ size := by
  have hsubset : nodes ⊆ List.range size :=
    fun node hnode => List.mem_range.mpr (hlt node hnode)
  simpa using (hnodup.subperm hsubset).length_le

namespace Graph

variable {graph : Graph} {first middle last node : Nat} {path : List Nat}

/-- There is an entry, and every edge leads to a node. -/
structure Closed (graph : Graph) : Prop where
  entry_lt : 0 < graph.size
  target_lt : ∀ {source target}, target ∈ graph.next source →
    target < graph.size

theorem lt_size_of_mem_next (hedge : last ∈ graph.next first) :
    first < graph.size := by
  by_contra hge
  simp [next, Array.getD_eq_getD_getElem?,
    Array.getElem?_eq_none (Nat.not_lt.mp hge)] at hedge

theorem mem_previous {source target : Nat} : source ∈ graph.previous target ↔
    target ∈ graph.next source := by
  simp only [previous, List.mem_filter, List.mem_range, List.contains_iff_mem]
  constructor
  · exact And.right
  · exact fun htarget => ⟨lt_size_of_mem_next htarget, htarget⟩

theorem Path.first_mem (hpath : graph.Path first path last) : first ∈ path := by
  cases hpath with
  | single => exact List.mem_singleton_self _
  | step => exact List.mem_cons_self

theorem Path.last_mem (hpath : graph.Path first path last) : last ∈ path := by
  induction hpath with
  | single => exact List.mem_singleton_self _
  | step _ _ ih => exact List.mem_cons_of_mem _ ih

/-- What holds at the start of a path and is passed on along edges holds at
its end. -/
theorem Path.induct {P : Nat → Prop} (hpath : graph.Path first path last)
    (hedge : ∀ source target, P source → target ∈ graph.next source → P target)
    (hfirst : P first) : P last := by
  induction hpath with
  | single => exact hfirst
  | step hhead _ ih => exact ih (hedge _ _ hfirst hhead)

theorem Path.append_edge (hpath : graph.Path first path middle)
    (hedge : last ∈ graph.next middle) :
    graph.Path first (path ++ [last]) last := by
  induction hpath with
  | single => exact .step hedge (.single last)
  | step hhead _ ih => exact .step hhead (ih hedge)

/-- A path that goes somewhere else arrives there by a last edge. -/
theorem Path.eq_or_append_edge (hpath : graph.Path first path last) :
    (first = last ∧ path = [first]) ∨
      ∃ before source, graph.Path first before source ∧
        last ∈ graph.next source ∧ path = before ++ [last] := by
  induction hpath with
  | single => exact Or.inl ⟨rfl, rfl⟩
  | @step first second last path hedge hrest ih =>
      refine Or.inr ?_
      rcases ih with ⟨rfl, rfl⟩ | ⟨before, source, hbefore, hlast, rfl⟩
      · exact ⟨[first], first, .single first, hedge, rfl⟩
      · exact ⟨first :: before, source, .step hedge hbefore, hlast, rfl⟩

/-- A path can be cut off at any of its nodes. -/
theorem Path.to_member (hpath : graph.Path first path last)
    (hnode : node ∈ path) :
    ∃ before, graph.Path first before node ∧ before <+: path := by
  induction hpath with
  | single =>
      obtain rfl := List.mem_singleton.mp hnode
      exact ⟨[node], .single node, List.prefix_rfl⟩
  | @step first second last path hedge hrest ih =>
      rcases List.mem_cons.mp hnode with rfl | hnode
      · exact ⟨[node], .single node, by simp⟩
      · obtain ⟨before, hbefore, hprefix⟩ := ih hnode
        exact ⟨first :: before, .step hedge hbefore,
          (List.prefix_cons_inj first).mpr hprefix⟩

/-- A path can be started at any of its nodes. -/
theorem Path.from_member (hpath : graph.Path first path last)
    (hnode : node ∈ path) :
    ∃ after, graph.Path node after last ∧ after <:+ path := by
  induction hpath with
  | single =>
      obtain rfl := List.mem_singleton.mp hnode
      exact ⟨[node], .single node, List.suffix_rfl⟩
  | @step first second last path hedge hrest ih =>
      rcases List.mem_cons.mp hnode with rfl | hnode
      · exact ⟨node :: path, .step hedge hrest, List.suffix_rfl⟩
      · obtain ⟨after, hafter, hsuffix⟩ := ih hnode
        exact ⟨after, hafter, hsuffix.trans (List.suffix_cons first path)⟩

/-- Repetitions can be cut out of a path. -/
theorem Path.exists_nodup (hpath : graph.Path first path last) :
    ∃ short, graph.Path first short last ∧ short.Nodup ∧ short ⊆ path := by
  induction hpath with
  | single node => exact ⟨[node], .single node, by simp, List.Subset.refl _⟩
  | @step first second last path hedge hrest ih =>
      obtain ⟨short, hshort, hnodup, hsubset⟩ := ih
      by_cases hfirst : first ∈ short
      · obtain ⟨after, hafter, hsuffix⟩ := hshort.from_member hfirst
        exact ⟨after, hafter, hnodup.sublist hsuffix.sublist,
          fun node hnode => List.mem_cons_of_mem first
            (hsubset (hsuffix.subset hnode))⟩
      · exact ⟨first :: short, .step hedge hshort,
          List.nodup_cons.mpr ⟨hfirst, hnodup⟩,
          List.cons_subset_cons first hsubset⟩

theorem Path.lt_size (hgraph : graph.Closed)
    (hpath : graph.Path first path last) (hfirst : first < graph.size) :
    ∀ node ∈ path, node < graph.size := by
  induction hpath with
  | single => simpa using hfirst
  | step hedge _ ih =>
      intro node hnode
      rcases List.mem_cons.mp hnode with rfl | hnode
      · exact hfirst
      · exact ih (hgraph.target_lt hedge) node hnode

/-- A path without repetitions has at most as many nodes as the graph. -/
theorem Path.length_le_size (hgraph : graph.Closed)
    (hpath : graph.Path first path last) (hfirst : first < graph.size)
    (hnodup : path.Nodup) : path.length ≤ graph.size :=
  length_le_of_lt hnodup (hpath.lt_size hgraph hfirst)

theorem Reaches.refl (graph : Graph) (node : Nat) : graph.Reaches node node :=
  ⟨[node], .single node⟩

theorem Reaches.append_edge (hreach : graph.Reaches first middle)
    (hedge : last ∈ graph.next middle) : graph.Reaches first last := by
  obtain ⟨path, hpath⟩ := hreach
  exact ⟨path ++ [last], hpath.append_edge hedge⟩

theorem Reaches.lt_size (hgraph : graph.Closed)
    (hreach : graph.Reaches 0 node) : node < graph.size := by
  obtain ⟨path, hpath⟩ := hreach
  exact hpath.lt_size hgraph hgraph.entry_lt node hpath.last_mem

theorem Path.reaches_member (hpath : graph.Path first path last)
    (hnode : node ∈ path) : graph.Reaches first node := by
  obtain ⟨before, hbefore, _⟩ := hpath.to_member hnode
  exact ⟨before, hbefore⟩

theorem entry_dominates (hreach : graph.Reaches 0 node) :
    graph.Dominates 0 node :=
  Or.inr ⟨hreach, fun _ hpath => hpath.first_mem⟩

/-- Nothing but the entry dominates the entry. -/
theorem Dominates.eq_zero {a : Nat} (hdom : graph.Dominates a 0) : a = 0 := by
  rcases hdom with heq | ⟨_, hpaths⟩
  · exact heq
  · exact List.mem_singleton.mp (hpaths [0] (.single 0))

/-- A node that is not reached has no part in dominance between nodes. -/
theorem Dominates.eq_or_reaches {a b : Nat} (hdom : graph.Dominates a b) :
    a = b ∨ (graph.Reaches 0 a ∧ graph.Reaches 0 b) := by
  rcases hdom with heq | ⟨⟨path, hpath⟩, hpaths⟩
  · exact Or.inl heq
  · exact Or.inr ⟨hpath.reaches_member (hpaths path hpath), path, hpath⟩

/-- What dominates a node from outside dominates every reachable predecessor
of the node. -/
theorem Dominates.of_edge {a source target : Nat}
    (hdom : graph.Dominates a target) (hne : a ≠ target)
    (hreach : graph.Reaches 0 source) (hedge : target ∈ graph.next source) :
    graph.Dominates a source := by
  rcases hdom with heq | ⟨_, hpaths⟩
  · exact absurd heq hne
  · refine Or.inr ⟨hreach, ?_⟩
    intro path hpath
    have hmem := hpaths _ (hpath.append_edge hedge)
    rcases List.mem_append.mp hmem with hmem | hmem
    · exact hmem
    · exact absurd (List.mem_singleton.mp hmem) hne

theorem Dominates.trans {a b c : Nat} (hab : graph.Dominates a b)
    (hbc : graph.Dominates b c) : graph.Dominates a c := by
  rcases hbc with rfl | ⟨hreach, hpaths⟩
  · exact hab
  · rcases hab with rfl | ⟨_, hpaths'⟩
    · exact Or.inr ⟨hreach, hpaths⟩
    · refine Or.inr ⟨hreach, ?_⟩
      intro path hpath
      obtain ⟨before, hbefore, hprefix⟩ := hpath.to_member (hpaths path hpath)
      exact hprefix.subset (hpaths' before hbefore)

end Graph

end FlowFacts
