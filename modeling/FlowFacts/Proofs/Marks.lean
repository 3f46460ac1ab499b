/-
Marks are exact and do not depend on what the buffer was used for.  Marking
spreads backwards from the target, one block in line after another; when
nothing is in line, all predecessors of marked blocks are marked, so a block is
marked exactly when it leads to the target.
-/
import FlowFacts.Flow.Marks
import FlowFacts.Proofs.Closures

namespace FlowFacts

namespace Graph

variable {graph : Graph} {marked : Array Bool} {line nodes : List Nat}
variable {node source target : Nat}

@[simp] theorem size_noted (marked : Array Bool) (nodes : List Nat) :
    (noted marked nodes).size = marked.size := by
  induction nodes generalizing marked with
  | nil => rfl
  | cons node nodes ih =>
      rw [noted, List.foldl_cons]
      exact (ih _).trans Array.size_setIfInBounds

theorem getD_noted (hnodes : ∀ node ∈ nodes, node < marked.size) (other : Nat) :
    (noted marked nodes).getD other false = true ↔
      marked.getD other false = true ∨ other ∈ nodes := by
  induction nodes generalizing marked with
  | nil => simp [noted]
  | cons node nodes ih =>
      obtain ⟨hnode, hrest⟩ := List.forall_mem_cons.mp hnodes
      have hih := @ih (marked.setIfInBounds node true) (by simpa using hrest)
      rw [getD_setIfInBounds hnode] at hih
      rw [noted, List.foldl_cons, ← noted, hih, List.mem_cons]
      split <;> simp [*]

theorem mem_unmarkedBefore : source ∈ graph.unmarkedBefore marked node ↔
    node ∈ graph.next source ∧ marked.getD source false = false := by
  rw [unmarkedBefore, List.mem_filter, mem_previous, Bool.not_eq_true']

theorem lt_of_mem_unmarkedBefore (hsize : marked.size = graph.size)
    (hsource : source ∈ graph.unmarkedBefore marked node) :
    source < marked.size :=
  hsize ▸ lt_size_of_mem_next (mem_unmarkedBefore.mp hsource).1

/-- A step leaves all marks and marks all predecessors of the node. -/
theorem getD_noted_before (hsize : marked.size = graph.size) (node other : Nat) :
    (noted marked (graph.unmarkedBefore marked node)).getD other false = true ↔
      marked.getD other false = true ∨ node ∈ graph.next other := by
  rw [getD_noted fun source => lt_of_mem_unmarkedBefore hsize,
    mem_unmarkedBefore]
  cases marked.getD other false <;> simp

def unmarked (graph : Graph) (marked : Array Bool) : List Nat :=
  (List.range graph.size).filter fun node => !marked.getD node false

/-- What gets in line is no longer unmarked. -/
theorem length_unmarked (hsize : marked.size = graph.size) (node : Nat) :
    (graph.unmarkedBefore marked node).length +
        (graph.unmarked
          (noted marked (graph.unmarkedBefore marked node))).length =
      (graph.unmarked marked).length := by
  have hfresh : graph.unmarkedBefore marked node =
      (graph.unmarked marked).filter
        fun source => (graph.next source).contains node := by
    simp only [unmarkedBefore, previous, unmarked, List.filter_filter,
      Bool.and_comm]
  have hrest : graph.unmarked
        (noted marked (graph.unmarkedBefore marked node)) =
      (graph.unmarked marked).filter
        fun source => !(graph.next source).contains node := by
    rw [unmarked, unmarked, List.filter_filter]
    apply List.filter_congr
    intro other _
    rw [Bool.eq_iff_iff, Bool.not_eq_true', ← Bool.not_eq_true,
      getD_noted_before hsize]
    cases marked.getD other false <;> simp
  rw [hrest, hfresh]
  exact (List.length_eq_length_filter_add _).symm

theorem length_unmarked_lt (hnode : node < graph.size)
    (hmarked : marked.getD node false = true) :
    (graph.unmarked marked).length < graph.size := by
  have hlt : (graph.unmarked marked).length < (List.range graph.size).length :=
    List.length_filter_lt_length_iff_exists.mpr
      ⟨node, List.mem_range.mpr hnode, by simp [hmarked]⟩
  rwa [List.length_range] at hlt

/-- Whatever a step preserves holds when nothing is in line.  Every node gets
in line once, so there are enough steps. -/
theorem spread_rule {P : List Nat → Array Bool → Prop}
    (hstep : ∀ node line marked, marked.size = graph.size →
      P (node :: line) marked →
        P ((graph.unmarkedBefore marked node).reverse ++ line)
          (noted marked (graph.unmarkedBefore marked node)))
    (steps : Nat) (line : List Nat) (marked : Array Bool)
    (hsize : marked.size = graph.size)
    (hsteps : line.length + (graph.unmarked marked).length ≤ steps)
    (hstart : P line marked) : P [] (graph.spread steps line marked) := by
  induction steps generalizing line marked with
  | zero =>
      obtain rfl := List.eq_nil_of_length_eq_zero (l := line) (by omega)
      exact hstart
  | succ steps ih =>
      cases line with
      | nil => exact hstart
      | cons node line =>
          have hlength := length_unmarked hsize node
          refine ih _ _ ((size_noted _ _).trans hsize) ?_
            (hstep node line marked hsize hstart)
          simp only [List.length_append, List.length_reverse,
            List.length_cons] at hsteps ⊢
          omega

/-- What holds while marks spread from a target: marked nodes lead to it, and
those that are not in line have all their predecessors marked. -/
structure Spreading (graph : Graph) (target : Nat) (line : List Nat)
    (marked : Array Bool) : Prop where
  start : marked.getD target false = true
  leads : ∀ node, marked.getD node false = true → graph.Reaches node target
  inLine : ∀ node ∈ line, marked.getD node false = true
  expanded : ∀ node, marked.getD node false = true → node ∈ line ∨
    ∀ source, node ∈ graph.next source → marked.getD source false = true

theorem Spreading.step (hspread : graph.Spreading target (node :: line) marked)
    (hsize : marked.size = graph.size) :
    graph.Spreading target
      ((graph.unmarkedBefore marked node).reverse ++ line)
      (noted marked (graph.unmarkedBefore marked node)) := by
  have hnoted := getD_noted_before hsize node
  refine ⟨(hnoted target).mpr (Or.inl hspread.start), ?_, ?_, ?_⟩
  · intro other hother
    rcases (hnoted other).mp hother with hother | hedge
    · exact hspread.leads other hother
    · obtain ⟨path, hpath⟩ :=
        hspread.leads node (hspread.inLine node List.mem_cons_self)
      exact ⟨other :: path, .step hedge hpath⟩
  · intro other hother
    rw [hnoted]
    rcases List.mem_append.mp hother with hother | hother
    · exact Or.inr (mem_unmarkedBefore.mp (List.mem_reverse.mp hother)).1
    · exact Or.inl (hspread.inLine other (List.mem_cons_of_mem node hother))
  · intro other hother
    by_cases hmarked : marked.getD other false = true
    · rcases hspread.expanded other hmarked with hmem | hall
      · rcases List.mem_cons.mp hmem with rfl | hmem
        · exact Or.inr fun source hedge => (hnoted source).mpr (Or.inr hedge)
        · exact Or.inl (List.mem_append_right _ hmem)
      · exact Or.inr fun source hedge =>
          (hnoted source).mpr (Or.inl (hall source hedge))
    · -- A node marked in this step gets in line.
      have hedge := ((hnoted other).mp hother).resolve_left hmarked
      have hfresh := mem_unmarkedBefore.mpr
        ⟨hedge, Bool.not_eq_true _ ▸ hmarked⟩
      exact Or.inl (List.mem_append_left _ (List.mem_reverse.mpr hfresh))

/-- When nothing is in line, the way from a node to the target is marked from
its end. -/
theorem Spreading.marked_iff (hspread : graph.Spreading target [] marked)
    (node : Nat) :
    marked.getD node false = true ↔ graph.Reaches node target := by
  refine ⟨hspread.leads node, ?_⟩
  rintro ⟨path, hpath⟩
  induction hpath with
  | single => exact hspread.start
  | @step first second last path hedge _ ih =>
      have hall := (hspread.expanded second (ih hspread)).resolve_left (by simp)
      exact hall first hedge

/-- At the start only the target is marked. -/
theorem spreading_start
    (hblank : ∀ node, marked.getD node false = false)
    (htarget : target < marked.size) :
    graph.Spreading target [target] (noted marked [target]) := by
  have hnoted : ∀ other, (noted marked [target]).getD other false = true ↔
      other = target := by
    intro other
    rw [getD_noted (by simpa using htarget), hblank, List.mem_singleton]
    simp
  refine ⟨(hnoted target).mpr rfl, ?_, ?_, ?_⟩
  · intro node hnode
    rw [(hnoted node).mp hnode]
    exact Reaches.refl graph target
  · intro node hnode
    exact (hnoted node).mpr (List.mem_singleton.mp hnode)
  · intro node hnode
    exact Or.inl (List.mem_singleton.mpr ((hnoted node).mp hnode))

end Graph

namespace Marks

variable {body : Body} {target : BlockId} {used marks : Marks}

theorem size_prepare (marks : Marks) (body : Body) (target : BlockId) :
    (marks.prepare body target).marked.size = body.blocks.size := by
  simp [prepare, resized]

/-- Whatever the buffer was used for, no mark is left in it. -/
theorem getD_prepare (marks : Marks) (body : Body) (target block : BlockId) :
    (marks.prepare body target).marked.getD block false = false := by
  by_cases hblock : block < body.blocks.size <;>
    simp [prepare, resized, clear, hblock]

/-- Exactly the blocks that lead to the target are marked. -/
theorem retarget_isMarked (hmarks : used.retarget body target = .ok marks)
    (block : BlockId) : marks.target = some target ∧
      (marks.isMarked block = true ↔ body.graph.Reaches block target) := by
  obtain ⟨content, hcontent, hmarks⟩ := exists_of_bind hmarks
  obtain rfl := Except.ok.inj hmarks
  have hsize : (used.prepare body target).marked.size = body.graph.size := by
    rw [size_prepare, Body.size_graph]
  have htarget : target < body.graph.size := by
    rw [Body.size_graph]
    exact Body.lt_size_of_block hcontent
  have hstart : body.graph.Spreading target [target] _ :=
    Graph.spreading_start (used.getD_prepare body target) (hsize ▸ htarget)
  have hfewer := Graph.length_unmarked_lt htarget hstart.start
  have hspread := body.graph.spread_rule (P := body.graph.Spreading target)
    (fun node line marked hsize hspread => hspread.step hsize)
    body.graph.size [target] _ ((Graph.size_noted _ _).trans hsize)
    (by rw [List.length_singleton]; omega) hstart
  rw [Body.size_graph] at hspread
  exact ⟨rfl, hspread.marked_iff block⟩

theorem exists_retarget (marks : Marks) (htarget : target < body.blocks.size) :
    ∃ marks', marks.retarget body target = .ok marks' := by
  obtain ⟨content, hcontent⟩ := Body.exists_content htarget
  rw [retarget, Body.block_eq_ok.mpr hcontent]
  exact ⟨_, rfl⟩

/-- The marks for a target do not depend on what was marked before. -/
theorem retarget_eq_mark (marks : Marks) (body : Body) (target : BlockId) :
    marks.retarget body target = mark body target := rfl

/-- What a buffer of marks is used for. -/
inductive Use
  | retarget (body : Body) (target : BlockId)
  | clear
deriving DecidableEq, Repr

/-- The buffer after it has been used.  For a target that does not exist it
has been made ready, and nothing has been marked. -/
def use (marks : Marks) : Use → Marks
  | .retarget body target =>
      match marks.retarget body target with
      | .ok marks => marks
      | .error _ => marks.prepare body target
  | .clear => marks.clear

def useAll (marks : Marks) (uses : List Use) : Marks :=
  uses.foldl use marks

/-- After any use of any buffer, the marks for a target are those that a new
buffer would hold, and exactly the blocks that lead to the target are
marked. -/
theorem retarget_exact_after_uses (start : Marks) (uses : List Use)
    (htarget : target < body.blocks.size) :
    ∃ marks, (start.useAll uses).retarget body target = .ok marks ∧
      mark body target = .ok marks ∧ marks.target = some target ∧
      ∀ block,
        (marks.isMarked block = true ↔ body.graph.Reaches block target) := by
  obtain ⟨marks, hmarks⟩ := exists_retarget (start.useAll uses) htarget
  refine ⟨marks, hmarks, ?_, (retarget_isMarked hmarks target).1, ?_⟩
  · rw [← retarget_eq_mark (start.useAll uses), hmarks]
  · exact fun block => (retarget_isMarked hmarks block).2

/-- A block goes back to the entry, on to a return, or throws into a handler
that returns too. -/
def throwingLoop : List Draft.Command :=
  [.block, .block, .block, .block,
    .value 0 (.argument 0) (.primitive .int), .push 0 (.goto 1),
    .push 1 (.initClass 0), .push 1 (.branch .eq 0 none 0 2),
    .handler 1 ⟨none, 3⟩, .push 2 (.ret none), .push 3 (.ret none)]

theorem throwingLoop_marked_after_uses : ∃ given draft body marks,
    Draft.run { method := 0, isStatic := true } throwingLoop =
        .ok (given, draft) ∧
      draft.build = .ok body ∧
      (({} : Marks).useAll [.retarget body 2, .retarget body 9]).retarget body 3 =
        .ok marks ∧
      marks.target = some 3 ∧ marks.isMarked 0 = true ∧
      marks.isMarked 2 = false := by
  have hbuilt : ∃ given draft body,
      Draft.run { method := 0, isStatic := true } throwingLoop =
          .ok (given, draft) ∧
        draft.build = .ok body ∧ body.graph = ⟨#[[1], [0, 2, 3], [], []]⟩ :=
    ⟨_, _, _, rfl, rfl, rfl⟩
  obtain ⟨given, draft, body, hrun, hbuild, hgraph⟩ := hbuilt
  have htarget : 3 < body.blocks.size := by
    rw [← Body.size_graph, hgraph]
    decide
  obtain ⟨marks, hmarks, _, hmarkedFor, hmarked⟩ := retarget_exact_after_uses {}
    [.retarget body 2, .retarget body 9] htarget
  refine ⟨given, draft, body, marks, hrun, hbuild, hmarks, hmarkedFor, ?_, ?_⟩
  · rw [hmarked, hgraph]
    exact ⟨[0, 1, 3], .step (by decide) (.step (by decide) (.single 3))⟩
  · rw [← Bool.not_eq_true, hmarked, hgraph]
    rintro ⟨path, hpath⟩
    cases hpath with
    | step hedge => simp [Graph.next] at hedge

end Marks

end FlowFacts
