/-
What the lists beside a body hold once they are filled.  A value lists its
readers and the phis over it in ascending order, each once, and a block lists
the blocks that lead to it as the graph of the body has them.
-/
import Mathlib.Data.List.Basic
import FlowFacts.Body.Draft
import FlowFacts.Flow.Graph

namespace FlowFacts

@[simp] theorem mem_noteOnce {numbers : List Nat} {number other : Nat} :
    other ∈ noteOnce numbers number ↔ other ∈ numbers ∨ other = number := by
  by_cases hmem : number ∈ numbers
  · simp only [noteOnce, List.contains_iff_mem, hmem, ↓reduceIte, iff_self_or]
    rintro rfl
    exact hmem
  · simp [noteOnce, hmem]

@[simp] theorem noteOnce_noteOnce (numbers : List Nat) (number : Nat) :
    noteOnce (noteOnce numbers number) number = noteOnce numbers number := by
  by_cases hmem : number ∈ numbers <;> simp [noteOnce, hmem]

theorem nodup_noteOnce {numbers : List Nat} (hnodup : numbers.Nodup)
    (number : Nat) : (noteOnce numbers number).Nodup := by
  by_cases hmem : number ∈ numbers
  · simpa [noteOnce, hmem] using hnodup
  · simpa [noteOnce, hmem, List.nodup_append] using ⟨hnodup, fun _ hother =>
      ne_of_mem_of_not_mem hother hmem⟩

/-- Numbers that are new to a list are appended in order. -/
theorem foldl_noteOnce {numbers more : List Nat}
    (hnodup : (numbers ++ more).Nodup) :
    more.foldl noteOnce numbers = numbers ++ more := by
  induction more generalizing numbers with
  | nil => simp
  | cons number rest ih =>
      have hfresh : number ∉ numbers := fun hmem =>
        (List.nodup_append.mp hnodup).2.2 number hmem number List.mem_cons_self rfl
      have hnote : noteOnce numbers number = numbers ++ [number] := by
        simp [noteOnce, hfresh]
      rw [List.foldl_cons, hnote, ih (by simpa using hnodup)]
      simp

theorem Value.foldl_addUser (value : Value) (instrs : List InstrId) :
    instrs.foldl Value.addUser value =
      { value with users := instrs.foldl noteOnce value.users } := by
  induction instrs generalizing value with
  | nil => rfl
  | cons instr rest ih => exact ih (value.addUser instr)

theorem Value.foldl_addPhiUser (value : Value) (phis : List ValueId) :
    phis.foldl Value.addPhiUser value =
      { value with phiUsers := phis.foldl noteOnce value.phiUsers } := by
  induction phis generalizing value with
  | nil => rfl
  | cons phi rest ih => exact ih (value.addPhiUser phi)

@[simp] theorem size_changeAt (change : Value → Value) (places : List ValueId)
    (values : Array Value) : (changeAt change places values).size = values.size := by
  induction places generalizing values with
  | nil => rfl
  | cons place rest ih =>
      rw [changeAt, List.foldl_cons]
      exact (ih _).trans Array.size_modify

/-- A change that has no further effect when it is repeated can be made at
several places in any order. -/
theorem getElem?_changeAt {change : Value → Value}
    (hrepeat : ∀ value, change (change value) = change value)
    (places : List ValueId) (values : Array Value) (value : ValueId) :
    (changeAt change places values)[value]? =
      if value ∈ places then values[value]?.map change else values[value]? := by
  induction places generalizing values with
  | nil => simp [changeAt]
  | cons place rest ih =>
      have hrest := ih (values.modify place change)
      rw [changeAt] at hrest ⊢
      rw [List.foldl_cons, hrest, Array.getElem?_modify]
      by_cases hplace : place = value
      · subst hplace
        simp [Function.comp_def, hrepeat]
      · simp [hplace, Ne.symm hplace]

/-- When numbers are noted one after another, each at its own places, a value
gets the numbers that are noted at its place. -/
theorem getElem?_foldl_changeAt {note : Value → Nat → Value}
    (hrepeat : ∀ value number, note (note value number) number = note value number)
    (places : Nat → List ValueId) (numbers : List Nat) (values : Array Value)
    (value : ValueId) :
    (numbers.foldl (fun values number =>
      changeAt (note · number) (places number) values) values)[value]? =
      values[value]?.map
        ((numbers.filter fun number => value ∈ places number).foldl note) := by
  induction numbers generalizing values with
  | nil => simp
  | cons number rest ih =>
      rw [List.foldl_cons, ih, getElem?_changeAt (hrepeat · number),
        List.filter_cons]
      by_cases hplace : value ∈ places number
      · simp [hplace, Function.comp_def]
      · simp [hplace]

/-- Positions that are noted one after another: what all agree on for an
instruction is noted for it. -/
theorem getElem?_foldl_setIfInBounds {places : List (InstrId × Nat)}
    {positions : Array Nat} {instr : InstrId} {position : Nat}
    (hagree : ∀ place ∈ places, place.1 = instr → place.2 = position)
    (hnoted : positions[instr]? = some position ∨
      instr < positions.size ∧ ∃ place ∈ places, place.1 = instr) :
    (places.foldl (fun positions place =>
      positions.setIfInBounds place.1 place.2) positions)[instr]? =
        some position := by
  induction places generalizing positions with
  | nil => exact hnoted.resolve_right (by simp)
  | cons place rest ih =>
      rw [List.forall_mem_cons] at hagree
      refine ih hagree.2 ?_
      by_cases hplace : place.1 = instr
      · have hlt : instr < positions.size :=
          hnoted.elim (fun h => (Array.getElem?_eq_some_iff.mp h).1) And.left
        left
        rw [← hplace, Array.getElem?_setIfInBounds_self_of_lt (hplace ▸ hlt),
          hagree.1 hplace]
      · rw [Array.getElem?_setIfInBounds_ne hplace, Array.size_setIfInBounds]
        simpa [hplace] using hnoted

/-- Noting a source with distinct targets appends it to the list of each. -/
theorem getElem?_foldl_append {targets : List BlockId}
    (hnodup : targets.Nodup) (source block : BlockId)
    (incoming : Array (List BlockId)) :
    (targets.foldl (fun incoming target =>
      incoming.modify target (· ++ [source])) incoming)[block]? =
      incoming[block]?.map fun sources =>
        if block ∈ targets then sources ++ [source] else sources := by
  induction targets generalizing incoming with
  | nil => simp
  | cons target rest ih =>
      rw [List.nodup_cons] at hnodup
      rw [List.foldl_cons, ih hnodup.2, Array.getElem?_modify]
      by_cases hblock : target = block
      · subst hblock
        simp [hnodup.1, Function.comp_def]
      · simp [hblock, Ne.symm hblock]

theorem Opcode.nodup_targets (opcode : Opcode) : opcode.targets.Nodup := by
  cases opcode with
  | goto target => simp [targets]
  | branch comparison left right whenTrue whenFalse =>
      by_cases hsame : whenTrue = whenFalse <;> simp [targets, hsame]
  | _ => exact List.nodup_nil

namespace Body

variable {body : Body} {block source : BlockId}

theorem nodup_successors (body : Body) (block : BlockId) :
    (body.successors block).Nodup := by
  have hnormal : (body.normalSuccessors block).Nodup := by
    rw [normalSuccessors]
    split
    · exact Opcode.nodup_targets _
    · exact List.nodup_nil
  refine List.nodup_append.mpr ⟨hnormal, firstUnseen_nodup _ _, ?_⟩
  rintro target htarget _ hhandler rfl
  exact (mem_firstUnseen.mp hhandler).2 htarget

@[simp] theorem size_graph (body : Body) :
    body.graph.size = body.blocks.size := by
  simp [graph, Graph.size]

theorem graph_next (hsource : source < body.blocks.size) :
    body.graph.next source = body.successors source := by
  simp [graph, Graph.next, hsource]

/-- Refreshed predecessors are those that the graph of the body has. -/
theorem predecessors_refreshPredecessors (hblock : block < body.blocks.size) :
    body.refreshPredecessors.predecessors block = body.graph.previous block := by
  have hfold : ∀ (sources : List BlockId) (incoming : Array (List BlockId)),
      (sources.foldl (fun incoming source => (body.successors source).foldl
        (fun incoming target => incoming.modify target (· ++ [source])) incoming)
        incoming)[block]? = incoming[block]?.map
          (· ++ sources.filter fun source => block ∈ body.successors source) := by
    intro sources
    induction sources with
    | nil => simp
    | cons source rest ih =>
        intro incoming
        rw [List.foldl_cons, ih,
          getElem?_foldl_append (body.nodup_successors source), List.filter_cons]
        by_cases hedge : block ∈ body.successors source <;>
          simp [hedge, Function.comp_def]
  rw [predecessors, Array.getD_eq_getD_getElem?, refreshPredecessors, hfold]
  simp only [Array.getElem?_replicate, hblock, ↓reduceIte, Option.map_some,
    List.nil_append, Option.getD_some, Graph.previous, size_graph]
  refine List.filter_congr fun source hsource => ?_
  rw [graph_next (List.mem_range.mp hsource), List.contains_eq_mem]

/-- The instructions that read a value, in ascending order. -/
def readers (body : Body) (value : ValueId) : List InstrId :=
  (List.range body.instructions.size).filter fun instr =>
    value ∈ (body.opcode instr).inputs

/-- The phis over a value, in ascending order. -/
def mergers (body : Body) (value : ValueId) : List ValueId :=
  (List.range body.values.size).filter fun phi => value ∈ body.operandsOf phi

theorem mem_readers {value : ValueId} {instr : InstrId} :
    instr ∈ body.readers value ↔ value ∈ (body.opcode instr).inputs := by
  simp only [readers, List.mem_filter, List.mem_range, decide_eq_true_eq,
    and_iff_right_iff_imp]
  intro hread
  by_contra hge
  simp [opcode, Array.getElem?_eq_none (Nat.not_lt.mp hge), Opcode.inputs]
    at hread

theorem mem_mergers {value phi : ValueId} :
    phi ∈ body.mergers value ↔ value ∈ body.operandsOf phi := by
  simp only [mergers, List.mem_filter, List.mem_range, decide_eq_true_eq,
    and_iff_right_iff_imp]
  intro hoperand
  by_contra hge
  simp [operandsOf, Array.getElem?_eq_none (Nat.not_lt.mp hge)] at hoperand

@[simp] theorem size_linkUsers (body : Body) :
    body.linkUsers.values.size = body.values.size := by
  have hfold : ∀ (note : Nat → Value → Value) (places : Nat → List ValueId)
      (numbers : List Nat) (values : Array Value),
      (numbers.foldl (fun values number =>
        changeAt (note number) (places number) values) values).size =
          values.size := by
    intro note places numbers
    induction numbers with
    | nil => exact fun _ => rfl
    | cons number rest ih =>
        intro values
        rw [List.foldl_cons, ih, size_changeAt]
  rw [linkUsers]
  exact (hfold _ _ _ _).trans (hfold _ _ _ _)

/-- Values without users list their readers and the phis over them when they
have been linked. -/
theorem getElem?_linkUsers
    (hempty : ∀ decl ∈ body.values, decl.users = [] ∧ decl.phiUsers = [])
    (value : ValueId) :
    body.linkUsers.values[value]? = body.values[value]?.map fun decl =>
      { decl with
        users := body.readers value
        phiUsers := body.mergers value } := by
  simp only [linkUsers]
  rw [getElem?_foldl_changeAt (fun _ _ => by simp [Value.addPhiUser]),
    getElem?_foldl_changeAt (fun _ _ => by simp [Value.addUser])]
  cases hvalue : body.values[value]? with
  | none => rfl
  | some decl =>
      obtain ⟨husers, hphis⟩ := hempty decl (Array.mem_of_getElem? hvalue)
      have hread : (body.readers value).foldl noteOnce [] = body.readers value :=
        foldl_noteOnce (List.nodup_range.filter _)
      have hmerged : (body.mergers value).foldl noteOnce [] = body.mergers value :=
        foldl_noteOnce (List.nodup_range.filter _)
      simp only [Option.map_some, Value.foldl_addUser, Value.foldl_addPhiUser,
        husers, hphis]
      rw [readers] at hread
      rw [mergers] at hmerged
      rw [hread, hmerged]
      rfl

end Body

namespace Draft

theorem getElem?_toBody_values (draft : Draft) (value : ValueId) :
    draft.toBody.values[value]? = draft.values[value]?.map fun decl =>
      { decl with
        users := draft.parts.readers value
        phiUsers := draft.parts.mergers value } := by
  have hlinked := draft.parts.notePositions.getElem?_linkUsers
    (fun decl hdecl => by
      obtain ⟨_, _, rfl⟩ := Array.mem_map.mp hdecl
      exact ⟨rfl, rfl⟩) value
  have hparts : draft.parts.notePositions.values[value]? =
      draft.values[value]?.map fun decl => { decl with } := by
    simp [Body.notePositions, parts]
  rw [hparts, Option.map_map] at hlinked
  exact hlinked

@[simp] theorem size_toBody_values (draft : Draft) :
    draft.toBody.values.size = draft.values.size := by
  rw [toBody]
  refine draft.parts.notePositions.size_linkUsers.trans ?_
  simp [Body.notePositions, parts]

end Draft

end FlowFacts
