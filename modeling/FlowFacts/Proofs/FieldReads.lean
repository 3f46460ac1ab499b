/-
What instructions and blocks may read.  The fields that can be read one by one
are finitely many, and what is read up to the end of a block grows with what
comes from its predecessors.
-/
import FlowFacts.FieldContents.Reads
import FlowFacts.Proofs.Closures
import FlowFacts.Proofs.Explanations
import FlowFacts.Proofs.FieldSets

namespace FlowFacts

/-- The field that an instruction reads by itself. -/
def Opcode.readField? : Opcode → Option FieldId
  | staticGet field | instanceGet field _ => some field
  | _ => none

namespace ReadState

/-- What has been found to be read up to the end of a block. -/
def found (state : ReadState) (block : BlockId) : FieldSet :=
  state.sets.getD block .empty

def store (state : ReadState) (block : BlockId) (set : FieldSet) : ReadState where
  sets := state.sets.setIfInBounds block set
  entered := block :: state.entered

theorem found_store {state : ReadState} {block : BlockId}
    (hblock : block < state.sets.size) (set : FieldSet) (other : BlockId) :
    (state.store block set).found other =
      if other = block then set else state.found other :=
  getD_setIfInBounds hblock set .empty other

end ReadState

namespace Body

variable {body : Body} {program : Program} {state : ReadState}
variable {block : BlockId} {content : Block} {instr : InstrId}
variable {instructions : List InstrId} {field : FieldId} {set result : FieldSet}

/-- May the instruction read the field, in the code it runs included? -/
def MayRead (body : Body) (program : Program) (instr : InstrId)
    (field : FieldId) : Prop :=
  ∃ set, body.reads program instr = .ok set ∧ set.contains field = true

/-- The fields that can be read one by one: by an instruction itself, or by a
method whose reads are known. -/
def readFields (body : Body) (program : Program) : List FieldId :=
  (body.instructions.toList.filterMap fun instruction =>
    instruction.opcode.readField?) ++
  program.methods.toList.flatMap fun method => method.facts.reads.getD []

theorem length_readFields_le (body : Body) (program : Program) :
    (body.readFields program).length ≤ body.readableFields program := by
  rw [readFields, List.length_append, readableFields]
  apply Nat.add_le_add_right
  rw [← Array.length_toList]
  exact List.length_filterMap_le _ _

theorem mem_readFields (hread : (body.opcode instr).readField? = some field) :
    field ∈ body.readFields program := by
  rw [opcode] at hread
  split at hread
  · next instruction hfound =>
      apply List.mem_append_left
      apply List.mem_filterMap.mpr
      exact ⟨instruction, (Array.mem_of_getElem? hfound).val, hread⟩
  · cases hread

theorem within_ofReads {method : MethodId} {definition : MethodDecl}
    (hmethod : program.method method = .ok definition) :
    (FieldSet.ofReads definition.facts.reads).Within
      (body.readFields program) := by
  rw [Program.method] at hmethod
  split at hmethod
  · next found hfound =>
      obtain rfl := Except.ok.inj hmethod
      cases hreads : found.facts.reads with
      | none => trivial
      | some fields =>
          apply FieldSet.within_ofList
          intro field hfield
          apply List.mem_append_right
          apply List.mem_flatMap.mpr
          exact ⟨found, (Array.mem_of_getElem? hfound).val, by simpa [hreads]⟩
  · cases hmethod

theorem eq_of_readsOfStart {type : TypeId}
    (hreads : body.readsOfStart program type set = .ok result) :
    result = .any ∨ result = set := by
  obtain ⟨starts, _, hrest⟩ := exists_of_bind hreads
  split at hrest
  · exact Or.inl (Except.ok.inj hrest).symm
  · exact Or.inr (Except.ok.inj hrest).symm

theorem within_of_readsOfStart {type : TypeId} (known : List FieldId)
    (hset : set.Within known)
    (hreads : body.readsOfStart program type set = .ok result) :
    result.Within known := by
  rcases eq_of_readsOfStart hreads with rfl | rfl
  · trivial
  · exact hset

theorem within_of_reads (hreads : body.reads program instr = .ok set) :
    set.Within (body.readFields program) := by
  have hnone : FieldSet.empty.Within (body.readFields program) := trivial
  rw [reads] at hreads
  split at hreads
  · next field hopcode =>
      obtain ⟨definition, _, hrest⟩ := exists_of_bind hreads
      apply within_of_readsOfStart _ _ hrest
      exact FieldSet.within_singleton (mem_readFields (by rw [hopcode]; rfl))
  · next field object hopcode =>
      obtain rfl := Except.ok.inj hreads
      exact FieldSet.within_singleton (mem_readFields (by rw [hopcode]; rfl))
  · obtain ⟨definition, _, hrest⟩ := exists_of_bind hreads
    exact within_of_readsOfStart _ hnone hrest
  · exact within_of_readsOfStart _ hnone hreads
  · exact within_of_readsOfStart _ hnone hreads
  · split at hreads
    · obtain rfl := Except.ok.inj hreads
      trivial
    · obtain ⟨definition, hmethod, hrest⟩ := exists_of_bind hreads
      have hknown : (FieldSet.ofReads definition.facts.reads).Within
          (body.readFields program) := within_ofReads hmethod
      split at hrest
      · exact within_of_readsOfStart _ hknown hrest
      · obtain rfl := Except.ok.inj hrest
        exact hknown
  · obtain rfl := Except.ok.inj hreads
    trivial

theorem readsOfStart_answers (hcovers : program.Covers body)
    (hroots : program.HasRoots) (type : TypeId) (set : FieldSet) :
    Answers (body.readsOfStart program type set) :=
  .bind (startsObservably_answers hcovers hroots type) fun _ _ =>
    .ite (.pure _) (.pure _)

theorem reads_answers (hcovers : program.Covers body)
    (hroots : program.HasRoots) (instr : InstrId) :
    Answers (body.reads program instr) := by
  have hstart := readsOfStart_answers hcovers hroots
  rw [reads]
  cases hopcode : body.opcode instr with
  | staticGet field =>
      exact .bind (hcovers.read hopcode) fun _ _ => hstart _ _
  | staticPut field value =>
      exact .bind (hcovers.written hopcode) fun _ _ => hstart _ _
  | newInstance type | initClass type => exact hstart type .empty
  | call kind method arguments =>
      dsimp only
      cases hcallee : program.callee? kind method with
      | none => exact .pure _
      | some target =>
          apply Answers.bind (hcovers.callee hopcode hcallee)
          intro definition _
          exact .ite (hstart _ _) (.pure _)
  | _ => exact .pure _

theorem addReads_cons_cases
    (hreads : body.addReads program (instr :: instructions) set = .ok result) :
    ∃ own, body.reads program instr = .ok own ∧
      (((set.join own).isAny = true ∧ result = set.join own) ∨
        body.addReads program instructions (set.join own) = .ok result) := by
  obtain ⟨own, hown, hrest⟩ := exists_of_bind hreads
  refine ⟨own, hown, ?_⟩
  dsimp only at hrest
  split at hrest
  · next hany => exact Or.inl ⟨hany, (Except.ok.inj hrest).symm⟩
  · exact Or.inr hrest

theorem contains_addReads
    (hreads : body.addReads program instructions set = .ok result) :
    result.contains field = true ↔ set.contains field = true ∨
      ∃ instr ∈ instructions, body.MayRead program instr field := by
  induction instructions generalizing set with
  | nil =>
      obtain rfl := Except.ok.inj hreads
      simp
  | cons instr rest ih =>
      obtain ⟨own, hown, hcases⟩ := addReads_cons_cases hreads
      have hinstr : body.MayRead program instr field ↔
          own.contains field = true := by
        simp [MayRead, hown]
      simp only [List.mem_cons, exists_eq_or_imp, hinstr, ← or_assoc,
        ← FieldSet.contains_join]
      rcases hcases with ⟨hany, rfl⟩ | hrest
      · -- the rest is not looked at, and cannot add anything
        simp [FieldSet.contains_of_isAny hany]
      · exact ih hrest

theorem grows_addReads (hset : set.Within (body.readFields program))
    (hreads : body.addReads program instructions set = .ok result) :
    FieldSet.Grows (body.readFields program) set result := by
  induction instructions generalizing set with
  | nil =>
      obtain rfl := Except.ok.inj hreads
      exact .refl hset
  | cons instr rest ih =>
      obtain ⟨own, hown, hcases⟩ := addReads_cons_cases hreads
      have hjoin := FieldSet.Grows.join hset (within_of_reads hown)
      rcases hcases with ⟨_, rfl⟩ | hrest
      · exact hjoin
      · exact hjoin.trans (ih hjoin.within hrest)

theorem addReads_answers
    (hreads : ∀ instr ∈ instructions, Answers (body.reads program instr))
    (set : FieldSet) : Answers (body.addReads program instructions set) := by
  induction instructions generalizing set with
  | nil => exact .ok set
  | cons instr rest ih =>
      obtain ⟨hinstr, hrest⟩ := List.forall_mem_cons.mp hreads
      apply Answers.bind hinstr
      intro own _
      exact .ite (.pure _) (ih hrest _)

/-- What is read up to the end of a block is what was found before, what comes
from a predecessor, and what the block reads when it is entered. -/
theorem contains_readsUpTo
    (hset : body.readsUpTo program body.graph state block content = .ok set) :
    set.contains field = true ↔ (state.found block).contains field = true ∨
      (∃ source, block ∈ body.graph.next source ∧
        (state.found source).contains field = true) ∨
      (block ∉ state.entered ∧ ∃ instr ∈ content.instructions,
        body.MayRead program instr field) := by
  simp only [← Graph.mem_previous, ← or_assoc, ← FieldSet.contains_foldl_join]
  rw [readsUpTo] at hset
  split at hset
  · next hdone =>
      obtain rfl := Except.ok.inj hset
      rcases Bool.or_eq_true_iff.mp hdone with hentered | hany
      · simp [List.contains_iff_mem.mp hentered, ReadState.found]
      · have hall := FieldSet.contains_of_isAny hany field
        simp only [ReadState.found, hall, true_or]
  · next hdone =>
      have hfresh : block ∉ state.entered := by
        intro hentered
        simp [hentered] at hdone
      rw [contains_addReads hset]
      simp only [hfresh, not_false_eq_true, true_and]
      rfl

theorem contains_of_edge {source : BlockId}
    (hset : body.readsUpTo program body.graph state block content = .ok set)
    (hedge : block ∈ body.graph.next source)
    (hread : (state.found source).contains field = true) :
    set.contains field = true :=
  (contains_readsUpTo hset).mpr (Or.inr (Or.inl ⟨source, hedge, hread⟩))

theorem grows_readsUpTo
    (hwithin : ∀ block, (state.found block).Within (body.readFields program))
    (hset : body.readsUpTo program body.graph state block content = .ok set) :
    FieldSet.Grows (body.readFields program) (state.found block) set := by
  have hjoin : FieldSet.Grows (body.readFields program) (state.found block)
      ((body.graph.previous block).foldl
        (fun set source => set.join (state.found source))
        (state.found block)) :=
    .foldl_join (hwithin block) hwithin
  rw [readsUpTo] at hset
  split at hset
  · obtain rfl := Except.ok.inj hset
    exact hjoin
  · exact hjoin.trans (grows_addReads hjoin.within hset)

/-- Where any field may be read already, nothing can be added. -/
theorem readsUpTo_of_isAny (hany : (state.found block).isAny = true)
    (content : Block) :
    body.readsUpTo program body.graph state block content =
      .ok (state.found block) := by
  have hjoin := FieldSet.foldl_join_of_isAny hany (body.graph.previous block)
    state.found
  simp only [ReadState.found] at hany hjoin
  simp only [readsUpTo, hjoin, hany, Bool.or_true, if_true]
  rfl

theorem readsUpTo_answers (hcontent : body.blocks[block]? = some content)
    (hreads : ∀ instr ∈ body.instructionsOf block,
      Answers (body.reads program instr)) :
    Answers (body.readsUpTo program body.graph state block content) := by
  rw [instructionsOf_eq hcontent] at hreads
  exact .ite (.ok _) (addReads_answers hreads _)

end Body

end FlowFacts
