/-
All names of a value.  Instructions that rename a value are among its users
and define values of the body, so as many rounds as there are values find
every name, and nothing else.
-/
import FlowFacts.Independence.Watch
import FlowFacts.Proofs.Closures
import FlowFacts.Proofs.Edits

namespace FlowFacts

namespace Draft

variable {draft next : Draft}

/-- Every value that an instruction defines has been declared. -/
def OutputsDeclared (draft : Draft) : Prop :=
  ∀ instruction ∈ draft.instructions, ∀ value,
    instruction.output = some value → value < draft.values.size

theorem OutputsDeclared.mono (hdraft : draft.OutputsDeclared)
    (hinstructions : next.instructions = draft.instructions)
    (hsize : draft.values.size ≤ next.values.size) : next.OutputsDeclared := by
  intro instruction hmem value hvalue
  exact Nat.lt_of_lt_of_le
    (hdraft instruction (hinstructions ▸ hmem) value hvalue) hsize

theorem OutputsDeclared.push (hdraft : draft.OutputsDeclared)
    {instruction : Instruction}
    (hinstructions : next.instructions = draft.instructions.push instruction)
    (hsize : draft.values.size ≤ next.values.size)
    (houtput : ∀ value, instruction.output = some value →
      value < next.values.size) : next.OutputsDeclared := by
  intro other hmem value hvalue
  rw [hinstructions] at hmem
  rcases Array.mem_push.mp hmem with hold | rfl
  · exact Nat.lt_of_lt_of_le (hdraft other hold value hvalue) hsize
  · exact houtput value hvalue

theorem step_outputs {command : Command} {given : Option Nat}
    (hstep : draft.step command = .ok (given, next))
    (hdraft : draft.OutputsDeclared) : next.OutputsDeclared := by
  cases command with
  | block =>
      obtain ⟨_, rfl⟩ := Prod.mk.inj (Except.ok.inj hstep)
      exact hdraft
  | push block opcode =>
      obtain ⟨appended, happend, hresult⟩ := exists_of_bind hstep
      obtain ⟨_, rfl⟩ := Prod.mk.inj (Except.ok.inj hresult)
      obtain ⟨_, rfl⟩ := updateBlock_eq_ok.mp happend
      exact hdraft.push rfl (Nat.le_refl _) (by simp)
  | value block opcode type =>
      obtain ⟨appended, happend, hresult⟩ := exists_of_bind hstep
      obtain ⟨_, rfl⟩ := Prod.mk.inj (Except.ok.inj hresult)
      obtain ⟨_, rfl⟩ := updateBlock_eq_ok.mp happend
      exact hdraft.push rfl (by simp) (by simp)
  | phi block type =>
      obtain ⟨updated, hupdate, hresult⟩ := exists_of_bind hstep
      obtain ⟨_, rfl⟩ := Prod.mk.inj (Except.ok.inj hresult)
      obtain ⟨_, rfl⟩ := updateBlock_eq_ok.mp hupdate
      exact hdraft.mono rfl (by simp)
  | operands phi operands =>
      simp only [step] at hstep
      split at hstep
      · cases hstep
      · split at hstep
        · cases hstep
        · obtain ⟨_, rfl⟩ := Prod.mk.inj (Except.ok.inj hstep)
          exact hdraft.mono rfl (by simp)
  | handler block handler =>
      obtain ⟨updated, hupdate, hresult⟩ := exists_of_bind hstep
      obtain ⟨_, rfl⟩ := Prod.mk.inj (Except.ok.inj hresult)
      obtain ⟨_, rfl⟩ := updateBlock_eq_ok.mp hupdate
      exact hdraft

end Draft

namespace Body

variable {body : Body} {value name : ValueId} {instr : InstrId}

theorem Accepted.output_lt (haccepted : body.Accepted)
    (houtput : body.output? instr = some value) : value < body.values.size := by
  obtain ⟨method, isStatic, commands, given, draft, hrun, hbuild⟩ := haccepted
  have hdraft : draft.OutputsDeclared := by
    apply Draft.run_induct Draft.step_outputs hrun
    intro instruction hmem
    simp at hmem
  rw [Draft.build] at hbuild
  split at hbuild
  · cases hbuild
  · obtain rfl := Except.ok.inj hbuild
    obtain ⟨instruction, hfound, hvalue⟩ := Option.bind_eq_some_iff.mp houtput
    have hlt := hdraft instruction (Array.mem_of_getElem? hfound) value hvalue
    rwa [Draft.size_toBody_values]

theorem lt_size_of_definition? (hdefinition : body.definition? value = some instr) :
    value < body.values.size := by
  obtain ⟨content, hcontent, _⟩ := Option.bind_eq_some_iff.mp hdefinition
  exact (Array.getElem?_eq_some_iff.mp hcontent).1

/-- The values that are a value under another name, or the value itself. -/
inductive Names (body : Body) (value : ValueId) : ValueId → Prop
  | self : Names body value value
  | renamed {name other : ValueId} {instr : InstrId}
      (hname : Names body value name)
      (halias : (body.opcode instr).isAlias = true)
      (hreads : name ∈ (body.opcode instr).inputs)
      (houtput : body.output? instr = some other) : Names body value other

theorem mem_renamings (hbody : body.Indexed) {other : ValueId} :
    other ∈ body.renamings name ↔ ∃ instr, (body.opcode instr).isAlias = true ∧
      name ∈ (body.opcode instr).inputs ∧ body.output? instr = some other := by
  simp only [renamings, List.mem_filterMap, hbody.mem_users]
  refine exists_congr fun instr => ?_
  cases body.opcode instr <;> simp [Opcode.isAlias]

/-- Every name of a value is found. -/
theorem Names.mem_aliases (hname : body.Names value name)
    (haccepted : body.Accepted) (hvalue : value < body.values.size) :
    name ∈ body.aliases value := by
  have hindexed := haccepted.indexed.1
  have hsteps : ∃ steps, Steps body.renamings steps value name := by
    induction hname with
    | self => exact ⟨0, .refl value⟩
    | renamed _ halias hreads houtput ih =>
        obtain ⟨steps, hsteps⟩ := ih
        exact ⟨steps + 1, hsteps.append_step
          ((mem_renamings hindexed).mpr ⟨_, halias, hreads, houtput⟩)⟩
  have hclosed : ∀ name < body.values.size, ∀ other ∈ body.renamings name,
      other < body.values.size := by
    intro name _ other hother
    obtain ⟨instr, _, _, houtput⟩ := (mem_renamings hindexed).mp hother
    exact haccepted.output_lt houtput
  obtain ⟨steps, hsteps⟩ := hsteps
  obtain ⟨fewer, hle, hfewer⟩ := hsteps.exists_le hclosed hvalue
  rw [aliases, mem_closure]
  exact ⟨value, List.mem_singleton_self value, fewer, hle, hfewer⟩

/-- Nothing else is found than the names of a value. -/
theorem names_of_mem_aliases (hbody : body.Indexed)
    (hname : name ∈ body.aliases value) : body.Names value name := by
  rw [aliases, mem_closure] at hname
  obtain ⟨start, hstart, steps, _, hsteps⟩ := hname
  obtain rfl := List.mem_singleton.mp hstart
  have honward : ∀ {steps first last}, Steps body.renamings steps first last →
      body.Names start first → body.Names start last := by
    intro steps first last hsteps hfirst
    induction hsteps with
    | refl => exact hfirst
    | step hstep _ ih =>
        obtain ⟨instr, halias, hreads, houtput⟩ := (mem_renamings hbody).mp hstep
        exact ih (.renamed hfirst halias hreads houtput)
  exact honward hsteps .self

end Body

end FlowFacts
