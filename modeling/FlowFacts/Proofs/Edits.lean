/-
Editing keeps what a body says about itself right.  Every value lists the
instructions that read it, each of them once; every instruction stands in one
block at one place; and the revision counts the edits.
-/
import FlowFacts.Body.Edit
import FlowFacts.Proofs.Accepted

namespace FlowFacts

/-- A change of a finished body. -/
inductive Edit
  | replace (instr : InstrId) (opcode : Opcode)
  | addHandler (block : BlockId) (handler : Handler)
deriving DecidableEq, Repr

/-- What the edit changes is in the body, and so are the values it reads. -/
def Edit.Fits (body : Body) : Edit → Prop
  | replace instr opcode => instr < body.instructions.size ∧
      ∀ input ∈ opcode.inputs, input < body.values.size
  | addHandler block _ => block < body.blocks.size

theorem Value.dropUser_dropUser (value : Value) (instr : InstrId) :
    (value.dropUser instr).dropUser instr = value.dropUser instr := by
  simp [dropUser]

theorem Value.addUser_addUser (value : Value) (instr : InstrId) :
    (value.addUser instr).addUser instr = value.addUser instr := by
  simp [addUser]

namespace Body

variable {body next : Body} {instr : InstrId} {opcode : Opcode}

def edit (body : Body) : Edit → Except Fault Body
  | .replace instr opcode => body.replace instr opcode
  | .addHandler block handler => body.addHandler block handler

def editAll (body : Body) (edits : List Edit) : Except Fault Body :=
  edits.foldlM edit body

/-- The values once an instruction reads `new` in the place of `old`. -/
def relinked (body : Body) (instr : InstrId) (old new : List ValueId) :
    Array Value :=
  changeAt (·.addUser instr) new (changeAt (·.dropUser instr) old body.values)

theorem replace_eq_ok : body.replace instr opcode = .ok next ↔
    ∃ old, body.instructions[instr]? = some old ∧
      (∀ input ∈ opcode.inputs, input < body.values.size) ∧
      next = { body with
        values := body.relinked instr old.opcode.inputs opcode.inputs
        instructions := body.instructions.setIfInBounds instr { old with opcode }
        revision := body.revision + 1 }.refreshPredecessors := by
  have hfind : (opcode.inputs.find? fun input => body.values.size ≤ input) =
      none ↔ ∀ input ∈ opcode.inputs, input < body.values.size := by
    simp [List.find?_eq_none]
  constructor
  · intro hreplace
    obtain ⟨old, hold, hreplace⟩ := exists_of_bind hreplace
    split at hreplace
    · cases hreplace
    · next hnone =>
        exact ⟨old, instruction_eq_ok.mp hold, hfind.mp hnone,
          (Except.ok.inj hreplace).symm⟩
  · rintro ⟨old, hold, hinputs, rfl⟩
    simp only [replace, instruction_eq_ok.mpr hold, hfind.mpr hinputs]
    rfl

theorem addHandler_eq_ok {block : BlockId} {handler : Handler} :
    body.addHandler block handler = .ok next ↔
      ∃ old, body.blocks[block]? = some old ∧
        next = { body with
          blocks := body.blocks.setIfInBounds block
            { old with handlers := old.handlers ++ [handler] }
          revision := body.revision + 1 }.refreshPredecessors := by
  constructor
  · intro hadd
    obtain ⟨old, hold, hadd⟩ := exists_of_bind hadd
    exact ⟨old, block_eq_ok.mp hold, (Except.ok.inj hadd).symm⟩
  · rintro ⟨old, hold, rfl⟩
    simp only [addHandler, block_eq_ok.mpr hold]
    rfl

theorem users_eq {value : ValueId} {decl : Value}
    (hdecl : body.values[value]? = some decl) :
    body.users value = decl.users := by
  rw [users, hdecl]

theorem lt_size_of_mem_users {value : ValueId}
    (hinstr : instr ∈ body.users value) : value < body.values.size := by
  by_contra hge
  simp [users, Array.getElem?_eq_none (Nat.not_lt.mp hge)] at hinstr

theorem opcode_of_setIfInBounds {old : Instruction}
    (hold : body.instructions[instr]? = some old)
    (hnext : next.instructions =
      body.instructions.setIfInBounds instr { old with opcode })
    (other : InstrId) :
    next.opcode other = if other = instr then opcode else body.opcode other := by
  have hlt := (Array.getElem?_eq_some_iff.mp hold).1
  by_cases hother : other = instr
  · subst hother
    simp [Body.opcode, hnext, hlt]
  · simp [Body.opcode, hnext, Array.getElem?_setIfInBounds_ne (Ne.symm hother),
      hother]

theorem exists_of_relinked {old new : List ValueId} {value : ValueId}
    {decl : Value}
    (hdecl : (body.relinked instr old new)[value]? = some decl) :
    ∃ before dropped, body.values[value]? = some before ∧
      dropped = (if value ∈ old then before.dropUser instr else before) ∧
      decl = if value ∈ new then dropped.addUser instr else dropped := by
  rw [relinked, getElem?_changeAt (Value.addUser_addUser · instr),
    getElem?_changeAt (Value.dropUser_dropUser · instr)] at hdecl
  cases hvalue : body.values[value]? with
  | none => simp [hvalue] at hdecl
  | some before =>
      refine ⟨before, _, rfl, rfl, ?_⟩
      simp only [hvalue, Option.map_some] at hdecl
      split_ifs at hdecl ⊢ <;> exact (Option.some.inj hdecl).symm

theorem mem_users_relinked {old new : List ValueId} {value : ValueId}
    {decl : Value} {other : InstrId}
    (hdecl : (body.relinked instr old new)[value]? = some decl) :
    other ∈ decl.users ↔
      (other ∈ body.users value ∧ (value ∈ old → other ≠ instr)) ∨
        (other = instr ∧ value ∈ new) := by
  obtain ⟨before, dropped, hbefore, rfl, rfl⟩ := exists_of_relinked hdecl
  rw [users_eq hbefore]
  split_ifs with hnew hold hold <;>
    simp [Value.addUser, Value.dropUser, hold, hnew]

theorem nodup_users_relinked {old new : List ValueId} {value : ValueId}
    {decl : Value} (hnodup : (body.users value).Nodup)
    (hdecl : (body.relinked instr old new)[value]? = some decl) :
    decl.users.Nodup := by
  obtain ⟨before, dropped, hbefore, hdropped, rfl⟩ := exists_of_relinked hdecl
  rw [users_eq hbefore] at hnodup
  have hnodup : dropped.users.Nodup := by
    rw [hdropped]
    split
    · exact hnodup.filter _
    · exact hnodup
  split
  · exact nodup_noteOnce hnodup instr
  · exact hnodup

/-- Of a value, only the list of its readers changes. -/
theorem map_relinked {α : Type} {part : Value → α}
    (hpart : ∀ value users, part { value with users } = part value)
    (old new : List ValueId) (value : ValueId) :
    (body.relinked instr old new)[value]?.map part =
      body.values[value]?.map part := by
  rw [relinked, getElem?_changeAt (Value.addUser_addUser · instr),
    getElem?_changeAt (Value.dropUser_dropUser · instr)]
  cases body.values[value]? with
  | none => simp
  | some decl =>
      split_ifs <;> simp [Value.addUser, Value.dropUser, hpart]

/-- The lists that the body keeps beside its values, instructions and blocks
are right. -/
structure Indexed (body : Body) : Prop where
  arranged : Arranged body.instructions body.blocks
  users_nodup : ∀ value, (body.users value).Nodup
  mem_users : ∀ {value : ValueId} {instr : InstrId},
    instr ∈ body.users value ↔ value ∈ (body.opcode instr).inputs
  phiUsers_nodup : ∀ value, (body.phiUsers value).Nodup
  mem_phiUsers : ∀ {value phi : ValueId},
    phi ∈ body.phiUsers value ↔ value ∈ body.operandsOf phi
  position_eq : ∀ {instr : InstrId},
    instr ∈ body.instructionsOf (body.blockOf instr) → body.position instr =
      (body.instructionsOf (body.blockOf instr)).idxOf instr
  predecessors_eq : ∀ {block : BlockId}, block < body.blocks.size →
    body.predecessors block = body.graph.previous block

theorem operandsOf_eq_map (body : Body) (value : ValueId) :
    body.operandsOf value =
      (body.values[value]?.map fun decl => decl.definition.operands).getD [] := by
  rw [operandsOf]
  cases body.values[value]? <;> rfl

theorem phiUsers_eq_map (body : Body) (value : ValueId) :
    body.phiUsers value = (body.values[value]?.map Value.phiUsers).getD [] := by
  rw [phiUsers]
  cases body.values[value]? <;> rfl

theorem blockOf_eq_map (body : Body) (instr : InstrId) :
    body.blockOf instr =
      (body.instructions[instr]?.map Instruction.block).getD Body.entry := by
  rw [blockOf]
  cases body.instructions[instr]? <;> rfl

theorem instructionsOf_eq_map (body : Body) (block : BlockId) :
    body.instructionsOf block =
      (body.blocks[block]?.map Block.instructions).getD [] := by
  rw [instructionsOf]
  cases body.blocks[block]? <;> rfl

/-- Positions stay right as long as every instruction keeps its place. -/
theorem Indexed.position_congr (hbody : body.Indexed)
    (hpositions : next.positions = body.positions)
    (hplaces : ∀ instr : InstrId,
      (next.instructions[instr]?).map Instruction.block =
        (body.instructions[instr]?).map Instruction.block)
    (hlists : ∀ block : BlockId, (next.blocks[block]?).map Block.instructions =
      (body.blocks[block]?).map Block.instructions)
    (hinstr : instr ∈ next.instructionsOf (next.blockOf instr)) :
    next.position instr =
      (next.instructionsOf (next.blockOf instr)).idxOf instr := by
  rw [position, hpositions]
  simp only [instructionsOf_eq_map next, blockOf_eq_map next, hplaces, hlists]
    at hinstr ⊢
  rw [← blockOf_eq_map, ← instructionsOf_eq_map] at hinstr ⊢
  exact hbody.position_eq hinstr

theorem Indexed.replace (hbody : body.Indexed)
    (hreplace : body.replace instr opcode = .ok next) : next.Indexed := by
  obtain ⟨old, hold, hinputs, hnext⟩ := replace_eq_ok.mp hreplace
  have hlt := (Array.getElem?_eq_some_iff.mp hold).1
  have hopcode : body.opcode instr = old.opcode := by rw [Body.opcode, hold]
  have hinstructions : next.instructions =
      body.instructions.setIfInBounds instr { old with opcode } := by
    rw [hnext]
    rfl
  have hvalues : next.values =
      body.relinked instr old.opcode.inputs opcode.inputs := by
    rw [hnext]
    rfl
  have hplaces : ∀ other : InstrId,
      (next.instructions[other]?).map Instruction.block =
        (body.instructions[other]?).map Instruction.block := by
    intro other
    rw [hinstructions]
    by_cases hother : instr = other
    · subst hother
      rw [Array.getElem?_setIfInBounds_self_of_lt hlt, hold]
      rfl
    · rw [Array.getElem?_setIfInBounds_ne hother]
  have hlists : ∀ block : BlockId, (next.blocks[block]?).map Block.instructions =
      (body.blocks[block]?).map Block.instructions := by
    rw [hnext]
    exact fun _ => rfl
  have hphis : ∀ value, next.phiUsers value = body.phiUsers value := by
    intro value
    rw [phiUsers_eq_map, phiUsers_eq_map, hvalues, map_relinked fun _ _ => rfl]
  refine ⟨hbody.arranged.congr hplaces hlists, ?_, ?_, ?_, ?_,
    hbody.position_congr (by rw [hnext]; rfl) hplaces hlists, ?_⟩
  · intro value
    rw [users, hvalues]
    split
    · next decl hdecl =>
        exact nodup_users_relinked (hbody.users_nodup value) hdecl
    · exact List.nodup_nil
  · intro value other
    rw [opcode_of_setIfInBounds hold hinstructions, users, hvalues]
    split
    · next decl hdecl =>
        rw [mem_users_relinked hdecl, hbody.mem_users]
        by_cases hother : other = instr
        · subst hother
          simp [hopcode]
        · simp [hother]
    · next hnone =>
        -- no value, so neither the old nor the new instructions read it
        have hge : body.values.size ≤ value := by
          simpa [relinked] using hnone
        have hunread : value ∉ (body.opcode other).inputs := fun hread =>
          absurd (lt_size_of_mem_users (hbody.mem_users.mpr hread))
            (Nat.not_lt.mpr hge)
        have hunread' : value ∉ opcode.inputs := fun hread =>
          absurd (hinputs value hread) (Nat.not_lt.mpr hge)
        split <;> simp [hunread, hunread']
  · intro value
    rw [hphis]
    exact hbody.phiUsers_nodup value
  · intro value phi
    rw [hphis, hbody.mem_phiUsers, operandsOf_eq_map, operandsOf_eq_map,
      hvalues, map_relinked fun _ _ => rfl]
  · rw [hnext]
    exact predecessors_refreshPredecessors

theorem Indexed.addHandler (hbody : body.Indexed) {block : BlockId}
    {handler : Handler} (hadd : body.addHandler block handler = .ok next) :
    next.Indexed := by
  obtain ⟨old, hold, hnext⟩ := addHandler_eq_ok.mp hadd
  have hlt := (Array.getElem?_eq_some_iff.mp hold).1
  have hlists : ∀ other : BlockId, (next.blocks[other]?).map Block.instructions =
      (body.blocks[other]?).map Block.instructions := by
    intro other
    have hblocks : next.blocks = body.blocks.setIfInBounds block
        { old with handlers := old.handlers ++ [handler] } := by
      rw [hnext]
      rfl
    rw [hblocks]
    by_cases hother : block = other
    · subst hother
      rw [Array.getElem?_setIfInBounds_self_of_lt hlt, hold]
      rfl
    · rw [Array.getElem?_setIfInBounds_ne hother]
  have hplaces : ∀ instr : InstrId,
      (next.instructions[instr]?).map Instruction.block =
        (body.instructions[instr]?).map Instruction.block := by
    rw [hnext]
    exact fun _ => rfl
  refine ⟨hbody.arranged.congr hplaces hlists, ?_, ?_, ?_, ?_,
    hbody.position_congr (by rw [hnext]; rfl) hplaces hlists, ?_⟩
  · rw [hnext]
    exact hbody.users_nodup
  · rw [hnext]
    exact hbody.mem_users
  · rw [hnext]
    exact hbody.phiUsers_nodup
  · rw [hnext]
    exact hbody.mem_phiUsers
  · rw [hnext]
    exact predecessors_refreshPredecessors

theorem Indexed.edit (hbody : body.Indexed) {change : Edit}
    (hedit : body.edit change = .ok next) : next.Indexed := by
  cases change with
  | replace instr opcode => exact hbody.replace hedit
  | addHandler block handler => exact hbody.addHandler hedit

theorem revision_of_edit {change : Edit} (hedit : body.edit change = .ok next) :
    next.revision = body.revision + 1 := by
  cases change with
  | replace instr opcode =>
      obtain ⟨old, _, _, rfl⟩ := replace_eq_ok.mp hedit
      rfl
  | addHandler block handler =>
      obtain ⟨old, _, rfl⟩ := addHandler_eq_ok.mp hedit
      rfl

/-- An edit that fits goes through, and what fits stays the same. -/
theorem edit_of_fits {change : Edit} (hfits : change.Fits body) :
    ∃ next, body.edit change = .ok next ∧
      ∀ other : Edit, other.Fits body → other.Fits next := by
  cases change with
  | replace instr opcode =>
      obtain ⟨hlt, hinputs⟩ := hfits
      refine ⟨_, replace_eq_ok.mpr
        ⟨_, Array.getElem?_eq_getElem hlt, hinputs, rfl⟩, ?_⟩
      rintro (_ | _) hother <;>
        simpa [Edit.Fits, relinked, refreshPredecessors] using hother
  | addHandler block handler =>
      refine ⟨_, addHandler_eq_ok.mpr
        ⟨_, Array.getElem?_eq_getElem hfits, rfl⟩, ?_⟩
      rintro (_ | _) hother <;>
        simpa [Edit.Fits, refreshPredecessors] using hother

theorem editAll_of_fits (hbody : body.Indexed) {edits : List Edit}
    (hfits : ∀ edit ∈ edits, edit.Fits body) :
    ∃ edited, body.editAll edits = .ok edited ∧ edited.Indexed ∧
      edited.revision = body.revision + edits.length := by
  induction edits generalizing body with
  | nil => exact ⟨body, rfl, hbody, rfl⟩
  | cons change rest ih =>
      rw [List.forall_mem_cons] at hfits
      obtain ⟨next, hnext, hkeeps⟩ := edit_of_fits hfits.1
      obtain ⟨edited, hedited, hindexed, hrevision⟩ :=
        ih (hbody.edit hnext) fun other hother => hkeeps other (hfits.2 other hother)
      refine ⟨edited, ?_, hindexed, ?_⟩
      · rw [editAll, List.foldlM_cons, hnext]
        exact hedited
      · rw [hrevision, revision_of_edit hnext, List.length_cons]
        omega

end Body

namespace Body

variable {body : Body}

/-- What is noted for an instruction is its place in the block that lists
it. -/
theorem position_notePositions
    (harranged : Arranged body.instructions body.blocks) {instr : InstrId}
    (hinstr : instr ∈ body.instructionsOf (body.blockOf instr)) :
    body.notePositions.position instr =
      (body.instructionsOf (body.blockOf instr)).idxOf instr := by
  obtain ⟨content, hcontent⟩ := exists_content (lt_of_mem_instructionsOf hinstr)
  rw [instructionsOf_eq hcontent] at hinstr ⊢
  have hplaced := harranged.placed hcontent hinstr
  have hlt : instr < body.instructions.size := by
    obtain ⟨instruction, hfound, _⟩ := Option.map_eq_some_iff.mp hplaced
    exact (Array.getElem?_eq_some_iff.mp hfound).1
  -- no other block lists the instruction, and its own lists it once
  have hagree : ∀ place ∈ body.blocks.toList.flatMap
      (fun block => block.instructions.zipIdx),
      place.1 = instr → place.2 = content.instructions.idxOf instr := by
    rintro ⟨_, index⟩ hplace rfl
    obtain ⟨other, hother, hzip⟩ := List.mem_flatMap.mp hplace
    have hindex : other.instructions[index]? = some _ :=
      List.mem_zipIdx_iff_getElem?.mp hzip
    obtain ⟨block, hblock⟩ := Array.mem_iff_getElem?.mp
      (Array.mem_toList_iff.mp hother)
    have hsame := harranged.placed hblock (List.mem_of_getElem? hindex)
    obtain rfl := Option.some.inj (hsame.symm.trans hplaced)
    obtain rfl := Option.some.inj (hblock.symm.trans hcontent)
    obtain ⟨hindexlt, hget⟩ := List.getElem?_eq_some_iff.mp hindex
    rw [← hget, (harranged.nodup hcontent).idxOf_getElem]
  have hnoted : ∃ place ∈ body.blocks.toList.flatMap
      (fun block => block.instructions.zipIdx), place.1 = instr := by
    obtain ⟨index, hindex⟩ := List.mem_iff_getElem?.mp hinstr
    refine ⟨(instr, index), List.mem_flatMap.mpr ⟨content, ?_, ?_⟩, rfl⟩
    · exact Array.mem_toList_iff.mpr (Array.mem_of_getElem? hcontent)
    · exact List.mem_zipIdx_iff_getElem?.mpr hindex
  have hposition := getElem?_foldl_setIfInBounds hagree
    (Or.inr ⟨by rwa [Array.size_replicate], hnoted⟩ :
      (Array.replicate body.instructions.size 0)[instr]? = _ ∨ _)
  rw [position, Array.getD_eq_getD_getElem?, notePositions, hposition]
  rfl

theorem Accepted.indexed (haccepted : body.Accepted) :
    body.Indexed ∧ body.revision = 0 := by
  have hbody := haccepted.wellFormed
  obtain ⟨method, isStatic, commands, given, draft, hrun, hbuild⟩ := haccepted
  rw [Draft.build] at hbuild
  split at hbuild
  · cases hbuild
  · next hnone =>
    obtain rfl := Except.ok.inj hbuild
    obtain ⟨_, _, _, hoperands⟩ := Draft.error?_eq_none hnone
    refine ⟨⟨hbody.arranged, ?_, ?_, ?_, ?_, ?_, ?_⟩, rfl⟩
    · intro value
      rw [users, Draft.getElem?_toBody_values]
      cases draft.values[value]? with
      | none => exact List.nodup_nil
      | some decl => exact List.nodup_range.filter _
    · intro value instr
      rw [users, Draft.getElem?_toBody_values]
      cases hvalue : draft.values[value]? with
      | none =>
          have hunread : value ∉ (draft.toBody.opcode instr).inputs := by
            intro hread
            have hlt := hbody.input_lt hread
            rw [Draft.size_toBody_values] at hlt
            exact absurd hvalue (by simp [hlt])
          simp [hunread]
      | some decl => exact mem_readers
    · intro value
      rw [phiUsers, Draft.getElem?_toBody_values]
      cases draft.values[value]? with
      | none => exact List.nodup_nil
      | some decl => exact List.nodup_range.filter _
    · intro value phi
      have hsame : draft.toBody.operandsOf phi = draft.parts.operandsOf phi := by
        rw [operandsOf_eq_map, operandsOf_eq_map, Draft.getElem?_toBody_values,
          Draft.parts]
        simp [Function.comp_def]
      rw [hsame, phiUsers, Draft.getElem?_toBody_values]
      cases hvalue : draft.values[value]? with
      | none =>
          have hunmerged : value ∉ draft.parts.operandsOf phi := by
            intro hoperand
            rw [operandsOf_eq_map] at hoperand
            cases hphi : draft.values[phi]? with
            | none => simp [Draft.parts, hphi] at hoperand
            | some decl =>
                have hlt := hoperands decl (Array.mem_of_getElem? hphi) value
                  (by simpa [Draft.parts, hphi] using hoperand)
                exact absurd hvalue (by simp [hlt])
          simp [hunmerged]
      | some decl => exact mem_mergers
    · intro instr hinstr
      exact position_notePositions hbody.arranged hinstr
    · exact predecessors_refreshPredecessors

theorem mem_operandsOf {value phi : ValueId} : value ∈ body.operandsOf phi ↔
    ∃ decl block operands, body.values[phi]? = some decl ∧
      decl.definition = .phi block operands ∧ value ∈ operands := by
  rw [operandsOf]
  cases body.values[phi]? with
  | none => simp
  | some decl =>
      cases hdefinition : decl.definition <;>
        simp [Definition.operands, hdefinition]

theorem lt_size_of_mem_operandsOf {value phi : ValueId}
    (hoperand : value ∈ body.operandsOf phi) : phi < body.values.size := by
  obtain ⟨_, _, _, hdecl, _⟩ := mem_operandsOf.mp hoperand
  exact (Array.getElem?_eq_some_iff.mp hdecl).1

theorem Indexed.mem_predecessors (hbody : body.Indexed) {source block : BlockId}
    (hblock : block < body.blocks.size) :
    source ∈ body.predecessors block ↔ block ∈ body.successors source := by
  rw [hbody.predecessors_eq hblock, Graph.mem_previous, mem_graph_next]

/-- Use lists, predecessors and places say what the instructions, phis and
blocks say. -/
structure Consistent (body : Body) : Prop where
  users : ∀ value, (body.users value).Nodup ∧
    ∀ instr, instr ∈ body.users value ↔ value ∈ (body.opcode instr).inputs
  phiUsers : ∀ value, (body.phiUsers value).Nodup ∧
    ∀ phi, phi ∈ body.phiUsers value ↔ ∃ decl block operands,
      body.values[phi]? = some decl ∧
        decl.definition = .phi block operands ∧ value ∈ operands
  predecessors : ∀ block < body.blocks.size, (body.predecessors block).Nodup ∧
    ∀ source, source ∈ body.predecessors block ↔ block ∈ body.successors source
  positions : ∀ instr < body.instructions.size, ∀ block index,
    (body.instructionsOf block)[index]? = some instr ↔
      block = body.blockOf instr ∧ index = body.position instr

theorem Indexed.mem_instructionsOf (hbody : body.Indexed) {instr : InstrId}
    (hinstr : instr < body.instructions.size) :
    instr ∈ body.instructionsOf (body.blockOf instr) := by
  have hfound := Array.getElem?_eq_getElem hinstr
  obtain ⟨content, hcontent, hmem⟩ := hbody.arranged.listed hfound
  rw [blockOf, hfound, instructionsOf_eq hcontent]
  exact hmem

/-- Every instruction stands in its own block. -/
theorem Indexed.mem_own_block (hbody : body.Indexed) {instr : InstrId}
    (hopcode : body.opcode instr ≠ .position) :
    instr ∈ body.instructionsOf (body.blockOf instr) := by
  apply hbody.mem_instructionsOf
  by_contra hge
  have hnone : body.instructions[instr]? = none :=
    Array.getElem?_eq_none (Nat.not_lt.mp hge)
  exact hopcode (by rw [opcode, hnone])

theorem Indexed.mem_allInstructions (hbody : body.Indexed) {instr : InstrId}
    (hopcode : body.opcode instr ≠ .position) : instr ∈ body.allInstructions := by
  have hmem := hbody.mem_own_block hopcode
  cases hcontent : body.blocks[body.blockOf instr]? with
  | none => simp [instructionsOf, hcontent] at hmem
  | some content =>
      rw [instructionsOf_eq hcontent] at hmem
      have hblock : content ∈ body.blocks.toList :=
        Array.mem_toList_iff.mpr (Array.mem_of_getElem? hcontent)
      exact List.mem_flatMap.mpr ⟨content, hblock, hmem⟩

theorem Indexed.consistent (hbody : body.Indexed) : body.Consistent where
  users value := ⟨hbody.users_nodup value, fun _ => hbody.mem_users⟩
  phiUsers value := ⟨hbody.phiUsers_nodup value, fun _ =>
    hbody.mem_phiUsers.trans mem_operandsOf⟩
  predecessors block hblock := by
    refine ⟨?_, fun _ => hbody.mem_predecessors hblock⟩
    rw [hbody.predecessors_eq hblock]
    exact List.nodup_range.filter _
  positions := by
    intro instr hinstr block index
    have hlisted := hbody.mem_instructionsOf hinstr
    rw [hbody.position_eq hlisted]
    constructor
    · intro hplace
      have hblock := blockOf_of_mem hbody.arranged (List.mem_of_getElem? hplace)
      have hnodup := nodup_of_arranged hbody.arranged block
      obtain ⟨hlt, hget⟩ := List.getElem?_eq_some_iff.mp hplace
      refine ⟨hblock.symm, ?_⟩
      rw [hblock, ← hget, hnodup.idxOf_getElem]
    · rintro ⟨rfl, rfl⟩
      exact List.getElem?_idxOf hlisted

/-- Edits of an accepted body that fit go through, and afterwards everything
the body says about itself is right. -/
theorem consistent_of_editAll (haccepted : body.Accepted) {edits : List Edit}
    (hfits : ∀ edit ∈ edits, edit.Fits body) :
    ∃ edited, body.editAll edits = .ok edited ∧ edited.Consistent ∧
      edited.revision = edits.length := by
  obtain ⟨hindexed, hrevision⟩ := haccepted.indexed
  obtain ⟨edited, hedited, hindexed', hrevision'⟩ :=
    editAll_of_fits hindexed hfits
  refine ⟨edited, hedited, hindexed'.consistent, ?_⟩
  rw [hrevision', hrevision, Nat.zero_add]

/-- A sum of a value with itself, a branch with one target, and a phi that has
the value twice. -/
def doubled : Body where
  method := 0
  isStatic := true
  values := #[
    { type := .primitive .int, definition := .instruction 0, users := [1, 2]
      phiUsers := [2] },
    { type := .primitive .int, definition := .instruction 1, users := [] },
    { type := .primitive .int, definition := .phi 1 [0, 0], users := [3] }]
  instructions := #[⟨0, .number 7, some 0⟩, ⟨0, .binary .add 0 0, some 1⟩,
    ⟨0, .branch .eq 0 none 1 1, none⟩, ⟨1, .ret (some 2), none⟩]
  blocks := #[⟨[0, 1, 2], [], []⟩, ⟨[3], [2], []⟩]
  positions := #[0, 1, 2, 0]
  incoming := #[[], [0]]

theorem doubled_accepted : doubled.Accepted :=
  ⟨0, true,
    [.block, .block, .value 0 (.number 7) (.primitive .int),
      .value 0 (.binary .add 0 0) (.primitive .int),
      .push 0 (.branch .eq 0 none 1 1), .phi 1 (.primitive .int),
      .operands 2 [0, 0], .push 1 (.ret (some 2))],
    _, _, rfl, by decide +kernel⟩

/-- The sum becomes a product that shares an operand with it, and a handler
goes where the branch goes. -/
theorem doubled_consistent :
    doubled.Accepted ∧
      (∀ edit ∈ [Edit.replace 1 (.binary .mul 0 1), .addHandler 0 ⟨none, 1⟩],
        edit.Fits doubled) ∧
      ∃ edited, doubled.editAll
          [.replace 1 (.binary .mul 0 1), .addHandler 0 ⟨none, 1⟩] =
            .ok edited ∧ edited.Consistent ∧ edited.revision = 2 := by
  have hfits : ∀ edit ∈ [Edit.replace 1 (.binary .mul 0 1),
      .addHandler 0 ⟨none, 1⟩], edit.Fits doubled := by
    simp [Edit.Fits, doubled, Opcode.inputs]
  exact ⟨doubled_accepted, hfits, consistent_of_editAll doubled_accepted hfits⟩

end Body

end FlowFacts
