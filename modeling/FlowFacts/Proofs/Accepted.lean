/-
What a body is known to satisfy once its draft has been accepted.  The steps
of drafting keep the lists of instructions and the blocks named by the
instructions in agreement; the final check adds that blocks end where they
should and that everything they mention exists.
-/
import FlowFacts.Proofs.Indexes
import FlowFacts.Proofs.Paths

namespace FlowFacts

/-- Blocks and instructions agree on where every instruction stands. -/
structure Arranged (instructions : Array Instruction) (blocks : Array Block) :
    Prop where
  placed : ∀ {block : BlockId} {content : Block} {instr : InstrId},
    blocks[block]? = some content → instr ∈ content.instructions →
      (instructions[instr]?).map Instruction.block = some block
  listed : ∀ {instr : InstrId} {instruction : Instruction},
    instructions[instr]? = some instruction →
      ∃ content : Block, blocks[instruction.block]? = some content ∧
        instr ∈ content.instructions
  nodup : ∀ {block : BlockId} {content : Block},
    blocks[block]? = some content → content.instructions.Nodup

namespace Arranged

variable {instructions : Array Instruction} {blocks : Array Block}

theorem empty : Arranged #[] #[] where
  placed := by simp
  listed := by simp
  nodup := by simp

theorem push_block (harranged : Arranged instructions blocks) :
    Arranged instructions (blocks.push {}) := by
  have hcases : ∀ {block : BlockId} {content},
      (blocks.push {})[block]? = some content →
      blocks[block]? = some content ∨ content = {} := by
    intro block content hblock
    rw [Array.getElem?_push] at hblock
    split at hblock
    · exact Or.inr (Option.some.inj hblock).symm
    · exact Or.inl hblock
  refine ⟨?_, ?_, ?_⟩
  · intro block content instr hblock hinstr
    rcases hcases hblock with hold | rfl
    · exact harranged.placed hold hinstr
    · simp at hinstr
  · intro instr instruction hinstr
    obtain ⟨content, hblock, hmem⟩ := harranged.listed hinstr
    have hlt := (Array.getElem?_eq_some_iff.mp hblock).1
    refine ⟨content, ?_, hmem⟩
    rw [Array.getElem?_push, if_neg (Nat.ne_of_lt hlt), hblock]
  · intro block content hblock
    rcases hcases hblock with hold | rfl
    · exact harranged.nodup hold
    · exact List.nodup_nil

/-- Only the blocks named by instructions and the lists of blocks matter. -/
theorem congr {instructions' : Array Instruction} {blocks' : Array Block}
    (harranged : Arranged instructions blocks)
    (hplaces : ∀ instr : InstrId, (instructions'[instr]?).map Instruction.block =
      (instructions[instr]?).map Instruction.block)
    (hlists : ∀ block : BlockId, (blocks'[block]?).map Block.instructions =
      (blocks[block]?).map Block.instructions) :
    Arranged instructions' blocks' := by
  have hsame : ∀ {block : BlockId} {content : Block},
      blocks'[block]? = some content → ∃ old : Block,
        blocks[block]? = some old ∧ old.instructions = content.instructions := by
    intro block content hblock
    have hlist := hlists block
    rw [hblock, Option.map_some] at hlist
    exact Option.map_eq_some_iff.mp hlist.symm
  refine ⟨?_, ?_, ?_⟩
  · intro block content instr hblock hinstr
    obtain ⟨old, hold, heq⟩ := hsame hblock
    rw [hplaces]
    exact harranged.placed hold (heq ▸ hinstr)
  · intro instr instruction hinstr
    have hplace := hplaces instr
    rw [hinstr, Option.map_some] at hplace
    obtain ⟨before, hbefore, heq⟩ := Option.map_eq_some_iff.mp hplace.symm
    obtain ⟨content, hblock, hmem⟩ := harranged.listed hbefore
    have hlist := hlists instruction.block
    rw [← heq, hblock, Option.map_some] at hlist
    obtain ⟨content', hblock', heq'⟩ := Option.map_eq_some_iff.mp hlist
    exact ⟨content', heq ▸ hblock', heq' ▸ hmem⟩
  · intro block content hblock
    obtain ⟨old, hold, heq⟩ := hsame hblock
    exact heq ▸ harranged.nodup hold

/-- Changes to a block that leave its instructions alone change nothing. -/
theorem modify_block (harranged : Arranged instructions blocks)
    (target : BlockId) (change : Block → Block)
    (hchange : ∀ content,
      (change content).instructions = content.instructions) :
    Arranged instructions (blocks.modify target change) := by
  apply harranged.congr (fun _ => rfl)
  intro block
  rw [Array.getElem?_modify]
  split
  · simp [Function.comp_def, hchange]
  · rfl

/-- The number of a new instruction is in no list yet, so it can be appended
to the list of its block. -/
theorem append_instruction (harranged : Arranged instructions blocks)
    {target : BlockId} (htarget : target < blocks.size) (opcode : Opcode)
    (output : Option ValueId) :
    Arranged (instructions.push { block := target, opcode, output })
      (blocks.modify target fun content =>
        { content with
          instructions := content.instructions ++ [instructions.size] }) := by
  have hfresh : ∀ {block : BlockId} {content : Block},
      blocks[block]? = some content →
      ∀ instr ∈ content.instructions, instr < instructions.size := by
    intro block content hblock instr hinstr
    have hplaced := harranged.placed hblock hinstr
    by_contra hge
    rw [Array.getElem?_eq_none (Nat.not_lt.mp hge)] at hplaced
    cases hplaced
  refine ⟨?_, ?_, ?_⟩
  · intro block content instr hblock hinstr
    rw [Array.getElem?_modify] at hblock
    have hold : ∀ {content : Block}, blocks[block]? = some content →
        instr ∈ content.instructions →
        ((instructions.push { block := target, opcode, output })[instr]?).map
          Instruction.block = some block := by
      intro content hblock hinstr
      have hlt := hfresh hblock instr hinstr
      rw [Array.getElem?_push, if_neg (Nat.ne_of_lt hlt)]
      exact harranged.placed hblock hinstr
    split at hblock
    · next heq =>
        obtain ⟨old, hcontent, rfl⟩ := Option.map_eq_some_iff.mp hblock
        rcases List.mem_append.mp hinstr with hinstr | hinstr
        · exact hold hcontent hinstr
        · obtain rfl := List.mem_singleton.mp hinstr
          rw [Array.getElem?_push_size, ← heq]
          rfl
    · exact hold hblock hinstr
  · intro instr instruction hinstr
    rw [Array.getElem?_push] at hinstr
    split at hinstr
    · next heq =>
        obtain rfl := Option.some.inj hinstr
        have hblock := Array.getElem?_eq_getElem htarget
        refine ⟨_, by rw [Array.getElem?_modify, if_pos rfl, hblock]; rfl, ?_⟩
        exact List.mem_append_right _ (List.mem_singleton.mpr heq)
    · obtain ⟨content, hblock, hmem⟩ := harranged.listed hinstr
      by_cases heq : target = instruction.block
      · refine ⟨_, by rw [Array.getElem?_modify, if_pos heq, hblock]; rfl, ?_⟩
        exact List.mem_append_left _ hmem
      · exact ⟨content, by rw [Array.getElem?_modify, if_neg heq, hblock], hmem⟩
  · intro block content hblock
    rw [Array.getElem?_modify] at hblock
    split at hblock
    · obtain ⟨old, hcontent, rfl⟩ := Option.map_eq_some_iff.mp hblock
      refine List.nodup_append.mpr ⟨harranged.nodup hcontent, by simp, ?_⟩
      intro a ha b hb
      obtain rfl := List.mem_singleton.mp hb
      exact Nat.ne_of_lt (hfresh hcontent a ha)
    · exact harranged.nodup hblock

end Arranged

/-- A block ends in its only terminator, leads to blocks only, and enters its
handlers from one place. -/
structure Block.Sound (content : Block) (opcode : InstrId → Opcode)
    (size : Nat) : Prop where
  ends : ∃ before last, content.instructions = before ++ [last] ∧
    (opcode last).isTerminator = true ∧
      ∀ instr ∈ before, (opcode instr).isTerminator = false
  target_lt : ∀ {last}, content.instructions.getLast? = some last →
    ∀ target ∈ (opcode last).targets, target < size
  handler_lt : ∀ handler ∈ content.handlers, handler.target < size
  throws_once : content.handlers ≠ [] →
    (content.instructions.filter fun instr => (opcode instr).canThrow).length ≤ 1

namespace Draft

variable {draft next : Draft} {block : BlockId}

theorem updateBlock_eq_ok {change : Block → Block} :
    draft.updateBlock block change = .ok next ↔ block < draft.blocks.size ∧
      next = { draft with blocks := draft.blocks.modify block change } := by
  rw [updateBlock]
  split
  · next hlt => simp [hlt, eq_comm]
  · next hge => simp [hge]

theorem step_arranged {command : Command} {given : Option Nat}
    (hstep : draft.step command = .ok (given, next))
    (harranged : Arranged draft.instructions draft.blocks) :
    Arranged next.instructions next.blocks := by
  cases command with
  | block =>
      obtain ⟨_, rfl⟩ := Prod.mk.inj (Except.ok.inj hstep)
      exact harranged.push_block
  | push block opcode =>
      obtain ⟨appended, happend, hresult⟩ := exists_of_bind hstep
      obtain ⟨_, rfl⟩ := Prod.mk.inj (Except.ok.inj hresult)
      obtain ⟨hlt, rfl⟩ := updateBlock_eq_ok.mp happend
      exact harranged.append_instruction hlt opcode none
  | value block opcode type =>
      obtain ⟨appended, happend, hresult⟩ := exists_of_bind hstep
      obtain ⟨_, rfl⟩ := Prod.mk.inj (Except.ok.inj hresult)
      obtain ⟨hlt, rfl⟩ := updateBlock_eq_ok.mp happend
      exact harranged.append_instruction hlt opcode _
  | phi block type =>
      obtain ⟨updated, hupdate, hresult⟩ := exists_of_bind hstep
      obtain ⟨_, rfl⟩ := Prod.mk.inj (Except.ok.inj hresult)
      obtain ⟨_, rfl⟩ := updateBlock_eq_ok.mp hupdate
      exact harranged.modify_block block (fun content =>
        { content with phis := content.phis ++ [draft.values.size] })
        fun _ => rfl
  | operands phi operands =>
      simp only [step] at hstep
      split at hstep
      · cases hstep
      · split at hstep
        · cases hstep
        · obtain ⟨_, rfl⟩ := Prod.mk.inj (Except.ok.inj hstep)
          exact harranged
  | handler block handler =>
      obtain ⟨updated, hupdate, hresult⟩ := exists_of_bind hstep
      obtain ⟨_, rfl⟩ := Prod.mk.inj (Except.ok.inj hresult)
      obtain ⟨_, rfl⟩ := updateBlock_eq_ok.mp hupdate
      exact harranged.modify_block block (fun content =>
        { content with handlers := content.handlers ++ [handler] })
        fun _ => rfl

/-- What every command keeps holds after a run. -/
theorem run_induct {P : Draft → Prop} {commands : List Command}
    {given : List (Option Nat)}
    (hstep : ∀ {draft next command given},
      draft.step command = .ok (given, next) → P draft → P next)
    (hrun : draft.run commands = .ok (given, next)) (hstart : P draft) :
    P next := by
  induction commands generalizing draft given with
  | nil =>
      obtain ⟨_, rfl⟩ := Prod.mk.inj (Except.ok.inj hrun)
      exact hstart
  | cons command rest ih =>
      obtain ⟨⟨_, middle⟩, hhead, hrest⟩ := exists_of_bind hrun
      obtain ⟨⟨_, last⟩, htail, hresult⟩ := exists_of_bind hrest
      obtain ⟨_, rfl⟩ := Prod.mk.inj (Except.ok.inj hresult)
      exact ih htail (hstep hhead hstart)

theorem run_arranged {commands : List Command} {given : List (Option Nat)}
    (hrun : draft.run commands = .ok (given, next))
    (harranged : Arranged draft.instructions draft.blocks) :
    Arranged next.instructions next.blocks :=
  run_induct (P := fun draft => Arranged draft.instructions draft.blocks)
    step_arranged hrun harranged

theorem sound_of_blockError?_eq_none (hnone : draft.blockError? block = none)
    {content : Block} (hcontent : draft.blocks[block]? = some content) :
    content.Sound draft.opcode draft.blocks.size := by
  have hget : draft.blocks.getD block {} = content := by
    simp [hcontent]
  simp only [blockError?, hget] at hnone
  split at hnone
  · cases hnone
  · next last hlast =>
    obtain ⟨before, hsplit⟩ := List.getLast?_eq_some_iff.mp hlast
    -- the remaining tests in the order of the check: the end, an earlier
    -- end, targets, throwing instructions
    split at hnone
    · cases hnone
    · next hterminator =>
      split at hnone
      · cases hnone
      · next hearlier =>
        split at hnone
        · cases hnone
        · next hdangling =>
          split at hnone
          · cases hnone
          · next hthrowing =>
            have htargets : ∀ target ∈ (draft.opcode last).targets ++
                content.handlers.map Handler.target,
                target < draft.blocks.size := by
              intro target htarget
              simpa using List.find?_eq_none.mp hdangling target htarget
            refine ⟨⟨before, last, hsplit, by simpa using hterminator, ?_⟩,
              ?_, ?_, ?_⟩
            · rw [hsplit, List.dropLast_concat] at hearlier
              intro instr hinstr
              simpa using List.find?_eq_none.mp hearlier instr hinstr
            · intro last' hlast' target htarget
              obtain rfl := Option.some.inj (hlast.symm.trans hlast')
              exact htargets target (List.mem_append_left _ htarget)
            · intro handler hmem
              exact htargets handler.target
                (List.mem_append_right _ (List.mem_map_of_mem hmem))
            · intro hhandlers
              have hsome : content.handlers.isEmpty = false := by
                simpa using hhandlers
              rw [hsome] at hthrowing
              simpa using hthrowing

theorem undefined?_eq_none {values : List ValueId}
    (hnone : draft.undefined? values = none) :
    ∀ value ∈ values, value < draft.values.size := by
  intro value hvalue
  rw [undefined?, Option.map_eq_none_iff] at hnone
  simpa using List.find?_eq_none.mp hnone value hvalue

/-- What the check of a whole draft establishes. -/
theorem error?_eq_none (hnone : draft.error? = none) :
    0 < draft.blocks.size ∧
      (∀ block < draft.blocks.size, draft.blockError? block = none) ∧
      (∀ instruction ∈ draft.instructions,
        ∀ value ∈ instruction.opcode.inputs, value < draft.values.size) ∧
      (∀ decl ∈ draft.values,
        ∀ value ∈ decl.definition.operands, value < draft.values.size) := by
  rw [error?] at hnone
  split at hnone
  · cases hnone
  · next hsome =>
      simp only [Option.orElse_eq_orElse, Option.orElse_eq_or,
        Option.or_eq_none_iff, List.findSome?_eq_none_iff] at hnone
      obtain ⟨hblocks, hinputs, hoperands⟩ := hnone
      refine ⟨?_, ?_, ?_, ?_⟩
      · exact Array.size_pos_iff.mpr (by simpa using hsome)
      · intro block hlt
        exact hblocks block (List.mem_range.mpr hlt)
      · intro instruction hmem
        exact undefined?_eq_none (hinputs _ (Array.mem_toList_iff.mpr hmem))
      · intro decl hmem
        exact undefined?_eq_none (hoperands _ (Array.mem_toList_iff.mpr hmem))

end Draft

namespace Body

variable {body : Body} {block : BlockId} {content : Block}

/-- The body of some draft, as it passed the check. -/
def Accepted (body : Body) : Prop :=
  ∃ method isStatic commands given draft,
    Draft.run { method, isStatic } commands = .ok (given, draft) ∧
      draft.build = .ok body

/-- The parts of a body fit together. -/
structure WellFormed (body : Body) : Prop where
  entry_lt : Body.entry < body.blocks.size
  arranged : Arranged body.instructions body.blocks
  sound : ∀ {block : BlockId} {content : Block},
    body.blocks[block]? = some content →
      content.Sound body.opcode body.blocks.size
  input_lt : ∀ {instr value}, value ∈ (body.opcode instr).inputs →
    value < body.values.size

theorem Accepted.wellFormed (haccepted : body.Accepted) : body.WellFormed := by
  obtain ⟨method, isStatic, commands, given, draft, hrun, hbuild⟩ := haccepted
  rw [Draft.build] at hbuild
  split at hbuild
  · cases hbuild
  · next hnone =>
    obtain rfl := Except.ok.inj hbuild
    obtain ⟨hentry, hblocks, hinputs, _⟩ := Draft.error?_eq_none hnone
    refine ⟨hentry, Draft.run_arranged hrun Arranged.empty, ?_, ?_⟩
    · intro block content hcontent
      have hlt := (Array.getElem?_eq_some_iff.mp hcontent).1
      exact Draft.sound_of_blockError?_eq_none (hblocks block hlt) hcontent
    · intro instr value hvalue
      rw [Draft.size_toBody_values]
      change value ∈ (draft.opcode instr).inputs at hvalue
      rw [Draft.opcode] at hvalue
      split at hvalue
      · next instruction hinstr =>
          exact hinputs instruction (Array.mem_of_getElem? hinstr) value hvalue
      · simp [Opcode.inputs] at hvalue

theorem block_eq_ok : body.block block = .ok content ↔
    body.blocks[block]? = some content := by
  rw [Body.block]
  split
  · next found hfound => simp [hfound]
  · next hnone => simp [hnone]

theorem instruction_eq_ok {instr : InstrId} {instruction : Instruction} :
    body.instruction instr = .ok instruction ↔
      body.instructions[instr]? = some instruction := by
  rw [Body.instruction]
  split
  · next found hfound => simp [hfound]
  · next hnone => simp [hnone]

theorem value_eq_ok {value : ValueId} {content : Value} :
    body.value value = .ok content ↔ body.values[value]? = some content := by
  rw [Body.value]
  split
  · next found hfound => simp [hfound]
  · next hnone => simp [hnone]

theorem blockOf_of_instruction {instr : InstrId} {instruction : Instruction}
    (hfetch : body.instruction instr = .ok instruction) :
    body.blockOf instr = instruction.block := by
  rw [Body.instruction] at hfetch
  split at hfetch
  · next found hfound =>
      obtain rfl := Except.ok.inj hfetch
      rw [blockOf, hfound]
  · cases hfetch

theorem lt_size_of_block (hfetch : body.block block = .ok content) :
    block < body.blocks.size :=
  (Array.getElem?_eq_some_iff.mp (block_eq_ok.mp hfetch)).1

theorem exists_content (hblock : block < body.blocks.size) :
    ∃ content, body.blocks[block]? = some content :=
  ⟨_, Array.getElem?_eq_getElem hblock⟩

theorem instructionsOf_eq (hcontent : body.blocks[block]? = some content) :
    body.instructionsOf block = content.instructions := by
  rw [instructionsOf, hcontent]

theorem handlersOf_eq (hcontent : body.blocks[block]? = some content) :
    body.handlersOf block = content.handlers := by
  rw [handlersOf, hcontent]

theorem lt_of_mem_instructionsOf {instr : InstrId}
    (hinstr : instr ∈ body.instructionsOf block) :
    block < body.blocks.size := by
  by_contra hge
  simp [instructionsOf, Array.getElem?_eq_none (Nat.not_lt.mp hge)] at hinstr

theorem blockOf_of_mem (harranged : Arranged body.instructions body.blocks)
    {instr : InstrId} (hinstr : instr ∈ body.instructionsOf block) :
    body.blockOf instr = block := by
  rw [instructionsOf] at hinstr
  split at hinstr
  · next content hcontent =>
      have hplaced := harranged.placed hcontent hinstr
      obtain ⟨instruction, hfound, hblock⟩ := Option.map_eq_some_iff.mp hplaced
      rw [blockOf, hfound]
      exact hblock
  · simp at hinstr

theorem nodup_of_arranged (harranged : Arranged body.instructions body.blocks)
    (block : BlockId) : (body.instructionsOf block).Nodup := by
  rw [instructionsOf]
  split
  · next content hcontent => exact harranged.nodup hcontent
  · exact List.nodup_nil

theorem mem_successors {target : BlockId} : target ∈ body.successors block ↔
    target ∈ body.normalSuccessors block ∨
      ∃ handler ∈ body.handlersOf block, handler.target = target := by
  simp only [successors, List.mem_append, mem_firstUnseen, List.mem_map]
  tauto

/-- A block that does not exist has no successors. -/
theorem lt_of_mem_successors {target : BlockId}
    (htarget : target ∈ body.successors block) : block < body.blocks.size := by
  by_contra hge
  have hnone : body.blocks[block]? = none :=
    Array.getElem?_eq_none (Nat.not_lt.mp hge)
  rcases mem_successors.mp htarget with hnormal | ⟨handler, hmem, _⟩
  · simp [normalSuccessors, lastOf?, instructionsOf, hnone] at hnormal
  · simp [handlersOf, hnone] at hmem

theorem mem_graph_next {target : BlockId} :
    target ∈ body.graph.next block ↔ target ∈ body.successors block := by
  by_cases hlt : block < body.blocks.size
  · rw [graph_next hlt]
  · constructor
    · intro htarget
      simp [graph, Graph.next, hlt] at htarget
    · intro htarget
      exact absurd (lt_of_mem_successors htarget) hlt

namespace WellFormed

theorem ends (hbody : body.WellFormed) (hblock : block < body.blocks.size) :
    ∃ before last, body.instructionsOf block = before ++ [last] ∧
      (body.opcode last).isTerminator = true ∧
      ∀ instr ∈ before, (body.opcode instr).isTerminator = false := by
  obtain ⟨content, hcontent⟩ := exists_content hblock
  rw [instructionsOf_eq hcontent]
  exact (hbody.sound hcontent).ends

theorem successor_lt (hbody : body.WellFormed) {target : BlockId}
    (htarget : target ∈ body.successors block) :
    target < body.blocks.size := by
  obtain ⟨content, hcontent⟩ := exists_content (lt_of_mem_successors htarget)
  have hsound := hbody.sound hcontent
  rcases mem_successors.mp htarget with hnormal | ⟨handler, hmem, rfl⟩
  · rw [normalSuccessors, lastOf?, instructionsOf_eq hcontent] at hnormal
    split at hnormal
    · next last hlast => exact hsound.target_lt hlast target hnormal
    · simp at hnormal
  · rw [handlersOf_eq hcontent] at hmem
    exact hsound.handler_lt handler hmem

theorem blockOf_eq (hbody : body.WellFormed) {instr : InstrId}
    (hinstr : instr ∈ body.instructionsOf block) :
    body.blockOf instr = block :=
  blockOf_of_mem hbody.arranged hinstr

theorem blockOf_lt (hbody : body.WellFormed) (instr : InstrId) :
    body.blockOf instr < body.blocks.size := by
  rw [blockOf]
  split
  · next instruction hfound =>
      obtain ⟨content, hcontent, _⟩ := hbody.arranged.listed hfound
      exact (Array.getElem?_eq_some_iff.mp hcontent).1
  · exact hbody.entry_lt

theorem nodup_instructionsOf (hbody : body.WellFormed) (block : BlockId) :
    (body.instructionsOf block).Nodup :=
  nodup_of_arranged hbody.arranged block

theorem before_eq (hbody : body.WellFormed) {instr : InstrId}
    {before after : List InstrId}
    (hsplit : body.instructionsOf block = before ++ instr :: after) :
    body.before instr = before := by
  have hblock : body.blockOf instr = block :=
    hbody.blockOf_eq (by simp [hsplit])
  have hnodup := hbody.nodup_instructionsOf block
  rw [hsplit, List.nodup_append] at hnodup
  have hbefore : ∀ other ∈ before, (other != instr) = true := by
    intro other hother
    have hne := hnodup.2.2 other hother instr List.mem_cons_self
    simpa using hne
  rw [Body.before, hblock, hsplit, List.takeWhile_append_of_pos hbefore]
  simp

/-- With handlers, nothing before the throwing instruction can throw. -/
theorem not_canThrow_of_before (hbody : body.WellFormed) {instr : InstrId}
    {before after : List InstrId} (hhandlers : body.handlersOf block ≠ [])
    (hsplit : body.instructionsOf block = before ++ instr :: after)
    (hthrows : (body.opcode instr).canThrow = true) :
    ∀ other ∈ before, (body.opcode other).canThrow = false := by
  have hmem : instr ∈ body.instructionsOf block := by simp [hsplit]
  obtain ⟨content, hcontent⟩ := exists_content (lt_of_mem_instructionsOf hmem)
  rw [handlersOf_eq hcontent] at hhandlers
  rw [instructionsOf_eq hcontent] at hsplit
  have honce := (hbody.sound hcontent).throws_once hhandlers
  simp only [hsplit, List.filter_append, List.filter_cons, hthrows,
    ↓reduceIte, List.length_append, List.length_cons] at honce
  intro other hother
  by_contra hother'
  have hpos : 0 < (before.filter fun instr =>
      (body.opcode instr).canThrow).length := by
    apply List.length_pos_of_mem
    exact List.mem_filter.mpr ⟨hother, by simpa using hother'⟩
  omega

theorem throwing?_eq (hbody : body.WellFormed) {instr : InstrId}
    {before after : List InstrId} (hhandlers : body.handlersOf block ≠ [])
    (hsplit : body.instructionsOf block = before ++ instr :: after)
    (hthrows : (body.opcode instr).canThrow = true) :
    body.throwing? block = some instr := by
  have hquiet := hbody.not_canThrow_of_before hhandlers hsplit hthrows
  have hhas : body.hasHandlers block = true := by
    simpa [hasHandlers] using hhandlers
  rw [throwing?, if_pos hhas, hsplit, List.find?_append,
    List.find?_eq_none.mpr (by simpa using hquiet)]
  simp [hthrows]

theorem graph_closed (hbody : body.WellFormed) : body.graph.Closed where
  entry_lt := by
    rw [size_graph]
    exact hbody.entry_lt
  target_lt := by
    intro source target htarget
    rw [size_graph]
    exact hbody.successor_lt (mem_graph_next.mp htarget)

end WellFormed

end Body

end FlowFacts
