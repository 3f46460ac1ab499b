/-
Which drafts become bodies.  Commands that name blocks and phis of the draft
go through; the draft they give is accepted exactly if it is well formed, and
the error of a refused draft names a defect that the draft has.
-/
import FlowFacts.Proofs.Accepted

namespace FlowFacts

namespace Draft

variable {draft next : Draft} {block : BlockId} {content : Block}

/-- Does the draft have the block or the phi that a command names? -/
def fits (draft : Draft) : Command → Bool
  | .block => true
  | .push block _ | .value block _ _ | .phi block _ | .handler block _ =>
      block < draft.blocks.size
  | .operands phi _ =>
      (draft.values[phi]?).any fun decl => decl.definition.isPhi

/-- Does every command fit the draft that the commands before it give? -/
def fitsAll (draft : Draft) : List Command → Bool
  | [] => true
  | command :: rest =>
      draft.fits command &&
        match draft.step command with
        | .ok (_, next) => fitsAll next rest
        | .error _ => true

theorem updateBlock_answers (hblock : block < draft.blocks.size)
    (change : Block → Block) : Answers (draft.updateBlock block change) :=
  ⟨_, updateBlock_eq_ok.mpr ⟨hblock, rfl⟩⟩

theorem append_answers (hblock : block < draft.blocks.size) (opcode : Opcode)
    (output : Option ValueId) : Answers (draft.append block opcode output) := by
  apply updateBlock_answers
  exact hblock

/-- A command that fits goes through. -/
theorem step_answers {command : Command} (hfits : draft.fits command = true) :
    Answers (draft.step command) := by
  cases command with
  | block => exact .ok _
  | push block opcode | value block opcode type =>
      exact .bind (append_answers (of_decide_eq_true hfits) opcode _)
        fun _ _ => .pure _
  | phi block type | handler block handler =>
      exact .bind (updateBlock_answers (of_decide_eq_true hfits) _)
        fun _ _ => .pure _
  | operands phi operands =>
      rw [fits] at hfits
      rw [step]
      cases hdecl : draft.values[phi]? with
      | none => simp [hdecl] at hfits
      | some decl =>
          cases hdefinition : decl.definition with
          | instruction instr =>
              simp [hdecl, hdefinition, Definition.isPhi] at hfits
          | phi block old =>
              simp only [hdefinition]
              exact .ok _

theorem run_answers {commands : List Command}
    (hfits : draft.fitsAll commands = true) : Answers (draft.run commands) := by
  induction commands generalizing draft with
  | nil => exact .ok _
  | cons command rest ih =>
      rw [fitsAll, Bool.and_eq_true] at hfits
      refine .bind (step_answers hfits.1) fun made hstep => ?_
      rw [hstep] at hfits
      exact .bind (ih hfits.2) fun _ _ => .pure _

/-- What makes a draft the draft of a body. -/
structure WellFormed (draft : Draft) : Prop where
  nonempty : draft.blocks ≠ #[]
  sound : ∀ {block : BlockId} {content : Block},
    draft.blocks[block]? = some content →
      content.Sound draft.opcode draft.blocks.size
  input_lt : ∀ instruction ∈ draft.instructions,
    ∀ value ∈ instruction.opcode.inputs, value < draft.values.size
  operand_lt : ∀ decl ∈ draft.values,
    ∀ value ∈ decl.definition.operands, value < draft.values.size

/-- The draft has the defect that an error reports. -/
inductive HasDefect (draft : Draft) : DraftError → Prop
  | empty (hempty : draft.blocks = #[]) : HasDefect draft .empty
  | noInstruction {block : BlockId} {content : Block}
      (hcontent : draft.blocks[block]? = some content)
      (hnone : content.instructions = []) :
      HasDefect draft (.missingTerminator block)
  | noTerminator {block : BlockId} {content : Block} {last : InstrId}
      (hcontent : draft.blocks[block]? = some content)
      (hlast : content.instructions.getLast? = some last)
      (hopcode : (draft.opcode last).isTerminator = false) :
      HasDefect draft (.missingTerminator block)
  | earlyTerminator {block : BlockId} {content : Block} {instr last : InstrId}
      {before after : List InstrId}
      (hcontent : draft.blocks[block]? = some content)
      (hsplit : content.instructions = before ++ instr :: after ++ [last])
      (hopcode : (draft.opcode instr).isTerminator = true) :
      HasDefect draft (.misplacedTerminator block instr)
  | normalTarget {block : BlockId} {content : Block} {last : InstrId}
      {target : BlockId} (hcontent : draft.blocks[block]? = some content)
      (hlast : content.instructions.getLast? = some last)
      (htarget : target ∈ (draft.opcode last).targets)
      (hge : draft.blocks.size ≤ target) :
      HasDefect draft (.danglingTarget block target)
  | handlerTarget {block : BlockId} {content : Block} {handler : Handler}
      (hcontent : draft.blocks[block]? = some content)
      (hhandler : handler ∈ content.handlers)
      (hge : draft.blocks.size ≤ handler.target) :
      HasDefect draft (.danglingTarget block handler.target)
  | twoThrowing {block : BlockId} {content : Block} {first second : InstrId}
      (hcontent : draft.blocks[block]? = some content)
      (hhandlers : content.handlers ≠ [])
      (htwo : [first, second].Sublist content.instructions)
      (hfirst : (draft.opcode first).canThrow = true)
      (hsecond : (draft.opcode second).canThrow = true) :
      HasDefect draft (.severalThrowing block)
  | input {instruction : Instruction} {value : ValueId}
      (hinstruction : instruction ∈ draft.instructions)
      (hvalue : value ∈ instruction.opcode.inputs)
      (hge : draft.values.size ≤ value) : HasDefect draft (.undefinedValue value)
  | operand {decl : ValueDecl} {value : ValueId} (hdecl : decl ∈ draft.values)
      (hvalue : value ∈ decl.definition.operands)
      (hge : draft.values.size ≤ value) : HasDefect draft (.undefinedValue value)

/-- A well-formed draft has no defect. -/
theorem WellFormed.not_hasDefect (hdraft : draft.WellFormed)
    {error : DraftError} : ¬ draft.HasDefect error := by
  intro hdefect
  cases hdefect with
  | empty hempty => exact hdraft.nonempty hempty
  | noInstruction hcontent hnone =>
      obtain ⟨before, last, hsplit, _⟩ := (hdraft.sound hcontent).ends
      simp [hnone] at hsplit
  | noTerminator hcontent hlast hopcode =>
      obtain ⟨before, last, hsplit, hends, _⟩ := (hdraft.sound hcontent).ends
      rw [hsplit, List.getLast?_concat, Option.some.injEq] at hlast
      rw [hlast, hopcode] at hends
      cases hends
  | earlyTerminator hcontent hsplit hopcode =>
      obtain ⟨before, last, hsplit', _, hbefore⟩ := (hdraft.sound hcontent).ends
      rw [hsplit] at hsplit'
      have hsame := (List.append_inj' hsplit' rfl).1
      have hnot := hbefore _ (hsame ▸ List.mem_append_right _ List.mem_cons_self)
      rw [hopcode] at hnot
      cases hnot
  | normalTarget hcontent hlast htarget hge =>
      exact Nat.not_lt.mpr hge
        ((hdraft.sound hcontent).target_lt hlast _ htarget)
  | handlerTarget hcontent hhandler hge =>
      exact Nat.not_lt.mpr hge ((hdraft.sound hcontent).handler_lt _ hhandler)
  | @twoThrowing _ content first second hcontent hhandlers htwo hfirst hsecond =>
      have honce := (hdraft.sound hcontent).throws_once hhandlers
      have hthrowing := htwo.filter fun instr => (draft.opcode instr).canThrow
      have hlength := hthrowing.length_le
      simp only [List.filter_cons, hfirst, hsecond, ↓reduceIte, List.filter_nil,
        List.length_cons, List.length_nil] at hlength
      omega
  | input hinstruction hvalue hge =>
      exact Nat.not_lt.mpr hge (hdraft.input_lt _ hinstruction _ hvalue)
  | operand hdecl hvalue hge =>
      exact Nat.not_lt.mpr hge (hdraft.operand_lt _ hdecl _ hvalue)

theorem hasDefect_of_throwing (hcontent : draft.blocks[block]? = some content)
    (hhandlers : content.handlers ≠ [])
    (hseveral : 1 < (content.instructions.filter fun instr =>
      (draft.opcode instr).canThrow).length) :
    draft.HasDefect (.severalThrowing block) := by
  match hthrowing : content.instructions.filter fun instr =>
      (draft.opcode instr).canThrow with
  | [] | [_] => simp [hthrowing] at hseveral
  | first :: second :: rest =>
      have hsub : (first :: second :: rest).Sublist content.instructions := by
        rw [← hthrowing]
        exact List.filter_sublist
      have hthrows : ∀ instr ∈ first :: second :: rest,
          (draft.opcode instr).canThrow = true := by
        intro instr hinstr
        rw [← hthrowing] at hinstr
        exact (List.mem_filter.mp hinstr).2
      have htwo : [first, second].Sublist (first :: second :: rest) := by simp
      exact .twoThrowing hcontent hhandlers (htwo.trans hsub)
        (hthrows first (by simp)) (hthrows second (by simp))

/-- The error about a block names a defect of the block. -/
theorem hasDefect_of_blockError? {error : DraftError}
    (hblock : block < draft.blocks.size)
    (herror : draft.blockError? block = some error) : draft.HasDefect error := by
  have hcontent := Array.getElem?_eq_getElem hblock
  have hget : draft.blocks.getD block {} = draft.blocks[block] := by
    simp [hcontent]
  generalize draft.blocks[block] = content at hcontent hget
  simp only [blockError?, hget] at herror
  split at herror
  · next hlast =>
      obtain rfl := Option.some.inj herror
      exact .noInstruction hcontent (List.getLast?_eq_none_iff.mp hlast)
  · next last hlast =>
      split at herror
      · next hopcode =>
          obtain rfl := Option.some.inj herror
          exact .noTerminator hcontent hlast (by simpa using hopcode)
      · split at herror
        · next instr hfound =>
            obtain rfl := Option.some.inj herror
            obtain ⟨before, after, hsplit⟩ :=
              List.append_of_mem (List.mem_of_find?_eq_some hfound)
            obtain ⟨init, hinit⟩ := List.getLast?_eq_some_iff.mp hlast
            rw [hinit, List.dropLast_concat] at hsplit
            rw [hsplit] at hinit
            have hopcode := List.find?_some hfound
            exact .earlyTerminator hcontent hinit hopcode
        · split at herror
          · next target hfound =>
              obtain rfl := Option.some.inj herror
              have hfar := List.find?_some hfound
              have hge : draft.blocks.size ≤ target := of_decide_eq_true hfar
              rcases List.mem_append.mp (List.mem_of_find?_eq_some hfound) with
                hnormal | hcaught
              · exact .normalTarget hcontent hlast hnormal hge
              · obtain ⟨handler, hhandler, rfl⟩ := List.mem_map.mp hcaught
                exact .handlerTarget hcontent hhandler hge
          · split at herror
            · next hseveral =>
                obtain rfl := Option.some.inj herror
                rw [Bool.and_eq_true, decide_eq_true_eq] at hseveral
                exact hasDefect_of_throwing hcontent (by simpa using hseveral.1)
                  hseveral.2
            · cases herror

theorem undefined?_eq_some {values : List ValueId} {error : DraftError}
    (herror : draft.undefined? values = some error) :
    ∃ value ∈ values, draft.values.size ≤ value ∧
      error = .undefinedValue value := by
  obtain ⟨value, hfound, rfl⟩ := Option.map_eq_some_iff.mp herror
  have hge := List.find?_some hfound
  exact ⟨value, List.mem_of_find?_eq_some hfound, of_decide_eq_true hge, rfl⟩

/-- The error of a draft names a defect of the draft. -/
theorem hasDefect_of_error? {error : DraftError}
    (herror : draft.error? = some error) : draft.HasDefect error := by
  rw [error?] at herror
  split at herror
  · next hempty =>
      obtain rfl := Option.some.inj herror
      exact .empty (by simpa using hempty)
  · simp only [Option.orElse_eq_orElse, Option.orElse_eq_or,
      Option.or_eq_some_iff] at herror
    -- the first error found: of a block, of an instruction, or of a phi
    rcases herror with hblock | ⟨_, hinput | ⟨_, hoperand⟩⟩
    · obtain ⟨block, hmem, hblock⟩ := List.exists_of_findSome?_eq_some hblock
      exact hasDefect_of_blockError? (List.mem_range.mp hmem) hblock
    · obtain ⟨instruction, hmem, hinput⟩ :=
        List.exists_of_findSome?_eq_some hinput
      obtain ⟨value, hvalue, hge, rfl⟩ := undefined?_eq_some hinput
      exact .input (Array.mem_toList_iff.mp hmem) hvalue hge
    · obtain ⟨decl, hmem, hoperand⟩ :=
        List.exists_of_findSome?_eq_some hoperand
      obtain ⟨value, hvalue, hge, rfl⟩ := undefined?_eq_some hoperand
      exact .operand (Array.mem_toList_iff.mp hmem) hvalue hge

/-- Nothing is found wrong exactly with the well-formed drafts. -/
theorem error?_eq_none_iff : draft.error? = none ↔ draft.WellFormed := by
  constructor
  · intro hnone
    obtain ⟨hsize, hblocks, hinputs, hoperands⟩ := error?_eq_none hnone
    refine ⟨Array.size_pos_iff.mp hsize, ?_, hinputs, hoperands⟩
    intro block content hcontent
    have hlt := (Array.getElem?_eq_some_iff.mp hcontent).1
    exact sound_of_blockError?_eq_none (hblocks block hlt) hcontent
  · intro hdraft
    cases herror : draft.error? with
    | none => rfl
    | some error => exact absurd (hasDefect_of_error? herror) hdraft.not_hasDefect

/-- Commands on blocks and phis of the draft give a draft that is accepted
exactly if it is well formed; a refusal names a defect. -/
theorem build_eq_ok_iff_wellFormed {method : MethodId} {isStatic : Bool}
    {commands : List Command}
    (hfits : fitsAll { method, isStatic } commands = true) :
    ∃ given draft, run { method, isStatic } commands = .ok (given, draft) ∧
      ((∃ body, draft.build = .ok body) ↔ draft.WellFormed) ∧
      ∀ error, draft.build = .error error → draft.HasDefect error := by
  obtain ⟨⟨given, draft⟩, hrun⟩ := run_answers hfits
  refine ⟨given, draft, hrun, ?_, ?_⟩
  · rw [← error?_eq_none_iff, build]
    cases draft.error? <;> simp
  · intro error hbuild
    rw [build] at hbuild
    cases herror : draft.error? with
    | none => simp [herror] at hbuild
    | some found =>
        simp only [herror, Except.error.injEq] at hbuild
        exact hbuild ▸ hasDefect_of_error? herror

/-- A division under a handler that starts the loop anew. -/
def retriedDivision : List Command :=
  [.block, .block, .block, .value 0 (.argument 0) (.primitive .int),
    .push 0 (.goto 1), .phi 1 (.primitive .int), .operands 1 [0, 2],
    .value 1 (.binary .div 0 1) (.primitive .int), .handler 1 ⟨none, 1⟩,
    .push 1 (.branch .eq 2 none 1 2), .push 2 (.ret (some 2))]

/-- The same commands are accepted alone, and refused when the handler gets a
second target that does not exist. -/
theorem retriedDivision_wellFormed :
    fitsAll ⟨0, true, #[], #[], #[]⟩ retriedDivision = true ∧
      (∃ given draft, run ⟨0, true, #[], #[], #[]⟩ retriedDivision =
        .ok (given, draft) ∧ draft.WellFormed) ∧
      ∃ given draft, run ⟨0, true, #[], #[], #[]⟩
          (retriedDivision ++ [.handler 1 ⟨none, 7⟩]) = .ok (given, draft) ∧
        draft.HasDefect (.danglingTarget 1 7) := by
  have hfits : fitsAll ⟨0, true, #[], #[], #[]⟩ retriedDivision = true := rfl
  have hmore : fitsAll ⟨0, true, #[], #[], #[]⟩
      (retriedDivision ++ [.handler 1 ⟨none, 7⟩]) = true := rfl
  refine ⟨hfits, ?_, ?_⟩
  · obtain ⟨given, draft, hrun, hiff, _⟩ := build_eq_ok_iff_wellFormed hfits
    refine ⟨given, draft, hrun, hiff.mp ?_⟩
    obtain ⟨_, rfl⟩ := Prod.mk.inj (Except.ok.inj hrun)
    exact ⟨_, rfl⟩
  · obtain ⟨given, draft, hrun, _, herror⟩ := build_eq_ok_iff_wellFormed hmore
    refine ⟨given, draft, hrun, herror _ ?_⟩
    obtain ⟨_, rfl⟩ := Prod.mk.inj (Except.ok.inj hrun)
    rfl

end Draft

end FlowFacts
