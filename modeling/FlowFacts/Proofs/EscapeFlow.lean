/-
Where a value that does not escape can go.  The tracked values hold the value
itself and are closed under the flow from a value to its copies, to phis, to
the arrays and objects that store it, and to elements read back from arrays;
so if nothing escapes, no instruction hands any of these to other code.
-/
import Mathlib.Logic.Relation
import FlowFacts.Escape
import FlowFacts.Proofs.Aliases

namespace FlowFacts

namespace Body

variable {body : Body} {value other carrier : ValueId} {instr : InstrId}
variable {steps : Nat} {stack seen : List ValueId}

/-- An instruction reads a value after its definition: it does not stand
before the definition in the same block. -/
def Reads (body : Body) (instr : InstrId) (value : ValueId) : Prop :=
  value ∈ (body.opcode instr).inputs ∧
    ∀ definition ∈ body.definition? value,
      body.precedes instr definition = false

instance : Decidable (body.Reads instr value) :=
  inferInstanceAs (Decidable (_ ∧ _))

/-- An instruction of this sort hands what it reads to other code.  A call of
the method itself with its own arguments does not. -/
def HandsOut (body : Body) : Opcode → Prop
  | .ret _ | .throw _ | .staticPut .. => True
  | .call _ method arguments =>
      method ≠ body.method ∨ arguments ≠ body.arguments
  | _ => False

/-- One step of a value on its way through a body. -/
inductive FlowsTo (body : Body) (value : ValueId) : ValueId → Prop
  | phi {target : ValueId} {decl : Value} {block : BlockId}
      {operands : List ValueId} (hdecl : body.values[target]? = some decl)
      (hphi : decl.definition = .phi block operands)
      (hoperand : value ∈ operands) : FlowsTo body value target
  | copy {instr : InstrId} {target : ValueId} (hreads : body.Reads instr value)
      (halias : (body.opcode instr).isAlias = true)
      (houtput : body.output? instr = some target) : FlowsTo body value target
  | element {instr : InstrId} {index target : ValueId}
      (hreads : body.Reads instr value)
      (hget : body.opcode instr = .arrayGet value index)
      (houtput : body.output? instr = some target) : FlowsTo body value target
  | array {instr : InstrId} {array index : ValueId}
      (hreads : body.Reads instr value)
      (hput : body.opcode instr = .arrayPut array index value) :
      FlowsTo body value array
  | object {instr : InstrId} {field : FieldId} {object : ValueId}
      (hreads : body.Reads instr value)
      (hput : body.opcode instr = .instancePut field object value) :
      FlowsTo body value object

theorem mem_currentUsers (hbody : body.Indexed) :
    instr ∈ body.currentUsers value ↔ body.Reads instr value := by
  rw [currentUsers, Reads]
  split
  · next definition hdefinition =>
      simp [hdefinition, hbody.mem_users]
  · next hnone =>
      simp [hnone, hbody.mem_users]

theorem letsEscape_of_handsOut (hout : body.HandsOut (body.opcode instr)) :
    body.letsEscape instr = true := by
  rw [letsEscape]
  generalize body.opcode instr = opcode at hout
  cases opcode <;> simp_all [HandsOut]

theorem Reads.lt_size (hreads : body.Reads instr value) :
    instr < body.instructions.size := by
  by_contra hge
  have hnone : body.instructions[instr]? = none :=
    Array.getElem?_eq_none (Nat.le_of_not_lt hge)
  have hinput := hreads.1
  rw [opcode, hnone] at hinput
  cases hinput

theorem lt_size_of_flowTarget? (haccepted : body.Accepted)
    (htarget : body.flowTarget? instr = some other) :
    other < body.values.size := by
  rw [flowTarget?] at htarget
  cases hopcode : body.opcode instr with
  | refine _ | move _ | checkCast _ _ | arrayGet _ _ =>
      rw [hopcode] at htarget
      exact haccepted.output_lt htarget
  | arrayPut _ _ _ | instancePut _ _ _ =>
      -- the container is an operand of the instruction
      rw [hopcode] at htarget
      obtain rfl := Option.some.inj htarget
      exact haccepted.wellFormed.input_lt (by rw [hopcode]; exact .head _)
  | _ =>
      rw [hopcode] at htarget
      cases htarget

theorem lt_size_of_mem_flowsInto (haccepted : body.Accepted)
    (hflow : other ∈ body.flowsInto value) : other < body.values.size := by
  rcases List.mem_append.mp hflow with hphi | htarget
  · exact lt_size_of_mem_operandsOf (haccepted.indexed.1.mem_phiUsers.mp hphi)
  · obtain ⟨user, _, htarget⟩ := List.mem_filterMap.mp htarget
    exact lt_size_of_flowTarget? haccepted htarget

/-- What holds whenever the next value is taken from the stack: the values
found so far are different values of the body, and there are steps left for
those on the stack and those still to be found. -/
structure Room (body : Body) (steps : Nat) (stack seen : List ValueId) :
    Prop where
  seen_nodup : seen.Nodup
  seen_lt : ∀ value ∈ seen, value < body.values.size
  enough : body.values.size + stack.length ≤ steps + seen.length

theorem Room.stack_eq_nil (hroom : body.Room 0 stack seen) : stack = [] := by
  have hseen : seen.length ≤ body.values.size :=
    length_le_of_lt hroom.seen_nodup hroom.seen_lt
  have henough := hroom.enough
  exact List.length_eq_zero_iff.mp (by omega)

theorem Room.next (haccepted : body.Accepted)
    (hroom : body.Room (steps + 1) (value :: stack) seen) :
    body.Room steps
      ((firstUnseen seen (body.flowsInto value)).reverse ++ stack)
      (seen ++ firstUnseen seen (body.flowsInto value)) where
  seen_nodup := by
    refine List.nodup_append.mpr
      ⟨hroom.seen_nodup, firstUnseen_nodup _ _, ?_⟩
    rintro old hold new hnew rfl
    exact (mem_firstUnseen.mp hnew).2 hold
  seen_lt := by
    intro found hfound
    rcases List.mem_append.mp hfound with hseen | hnew
    · exact hroom.seen_lt found hseen
    · exact lt_size_of_mem_flowsInto haccepted (mem_firstUnseen.mp hnew).1
  enough := by
    have henough := hroom.enough
    simp only [List.length_append, List.length_reverse, List.length_cons] at *
    omega

theorem Room.subset_trackedFrom (haccepted : body.Accepted)
    (hroom : body.Room steps stack seen) :
    stack ⊆ body.trackedFrom steps stack seen := by
  induction steps generalizing stack seen with
  | zero => simp [hroom.stack_eq_nil]
  | succ steps ih =>
      cases stack with
      | nil => simp
      | cons value stack =>
          have hrest := ih (hroom.next haccepted)
          rw [trackedFrom]
          refine List.cons_subset_cons value fun waiting hwaiting => ?_
          exact hrest (List.mem_append_right _ hwaiting)

/-- Whatever a tracked value flows into is tracked, unless it has been found
earlier. -/
theorem Room.trackedFrom_closed (haccepted : body.Accepted)
    (hroom : body.Room steps stack seen)
    (hvalue : value ∈ body.trackedFrom steps stack seen)
    (hflow : other ∈ body.flowsInto value) :
    other ∈ seen ∨ other ∈ body.trackedFrom steps stack seen := by
  induction steps generalizing stack seen with
  | zero => simp [trackedFrom] at hvalue
  | succ steps ih =>
      cases stack with
      | nil => simp [trackedFrom] at hvalue
      | cons top stack =>
          have hroom' := hroom.next haccepted
          rw [trackedFrom] at hvalue ⊢
          -- a value found in this step waits on the stack from now on
          have hfound : ∀ found ∈ firstUnseen seen (body.flowsInto top),
              found ∈ body.trackedFrom steps
                ((firstUnseen seen (body.flowsInto top)).reverse ++ stack)
                (seen ++ firstUnseen seen (body.flowsInto top)) := by
            intro found hmem
            apply hroom'.subset_trackedFrom haccepted
            exact List.mem_append_left _ (List.mem_reverse.mpr hmem)
          by_cases hseen : other ∈ seen
          · exact .inl hseen
          right
          apply List.mem_cons_of_mem
          rcases List.mem_cons.mp hvalue with rfl | hlater
          · exact hfound other (mem_firstUnseen.mpr ⟨hflow, hseen⟩)
          · rcases ih hroom' hlater with hmem | hmem
            · rcases List.mem_append.mp hmem with hold | hnew
              · exact absurd hold hseen
              · exact hfound other hnew
            · exact hmem

theorem room_tracked (hvalue : value < body.values.size) :
    body.Room (body.values.size + 1) [value] [value] where
  seen_nodup := by simp
  seen_lt := by simpa using hvalue
  enough := by simp

theorem self_mem_tracked (value : ValueId) : value ∈ body.tracked value := by
  simp [tracked, trackedFrom]

theorem tracked_closed (haccepted : body.Accepted)
    (hvalue : value < body.values.size) (hcarrier : carrier ∈ body.tracked value)
    (hflow : other ∈ body.flowsInto carrier) : other ∈ body.tracked value := by
  rcases (room_tracked hvalue).trackedFrom_closed haccepted hcarrier hflow with
    hseen | htracked
  · obtain rfl := List.mem_singleton.mp hseen
    exact self_mem_tracked other
  · exact htracked

/-- The instructions reported for a value are those through which a tracked
value escapes on a route that is not harmless. -/
theorem mem_escaping (haccepted : body.Accepted)
    {harmless : EscapeRoute → Bool} {found : List InstrId}
    (hescaping : body.escaping harmless value = .ok found) :
    instr ∈ found ↔ ∃ carrier ∈ body.tracked value,
      body.Reads instr carrier ∧ body.letsEscape instr = true ∧
        harmless ⟨carrier, instr⟩ = false := by
  obtain ⟨routes, hroutes, hfound⟩ := exists_of_bind hescaping
  obtain ⟨_, _, hroutes⟩ := exists_of_bind hroutes
  obtain rfl := Except.ok.inj hroutes
  obtain rfl := Except.ok.inj hfound
  simp only [List.mem_filter, List.mem_range, List.any_eq_true, beq_iff_eq,
    List.mem_flatMap, List.mem_map, escapingUsers, Bool.not_eq_true',
    mem_currentUsers haccepted.indexed.1]
  constructor
  · rintro ⟨_, route, ⟨⟨carrier, htracked, user, ⟨hreads, hescape⟩, rfl⟩,
      hharm⟩, rfl⟩
    exact ⟨carrier, htracked, hreads, hescape, hharm⟩
  · rintro ⟨carrier, htracked, hreads, hescape, hharm⟩
    exact ⟨hreads.lt_size, ⟨carrier, instr⟩,
      ⟨⟨carrier, htracked, instr, ⟨hreads, hescape⟩, rfl⟩, hharm⟩, rfl⟩

theorem value_lt_of_escaping {harmless : EscapeRoute → Bool}
    {found : List InstrId}
    (hescaping : body.escaping harmless value = .ok found) :
    value < body.values.size := by
  obtain ⟨routes, hroutes, _⟩ := exists_of_bind hescaping
  obtain ⟨content, hvalue, _⟩ := exists_of_bind hroutes
  exact (Array.getElem?_eq_some_iff.mp (value_eq_ok.mp hvalue)).1

/-- Where nothing that reads a value lets it escape, its flow is followed. -/
theorem FlowsTo.mem_flowsInto (hflows : body.FlowsTo value other)
    (hbody : body.Indexed)
    (hstays : ∀ instr, body.Reads instr value → body.letsEscape instr = false) :
    other ∈ body.flowsInto value := by
  have hthrough : ∀ user, body.Reads user value →
      body.flowTarget? user = some other → other ∈ body.flowsInto value := by
    intro user hreads htarget
    refine List.mem_append_right _ (List.mem_filterMap.mpr ⟨user, ?_, htarget⟩)
    refine List.mem_filter.mpr ⟨(mem_currentUsers hbody).mpr hreads, ?_⟩
    simp [hstays user hreads]
  cases hflows with
  | phi hdecl hphi hoperand =>
      refine List.mem_append_left _ (hbody.mem_phiUsers.mpr ?_)
      exact mem_operandsOf.mpr ⟨_, _, _, hdecl, hphi, hoperand⟩
  | @copy instr _ hreads halias houtput =>
      refine hthrough instr hreads ?_
      rw [flowTarget?]
      generalize body.opcode instr = opcode at halias
      cases opcode <;> simp_all [Opcode.isAlias]
  | @element instr _ _ hreads hget houtput =>
      exact hthrough instr hreads (by rw [flowTarget?, hget]; exact houtput)
  | @array instr _ _ hreads hput =>
      exact hthrough instr hreads (by rw [flowTarget?, hput])
  | @object instr _ _ hreads hput =>
      exact hthrough instr hreads (by rw [flowTarget?, hput])

theorem mem_tracked_of_flows (haccepted : body.Accepted)
    (hvalue : value < body.values.size)
    (hstays : ∀ carrier ∈ body.tracked value, ∀ instr,
      body.Reads instr carrier → body.letsEscape instr = false)
    (hcarrier : Relation.ReflTransGen body.FlowsTo value carrier) :
    carrier ∈ body.tracked value := by
  induction hcarrier with
  | refl => exact self_mem_tracked value
  | tail _ hflows ih =>
      have hflow := hflows.mem_flowsInto haccepted.indexed.1 (hstays _ ih)
      exact tracked_closed haccepted hvalue ih hflow

/-- If a value does not escape, then no instruction hands out a value that it
flows to. -/
theorem not_handsOut_of_escaping_eq_nil (haccepted : body.Accepted)
    (hescaping : body.escaping (fun _ => false) value = .ok [])
    (hcarrier : Relation.ReflTransGen body.FlowsTo value carrier)
    (hreads : body.Reads instr carrier) :
    ¬ body.HandsOut (body.opcode instr) := by
  have hstays : ∀ carrier ∈ body.tracked value, ∀ instr,
      body.Reads instr carrier → body.letsEscape instr = false := by
    intro carrier htracked instr hreads
    by_contra hescape
    rw [Bool.not_eq_false] at hescape
    have hfound := (mem_escaping haccepted hescaping).mpr
      ⟨carrier, htracked, hreads, hescape, rfl⟩
    cases hfound
  have htracked := mem_tracked_of_flows haccepted
    (value_lt_of_escaping hescaping) hstays hcarrier
  intro hout
  have hstay := hstays carrier htracked instr hreads
  rw [letsEscape_of_handsOut hout] at hstay
  cases hstay

/-- A text goes into an array; the element read back goes through a phi and a
copy into an object, and that is compared with null. -/
def keptText : Body where
  method := 0
  isStatic := true
  values := #[
    { type := .primitive .int, definition := .instruction 0, users := [3] },
    { type := .primitive .int, definition := .instruction 1, users := [4, 5] },
    { type := .reference (.object 0) .nonNull, definition := .instruction 2
      users := [4] },
    { type := .reference (.array 1) .nonNull, definition := .instruction 3
      users := [4, 5] },
    { type := .reference (.object 0) .maybe, definition := .instruction 5
      users := [], phiUsers := [5] },
    { type := .reference (.object 0) .maybe, definition := .phi 1 [4]
      users := [7] },
    { type := .reference (.object 0) .maybe, definition := .instruction 7
      users := [9] },
    { type := .reference (.object 2) .nonNull, definition := .instruction 8
      users := [9, 10] }]
  instructions := #[⟨0, .number 1, some 0⟩, ⟨0, .number 0, some 1⟩,
    ⟨0, .text "x", some 2⟩, ⟨0, .newArray 1 0, some 3⟩,
    ⟨0, .arrayPut 3 1 2, none⟩, ⟨0, .arrayGet 3 1, some 4⟩,
    ⟨0, .goto 1, none⟩, ⟨1, .move 5, some 6⟩, ⟨1, .newInstance 2, some 7⟩,
    ⟨1, .instancePut 0 7 6, none⟩, ⟨1, .branch .eq 7 none 2 2, none⟩,
    ⟨2, .ret none, none⟩]
  blocks := #[⟨[0, 1, 2, 3, 4, 5, 6], [], []⟩, ⟨[7, 8, 9, 10], [5], []⟩,
    ⟨[11], [], []⟩]
  positions := #[0, 1, 2, 3, 4, 5, 6, 0, 1, 2, 3, 0]
  incoming := #[[], [0], [1]]

theorem keptText_accepted : keptText.Accepted :=
  ⟨0, true,
    [.block, .block, .block, .value 0 (.number 1) (.primitive .int),
      .value 0 (.number 0) (.primitive .int),
      .value 0 (.text "x") (.reference (.object 0) .nonNull),
      .value 0 (.newArray 1 0) (.reference (.array 1) .nonNull),
      .push 0 (.arrayPut 3 1 2),
      .value 0 (.arrayGet 3 1) (.reference (.object 0) .maybe),
      .push 0 (.goto 1), .phi 1 (.reference (.object 0) .maybe),
      .operands 5 [4], .value 1 (.move 5) (.reference (.object 0) .maybe),
      .value 1 (.newInstance 2) (.reference (.object 2) .nonNull),
      .push 1 (.instancePut 0 7 6), .push 1 (.branch .eq 7 none 2 2),
      .push 2 (.ret none)],
    _, _, rfl, by decide +kernel⟩

theorem keptText_not_handsOut :
    keptText.Accepted ∧ keptText.escaping (fun _ => false) 2 = .ok [] ∧
      Relation.ReflTransGen keptText.FlowsTo 2 7 ∧ keptText.Reads 10 7 ∧
      ¬ keptText.HandsOut (keptText.opcode 10) := by
  have hescaping : keptText.escaping (fun _ => false) 2 = .ok [] := by
    decide +kernel
  have hput : keptText.Reads 4 2 := by decide
  have hget : keptText.Reads 5 3 := by decide
  have hmove : keptText.Reads 7 5 := by decide
  have hstore : keptText.Reads 9 6 := by decide
  have harray : keptText.FlowsTo 2 3 := .array hput rfl
  have helement : keptText.FlowsTo 3 4 := .element hget rfl rfl
  have hphi : keptText.FlowsTo 4 5 := .phi rfl rfl (.head _)
  have hcopy : keptText.FlowsTo 5 6 := .copy hmove rfl rfl
  have hobject : keptText.FlowsTo 6 7 := .object hstore rfl
  have hcarrier : Relation.ReflTransGen keptText.FlowsTo 2 7 :=
    ((((Relation.ReflTransGen.single harray).tail helement).tail hphi).tail
      hcopy).tail hobject
  have hreads : keptText.Reads 10 7 := by decide
  exact ⟨keptText_accepted, hescaping, hcarrier, hreads,
    not_handsOut_of_escaping_eq_nil keptText_accepted hescaping hcarrier hreads⟩

/-- Steps that are not followed: into an array when it is created, out of the
field of an object, to another name of the array or object that stores the
value, and to a copy made before the definition in the same block. -/
inductive FlowsUnseen (body : Body) (value : ValueId) : ValueId → Prop
  | filled {instr : InstrId} {type : TypeId} {elements : List ValueId}
      {target : ValueId} (hreads : body.Reads instr value)
      (hfilled : body.opcode instr = .filledArray type elements)
      (houtput : body.output? instr = some target) : FlowsUnseen body value target
  | field {instr : InstrId} {field : FieldId} {target : ValueId}
      (hreads : body.Reads instr value)
      (hget : body.opcode instr = .instanceGet field value)
      (houtput : body.output? instr = some target) : FlowsUnseen body value target
  | renamed {instr : InstrId} {container name : ValueId}
      (hreads : body.Reads instr value)
      (hput : (∃ index, body.opcode instr = .arrayPut container index value) ∨
        ∃ field, body.opcode instr = .instancePut field container value)
      (hname : body.root name = body.root container) :
      FlowsUnseen body value name
  | early {instr definition : InstrId} {target : ValueId}
      (hinput : value ∈ (body.opcode instr).inputs)
      (halias : (body.opcode instr).isAlias = true)
      (houtput : body.output? instr = some target)
      (hdefinition : body.definition? value = some definition)
      (hbefore : body.precedes instr definition = true) :
      FlowsUnseen body value target

/-- A text that is copied before its definition, and then stored where an
array is created, in an object, and in an array with two names. -/
def leakedText : Body where
  method := 0
  isStatic := true
  values := #[
    { type := .reference (.object 0) .nonNull, definition := .instruction 0
      users := [11] },
    { type := .reference (.object 0) .nonNull, definition := .instruction 1
      users := [0, 2, 4, 10] },
    { type := .reference (.array 1) .nonNull, definition := .instruction 2
      users := [12] },
    { type := .reference (.object 2) .nonNull, definition := .instruction 3
      users := [4, 5] },
    { type := .reference (.object 0) .maybe, definition := .instruction 5
      users := [13] },
    { type := .primitive .int, definition := .instruction 6, users := [8] },
    { type := .primitive .int, definition := .instruction 7, users := [10] },
    { type := .reference (.array 1) .nonNull, definition := .instruction 8
      users := [9, 14] },
    { type := .reference (.array 1) .nonNull, definition := .instruction 9
      users := [10] }]
  instructions := #[⟨0, .move 1, some 0⟩, ⟨0, .text "x", some 1⟩,
    ⟨0, .filledArray 1 [1], some 2⟩, ⟨0, .newInstance 2, some 3⟩,
    ⟨0, .instancePut 0 3 1, none⟩, ⟨0, .instanceGet 0 3, some 4⟩,
    ⟨0, .number 1, some 5⟩, ⟨0, .number 0, some 6⟩,
    ⟨0, .newArray 1 5, some 7⟩, ⟨0, .move 7, some 8⟩,
    ⟨0, .arrayPut 8 6 1, none⟩, ⟨0, .staticPut 1 0, none⟩,
    ⟨0, .staticPut 1 2, none⟩, ⟨0, .staticPut 1 4, none⟩,
    ⟨0, .ret (some 7), none⟩]
  blocks := #[⟨[0, 1, 2, 3, 4, 5, 6, 7, 8, 9, 10, 11, 12, 13, 14], [], []⟩]
  positions := #[0, 1, 2, 3, 4, 5, 6, 7, 8, 9, 10, 11, 12, 13, 14]
  incoming := #[[]]

theorem leakedText_accepted : leakedText.Accepted :=
  ⟨0, true,
    [.block, .value 0 (.move 1) (.reference (.object 0) .nonNull),
      .value 0 (.text "x") (.reference (.object 0) .nonNull),
      .value 0 (.filledArray 1 [1]) (.reference (.array 1) .nonNull),
      .value 0 (.newInstance 2) (.reference (.object 2) .nonNull),
      .push 0 (.instancePut 0 3 1),
      .value 0 (.instanceGet 0 3) (.reference (.object 0) .maybe),
      .value 0 (.number 1) (.primitive .int),
      .value 0 (.number 0) (.primitive .int),
      .value 0 (.newArray 1 5) (.reference (.array 1) .nonNull),
      .value 0 (.move 7) (.reference (.array 1) .nonNull),
      .push 0 (.arrayPut 8 6 1), .push 0 (.staticPut 1 0),
      .push 0 (.staticPut 1 2), .push 0 (.staticPut 1 4),
      .push 0 (.ret (some 7))],
    _, _, rfl, by decide +kernel⟩

/-- No way out of the body is found for the text, though it leaves on every
kind of step that is not followed. -/
theorem leakedText_escaping_eq_nil :
    leakedText.Accepted ∧ leakedText.escaping (fun _ => false) 1 = .ok [] ∧
      (leakedText.FlowsUnseen 1 0 ∧ leakedText.Reads 11 0 ∧
        leakedText.HandsOut (leakedText.opcode 11)) ∧
      (leakedText.FlowsUnseen 1 2 ∧ leakedText.Reads 12 2 ∧
        leakedText.HandsOut (leakedText.opcode 12)) ∧
      (leakedText.FlowsTo 1 3 ∧ leakedText.FlowsUnseen 3 4 ∧
        leakedText.Reads 13 4 ∧
        leakedText.HandsOut (leakedText.opcode 13)) ∧
      leakedText.FlowsUnseen 1 7 ∧ leakedText.Reads 14 7 ∧
        leakedText.HandsOut (leakedText.opcode 14) := by
  have hescaping : leakedText.escaping (fun _ => false) 1 = .ok [] := by
    decide +kernel
  have hearly : 1 ∈ (leakedText.opcode 0).inputs := by decide
  have hfill : leakedText.Reads 2 1 := by decide
  have hstore : leakedText.Reads 4 1 := by decide
  have hget : leakedText.Reads 5 3 := by decide
  have hput : leakedText.Reads 10 1 := by decide
  refine ⟨leakedText_accepted, hescaping, ⟨?_, by decide, trivial⟩,
    ⟨?_, by decide, trivial⟩, ⟨.object hstore rfl, ?_, by decide, trivial⟩,
    ?_, by decide, trivial⟩
  · exact .early hearly rfl rfl rfl (by decide)
  · exact .filled hfill rfl rfl
  · exact .field hget rfl rfl
  · exact .renamed hput (.inl ⟨6, rfl⟩) (by decide)

end Body

end FlowFacts
