/-
The escapes of a value, exactly.  The tracked values are the least set that
holds the value and is closed under the flow that is followed, in whatever
order the values are taken up, and the escapes are the instructions that let a
tracked value out.  A store asks what its array is a copy of, so the search
ends only where copies do.
-/
import FlowFacts.Proofs.CopyChains
import FlowFacts.Proofs.EscapeFlow
import FlowFacts.Proofs.Explanations

namespace FlowFacts

open Relation

namespace Body

variable {body : Body} {value other carrier : ValueId} {instr : InstrId}
variable {steps : Nat} {stack seen : List ValueId}

/-- An instruction lets what it reads out of the method: it hands it to other
code, or it stores into an array that the caller has passed. -/
def Releases (body : Body) (instr : InstrId) : Prop :=
  body.HandsOut (body.opcode instr) ∨
    ∃ array index stored position,
      body.opcode instr = .arrayPut array index stored ∧
        body.Origin array (.argument position)

/-- One step of the flow that is followed: to a phi, and through an
instruction that keeps the value to its copy, to an element read from an array,
or to the array or object of a store.  It does not matter which operand of the
instruction the value is. -/
inductive Spreads (body : Body) (value : ValueId) : ValueId → Prop
  | phi {target : ValueId} {decl : Value} {block : BlockId}
      {operands : List ValueId} (hdecl : body.values[target]? = some decl)
      (hphi : decl.definition = .phi block operands)
      (hoperand : value ∈ operands) : Spreads body value target
  | copy {instr : InstrId} {target : ValueId} (hreads : body.Reads instr value)
      (hkeeps : ¬ body.Releases instr)
      (halias : (body.opcode instr).isAlias = true)
      (houtput : body.output? instr = some target) : Spreads body value target
  | element {instr : InstrId} {array index target : ValueId}
      (hreads : body.Reads instr value) (hkeeps : ¬ body.Releases instr)
      (hget : body.opcode instr = .arrayGet array index)
      (houtput : body.output? instr = some target) : Spreads body value target
  | array {instr : InstrId} {array index stored : ValueId}
      (hreads : body.Reads instr value) (hkeeps : ¬ body.Releases instr)
      (hput : body.opcode instr = .arrayPut array index stored) :
      Spreads body value array
  | object {instr : InstrId} {field : FieldId} {object stored : ValueId}
      (hreads : body.Reads instr value) (hkeeps : ¬ body.Releases instr)
      (hput : body.opcode instr = .instancePut field object stored) :
      Spreads body value object

theorem isSome_argument?_iff : (body.argument? value).isSome = true ↔
    ∃ position, body.Origin value (.argument position) := by
  rw [argument?]
  constructor
  · intro hsome
    split at hsome
    · next position hroot =>
        exact ⟨position, (rootOpcode?_eq_some rfl).mp hroot⟩
    · cases hsome
  · rintro ⟨position, horigin⟩
    rw [(rootOpcode?_eq_some rfl).mpr horigin]
    rfl

theorem letsEscape_iff : body.letsEscape instr = true ↔ body.Releases instr := by
  rw [letsEscape, Releases]
  cases hopcode : body.opcode instr with
  | arrayPut array index stored => simp [HandsOut, isSome_argument?_iff]
  | call kind method arguments => simp [HandsOut]
  | ret _ | throw _ | staticPut _ _ => simp [HandsOut]
  | _ => simp [HandsOut]

theorem letsEscape_eq_false_iff :
    body.letsEscape instr = false ↔ ¬ body.Releases instr := by
  rw [← letsEscape_iff, Bool.not_eq_true]

/-- The flow that is followed is found among the users. -/
theorem mem_flowsInto (hbody : body.Indexed) :
    other ∈ body.flowsInto value ↔ body.Spreads value other := by
  have huser : ∀ user, user ∈ (body.currentUsers value).filter
        (fun user => !body.letsEscape user) ↔
      body.Reads user value ∧ ¬ body.Releases user := by
    intro user
    rw [List.mem_filter, mem_currentUsers hbody, Bool.not_eq_true',
      letsEscape_eq_false_iff]
  rw [flowsInto, List.mem_append, List.mem_filterMap, hbody.mem_phiUsers,
    mem_operandsOf]
  constructor
  · rintro (⟨decl, block, operands, hdecl, hphi, hoperand⟩ | ⟨user, hmem, htarget⟩)
    · exact .phi hdecl hphi hoperand
    · obtain ⟨hreads, hkeeps⟩ := (huser user).mp hmem
      rw [flowTarget?] at htarget
      cases hopcode : body.opcode user with
      | refine _ | move _ | checkCast _ _ =>
          rw [hopcode] at htarget
          exact .copy hreads hkeeps (by rw [hopcode]; rfl) htarget
      | arrayGet array index =>
          rw [hopcode] at htarget
          exact .element hreads hkeeps hopcode htarget
      | arrayPut array index stored =>
          rw [hopcode] at htarget
          obtain rfl := Option.some.inj htarget
          exact .array hreads hkeeps hopcode
      | instancePut field object stored =>
          rw [hopcode] at htarget
          obtain rfl := Option.some.inj htarget
          exact .object hreads hkeeps hopcode
      | _ =>
          rw [hopcode] at htarget
          cases htarget
  · intro hspreads
    cases hspreads with
    | phi hdecl hphi hoperand => exact .inl ⟨_, _, _, hdecl, hphi, hoperand⟩
    | @copy user _ hreads hkeeps halias houtput =>
        refine .inr ⟨user, (huser user).mpr ⟨hreads, hkeeps⟩, ?_⟩
        rw [flowTarget?]
        generalize body.opcode user = opcode at halias
        cases opcode <;> simp_all [Opcode.isAlias]
    | @element user _ _ _ hreads hkeeps hget houtput =>
        refine .inr ⟨user, (huser user).mpr ⟨hreads, hkeeps⟩, ?_⟩
        rw [flowTarget?, hget]
        exact houtput
    | @array user _ _ _ hreads hkeeps hput =>
        refine .inr ⟨user, (huser user).mpr ⟨hreads, hkeeps⟩, ?_⟩
        rw [flowTarget?, hput]
    | @object user _ _ _ hreads hkeeps hput =>
        refine .inr ⟨user, (huser user).mpr ⟨hreads, hkeeps⟩, ?_⟩
        rw [flowTarget?, hput]

/-- Nothing is tracked that the values on the stack do not flow to. -/
theorem reaches_of_mem_trackedFrom (hbody : body.Indexed)
    (hstack : ∀ waiting ∈ stack, ReflTransGen body.Spreads value waiting)
    (hcarrier : carrier ∈ body.trackedFrom steps stack seen) :
    ReflTransGen body.Spreads value carrier := by
  induction steps generalizing stack seen with
  | zero => cases hcarrier
  | succ steps ih =>
      cases stack with
      | nil => cases hcarrier
      | cons top stack =>
          rw [List.forall_mem_cons] at hstack
          rcases List.mem_cons.mp hcarrier with rfl | hlater
          · exact hstack.1
          · refine ih ?_ hlater
            intro waiting hwaiting
            rcases List.mem_append.mp hwaiting with hfound | hold
            · have hflow := (mem_firstUnseen.mp (List.mem_reverse.mp hfound)).1
              exact hstack.1.tail ((mem_flowsInto hbody).mp hflow)
            · exact hstack.2 waiting hold

/-- The tracked values are the least set with the value that the flow does not
lead out of. -/
theorem mem_tracked_iff (haccepted : body.Accepted)
    (hvalue : value < body.values.size) :
    carrier ∈ body.tracked value ↔ ReflTransGen body.Spreads value carrier := by
  have hindexed := haccepted.indexed.1
  constructor
  · apply reaches_of_mem_trackedFrom hindexed
    exact List.forall_mem_singleton.mpr .refl
  · intro hreach
    induction hreach with
    | refl => exact self_mem_tracked value
    | tail _ hspreads ih =>
        exact tracked_closed haccepted hvalue ih
          ((mem_flowsInto hindexed).mpr hspreads)

/-- Where the search stands: values still to be taken up, and all values found
so far. -/
structure Tracking where
  stack : List ValueId
  seen : List ValueId
deriving DecidableEq, Repr

/-- Whether the instruction lets values out is found out in the end.  Only a
store into an array follows copies for it. -/
def EscapeDecided (body : Body) (instr : InstrId) : Prop :=
  ∀ array index stored, body.opcode instr = .arrayPut array index stored →
    ∃ last, body.Resolves array last

theorem CopiesEnd.escapeDecided (hends : body.CopiesEnd) (instr : InstrId) :
    body.EscapeDecided instr :=
  fun array _ _ _ => ⟨_, hends.resolves array⟩

namespace Tracking

/-- The value on top of the stack is taken up, and what it flows into and has
not been found before goes on top.  All its users are asked for this. -/
inductive Step (body : Body) : Tracking → Tracking → Prop
  | takeUp {value : ValueId} {stack seen : List ValueId}
      (hdecided : ∀ user ∈ body.currentUsers value, body.EscapeDecided user) :
      Step body ⟨value :: stack, seen⟩
        ⟨(firstUnseen seen (body.flowsInto value)).reverse ++ stack,
          seen ++ firstUnseen seen (body.flowsInto value)⟩

def start (value : ValueId) : Tracking := ⟨[value], [value]⟩

end Tracking

/-- The search has no endless run. -/
theorem Room.acc (haccepted : body.Accepted)
    (hroom : body.Room steps stack seen) :
    Acc (Function.swap (Tracking.Step body)) ⟨stack, seen⟩ := by
  induction steps generalizing stack seen with
  | zero =>
      constructor
      intro next hstep
      rw [hroom.stack_eq_nil] at hstep
      cases hstep
  | succ steps ih =>
      constructor
      intro next hstep
      cases hstep with
      | takeUp => exact ih (hroom.next haccepted)

/-- The search ends when it has found what it tracks. -/
theorem Room.exists_run (haccepted : body.Accepted) (hends : body.CopiesEnd)
    (hroom : body.Room steps stack seen) (hstack : stack ⊆ seen) :
    ∃ last, ReflTransGen (Tracking.Step body) ⟨stack, seen⟩ ⟨[], last⟩ ∧
      ∀ carrier, carrier ∈ last ↔
        carrier ∈ seen ∨ carrier ∈ body.trackedFrom steps stack seen := by
  induction steps generalizing stack seen with
  | zero =>
      obtain rfl := hroom.stack_eq_nil
      exact ⟨seen, .refl, by simp [trackedFrom]⟩
  | succ steps ih =>
      cases stack with
      | nil => exact ⟨seen, .refl, by simp [trackedFrom]⟩
      | cons value stack =>
          rw [List.cons_subset] at hstack
          have hroom' := hroom.next haccepted
          have hstack' : (firstUnseen seen (body.flowsInto value)).reverse ++ stack ⊆
              seen ++ firstUnseen seen (body.flowsInto value) := by
            intro waiting hwaiting
            rw [List.mem_append, List.mem_reverse] at hwaiting
            rw [List.mem_append]
            exact hwaiting.symm.imp_left fun hold => hstack.2 hold
          obtain ⟨last, hrun, hlast⟩ := ih hroom' hstack'
          refine ⟨last, .head (.takeUp fun user _ => hends.escapeDecided user) hrun, ?_⟩
          intro carrier
          -- what has just been found waits on the stack, so it is tracked later
          have hfound : carrier ∈ firstUnseen seen (body.flowsInto value) →
              carrier ∈ body.trackedFrom steps
                ((firstUnseen seen (body.flowsInto value)).reverse ++ stack)
                (seen ++ firstUnseen seen (body.flowsInto value)) := by
            intro hmem
            apply hroom'.subset_trackedFrom haccepted
            exact List.mem_append_left _ (List.mem_reverse.mpr hmem)
          have htop : carrier = value → carrier ∈ seen := by
            rintro rfl
            exact hstack.1
          rw [hlast carrier, trackedFrom, List.mem_append, List.mem_cons]
          tauto

/-- Every question about a value of the body is answered. -/
theorem escaping_answers (hvalue : value < body.values.size)
    (harmless : EscapeRoute → Bool) : Answers (body.escaping harmless value) := by
  have hfetch : Answers (body.value value) :=
    ⟨_, value_eq_ok.mpr (Array.getElem?_eq_getElem hvalue)⟩
  exact .bind (.bind hfetch fun _ _ => .pure _) fun _ _ => .pure _

/-- The instructions reported for a value are those through which a value that
it spreads to is released on a route that is not harmless.  The search for
these values has no endless run, and where copies end it ends with exactly
these values.  Unless it stands before the definition in the same block, a
constructor call on a new object is always among the instructions. -/
theorem escaping_eq_closure (haccepted : body.Accepted) (hends : body.CopiesEnd)
    (hvalue : value < body.values.size) :
    (∀ harmless : EscapeRoute → Bool, ∃ found,
      body.escaping harmless value = .ok found ∧
        ∀ instr, instr ∈ found ↔ ∃ carrier,
          ReflTransGen body.Spreads value carrier ∧
            body.Reads instr carrier ∧ body.Releases instr ∧
              harmless ⟨carrier, instr⟩ = false) ∧
    Acc (Function.swap (Tracking.Step body)) (Tracking.start value) ∧
    (∃ last, ReflTransGen (Tracking.Step body) (Tracking.start value) ⟨[], last⟩ ∧
      ∀ carrier, carrier ∈ last ↔ ReflTransGen body.Spreads value carrier) ∧
    ∀ program type call constructor arguments,
      body.definingOpcode? value = some (.newInstance type) →
      body.Constructs program value call constructor arguments →
      body.opcode call ≠ .call .direct body.method body.arguments →
      body.Reads call value →
        ∃ found, body.escaping (fun _ => false) value = .ok found ∧
          call ∈ found := by
  have hexact : ∀ harmless : EscapeRoute → Bool, ∃ found,
      body.escaping harmless value = .ok found ∧
        ∀ instr, instr ∈ found ↔ ∃ carrier,
          ReflTransGen body.Spreads value carrier ∧
            body.Reads instr carrier ∧ body.Releases instr ∧
              harmless ⟨carrier, instr⟩ = false := by
    intro harmless
    obtain ⟨found, hfound⟩ := escaping_answers hvalue harmless
    refine ⟨found, hfound, fun instr => ?_⟩
    simp only [mem_escaping haccepted hfound, mem_tracked_iff haccepted hvalue,
      letsEscape_iff]
  have hroom := room_tracked hvalue
  refine ⟨hexact, hroom.acc haccepted, ?_, ?_⟩
  · obtain ⟨last, hrun, hlast⟩ := hroom.exists_run haccepted hends (List.Subset.refl _)
    refine ⟨last, hrun, fun carrier => ?_⟩
    rw [hlast carrier, ← mem_tracked_iff haccepted hvalue, List.mem_singleton]
    constructor
    · rintro (rfl | htracked)
      · exact self_mem_tracked carrier
      · exact htracked
    · exact .inr
  · intro program type call constructor arguments _ hconstructs hother hreads
    obtain ⟨method, hcall, _⟩ := hconstructs
    obtain ⟨found, hfound, hmem⟩ := hexact fun _ => false
    refine ⟨found, hfound, (hmem call).mpr ⟨value, .refl, hreads, .inl ?_, rfl⟩⟩
    rw [hcall] at hother ⊢
    by_contra hself
    obtain ⟨rfl, rfl⟩ : method = body.method ∧ arguments = body.arguments := by
      simpa [HandsOut] using hself
    exact hother rfl

/-- A class with a constructor, a static method, and a static field. -/
def constructible : Program where
  types := #[{ descriptor := .plain "LA;"
               definition := some { parent := none, traits := {}, fields := [0],
                                    methods := [0, 1] } }]
  fields := #[{ holder := 0, name := "f", type := 0
                traits := { isStatic := true } }]
  methods := #[
    { holder := 0, name := "<init>", params := [], returns := 0
      traits := { isConstructor := true } },
    { holder := 0, name := "main", params := [], returns := 0
      traits := { isStatic := true } }]

/-- A new object is stored into the array that the caller has passed, and under
another name into a new array, which goes into a static field. -/
def storedTwice : Body where
  method := 1
  isStatic := true
  values := #[
    { type := .reference (.array 0) .maybe, definition := .instruction 0
      users := [8] },
    { type := .primitive .int, definition := .instruction 1
      users := [5, 6, 8] },
    { type := .reference (.object 0) .nonNull, definition := .instruction 2
      users := [3, 4, 8] },
    { type := .reference (.object 0) .nonNull, definition := .instruction 4
      users := [6] },
    { type := .reference (.array 0) .nonNull, definition := .instruction 5
      users := [6, 7] }]
  instructions := #[⟨0, .argument 0, some 0⟩, ⟨0, .number 1, some 1⟩,
    ⟨0, .newInstance 0, some 2⟩, ⟨0, .call .direct 0 [2], none⟩,
    ⟨0, .move 2, some 3⟩, ⟨0, .newArray 0 1, some 4⟩,
    ⟨0, .arrayPut 4 1 3, none⟩, ⟨0, .staticPut 0 4, none⟩,
    ⟨0, .arrayPut 0 1 2, none⟩, ⟨0, .ret none, none⟩]
  blocks := #[⟨[0, 1, 2, 3, 4, 5, 6, 7, 8, 9], [], []⟩]
  positions := #[0, 1, 2, 3, 4, 5, 6, 7, 8, 9]
  incoming := #[[]]

theorem storedTwice_accepted : storedTwice.Accepted :=
  ⟨1, true,
    [.block, .value 0 (.argument 0) (.reference (.array 0) .maybe),
      .value 0 (.number 1) (.primitive .int),
      .value 0 (.newInstance 0) (.reference (.object 0) .nonNull),
      .push 0 (.call .direct 0 [2]),
      .value 0 (.move 2) (.reference (.object 0) .nonNull),
      .value 0 (.newArray 0 1) (.reference (.array 0) .nonNull),
      .push 0 (.arrayPut 4 1 3), .push 0 (.staticPut 0 4),
      .push 0 (.arrayPut 0 1 2), .push 0 (.ret none)],
    _, _, rfl, by decide +kernel⟩

/-- With the store into the static field declared harmless, the object escapes
through its constructor and through the array of the caller. -/
theorem storedTwice_escaping :
    storedTwice.Accepted ∧ storedTwice.CopiesEnd ∧
      storedTwice.escaping (fun route => route.instr == 7) 2 = .ok [3, 8] ∧
      (∃ carrier, ReflTransGen storedTwice.Spreads 2 carrier ∧
        storedTwice.Reads 8 carrier ∧ storedTwice.Releases 8) ∧
      (¬ ∃ carrier, ReflTransGen storedTwice.Spreads 2 carrier ∧
        storedTwice.Reads 6 carrier ∧ storedTwice.Releases 6) ∧
      Acc (Function.swap (Tracking.Step storedTwice)) (Tracking.start 2) ∧
      (∃ last, ReflTransGen (Tracking.Step storedTwice) (Tracking.start 2)
        ⟨[], last⟩) ∧
      ∃ found, storedTwice.escaping (fun _ => false) 2 = .ok found ∧ 3 ∈ found := by
  have hescaping : storedTwice.escaping (fun route => route.instr == 7) 2 =
      .ok [3, 8] := by decide +kernel
  have hconstructs : storedTwice.Constructs constructible 2 3
      ⟨0, "<init>", [], 0, { isConstructor := true }, {}⟩ [2] :=
    ⟨0, rfl, by decide, rfl, rfl⟩
  have hends : storedTwice.CopiesEnd := copiesEnd_of_root (by decide)
  obtain ⟨hexact, hacc, ⟨last, hrun, _⟩, hconstructor⟩ :=
    escaping_eq_closure storedTwice_accepted hends
      (show 2 < storedTwice.values.size by decide)
  obtain ⟨found, hfound, hmem⟩ := hexact fun route => route.instr == 7
  obtain rfl := Except.ok.inj (hescaping.symm.trans hfound)
  refine ⟨storedTwice_accepted, hends, hescaping, ?_, ?_, hacc, ⟨last, hrun⟩, ?_⟩
  · obtain ⟨carrier, hspreads, hreads, hreleases, _⟩ := (hmem 8).mp (by decide)
    exact ⟨carrier, hspreads, hreads, hreleases⟩
  · rintro ⟨carrier, hspreads, hreads, hreleases⟩
    exact absurd ((hmem 6).mpr ⟨carrier, hspreads, hreads, hreleases, rfl⟩)
      (by decide)
  · exact hconstructor constructible 0 3 _ [2] rfl hconstructs (by decide)
      (by decide)

/-- In every round of a loop, the object of the round before is constructed,
and then a new one is made. -/
def builtNextRound : Body where
  method := 1
  isStatic := true
  values := #[{ type := .reference (.object 0) .nonNull
                definition := .instruction 2, users := [1, 3] }]
  instructions := #[⟨0, .goto 1, none⟩, ⟨1, .call .direct 0 [0], none⟩,
    ⟨1, .newInstance 0, some 0⟩, ⟨1, .branch .eq 0 none 2 1, none⟩,
    ⟨2, .ret none, none⟩]
  blocks := #[⟨[0], [], []⟩, ⟨[1, 2, 3], [], []⟩, ⟨[4], [], []⟩]
  positions := #[0, 0, 1, 2, 0]
  incoming := #[[], [0, 1], [1]]

/-- An object stored into an array that is a copy of itself. -/
def storedInCircle : Body where
  method := 1
  isStatic := true
  values := #[
    { type := .reference (.array 0) .maybe, definition := .instruction 0
      users := [0, 3] },
    { type := .primitive .int, definition := .instruction 1, users := [3] },
    { type := .reference (.object 0) .nonNull, definition := .instruction 2
      users := [3] }]
  instructions := #[⟨0, .move 0, some 0⟩, ⟨0, .number 0, some 1⟩,
    ⟨0, .newInstance 0, some 2⟩, ⟨0, .arrayPut 0 1 2, none⟩,
    ⟨0, .ret none, none⟩]
  blocks := #[⟨[0, 1, 2, 3, 4], [], []⟩]
  positions := #[0, 1, 2, 3, 4]
  incoming := #[[]]

/-- The search for the object does not get past its first user. -/
theorem storedInCircle_untracked :
    storedInCircle.Accepted ∧
      ¬ ∃ last, ReflTransGen (Tracking.Step storedInCircle) (Tracking.start 2)
        ⟨[], last⟩ := by
  refine ⟨⟨1, true,
    [.block, .value 0 (.move 0) (.reference (.array 0) .maybe),
      .value 0 (.number 0) (.primitive .int),
      .value 0 (.newInstance 0) (.reference (.object 0) .nonNull),
      .push 0 (.arrayPut 0 1 2), .push 0 (.ret none)],
    _, _, rfl, by decide +kernel⟩, ?_⟩
  rintro ⟨last, hrun⟩
  obtain ⟨next, hstep, _⟩ := hrun.cases_head.resolve_left (by simp [Tracking.start])
  obtain ⟨hdecided⟩ := hstep
  obtain ⟨array, hlast⟩ := hdecided 3 (by decide) 0 1 2 rfl
  exact not_circle_of_end hlast.1 hlast.2 (.single rfl)

/-- The constructor call comes after the allocation in the next round of the
loop, but is taken to read an older object; so no escape is found at all.  And
where copies do not end, neither does the search. -/
theorem builtNextRound_escaping_eq_nil :
    builtNextRound.Accepted ∧
      builtNextRound.definingOpcode? 0 = some (.newInstance 0) ∧
      (∃ constructor,
        builtNextRound.Constructs constructible 0 1 constructor [0]) ∧
      builtNextRound.opcode 1 ≠
        .call .direct builtNextRound.method builtNextRound.arguments ∧
      1 ∈ builtNextRound.users 0 ∧ 1 ∈ builtNextRound.successors 1 ∧
      builtNextRound.escaping (fun _ => false) 0 = .ok [] ∧
      storedInCircle.Accepted ∧
      ¬ ∃ last, ReflTransGen (Tracking.Step storedInCircle) (Tracking.start 2)
        ⟨[], last⟩ := by
  refine ⟨⟨1, true,
    [.block, .block, .block, .push 0 (.goto 1),
      .push 1 (.call .direct 0 [0]),
      .value 1 (.newInstance 0) (.reference (.object 0) .nonNull),
      .push 1 (.branch .eq 0 none 2 1), .push 2 (.ret none)],
    _, _, rfl, by decide +kernel⟩, rfl, ⟨_, 0, rfl, by decide, rfl, rfl⟩,
    by decide, by decide, by decide, by decide +kernel, storedInCircle_untracked⟩

end Body

end FlowFacts
