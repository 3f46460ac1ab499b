/-
Chains of copies.  A copy may name any value of the body, itself or a later
one included, so a chain of copies may run in a circle.  It ends exactly if it
does not, and then at the value behind all copies.
-/
import Mathlib.Logic.Relation
import FlowFacts.Proofs.Accepted
import FlowFacts.Proofs.Copies

namespace FlowFacts

namespace Body

open Relation

variable {body : Body} {value name last : ValueId}

def Renames (body : Body) (value source : ValueId) : Prop :=
  body.copied? value = some source

theorem follow_reached (steps : Nat) (value : ValueId) :
    ReflTransGen body.Renames value (body.follow steps value) := by
  induction steps generalizing value with
  | zero => exact .refl
  | succ steps ih =>
      rw [follow]
      cases hcopy : body.copied? value with
      | none => exact .refl
      | some source => exact .head hcopy (ih source)

theorem exists_follow_eq (hchain : ReflTransGen body.Renames value name) :
    ∃ steps, body.follow steps value = name := by
  induction hchain using ReflTransGen.head_induction_on with
  | refl => exact ⟨0, rfl⟩
  | head hstep _ ih =>
      obtain ⟨steps, hsteps⟩ := ih
      exact ⟨steps + 1, by rw [follow, hstep]; exact hsteps⟩

/-- The value at the end of a chain is the value behind all copies. -/
theorem root_eq_of_chain (hchain : ReflTransGen body.Renames value last)
    (hends : body.copied? last = none) : body.root value = last := by
  obtain ⟨steps, rfl⟩ := exists_follow_eq hchain
  exact root_eq_follow hends

/-- On the way to an end no value is met twice: each has one source only. -/
theorem not_circle_of_end (hchain : ReflTransGen body.Renames value last)
    (hends : body.copied? last = none) :
    ¬ TransGen body.Renames value value := by
  induction hchain using ReflTransGen.head_induction_on with
  | refl =>
      intro hcircle
      obtain ⟨source, hstep, _⟩ := TransGen.head'_iff.mp hcircle
      rw [Renames, hends] at hstep
      cases hstep
  | head hstep _ ih =>
      intro hcircle
      obtain ⟨source, hstep', hrest⟩ := TransGen.head'_iff.mp hcircle
      obtain rfl := Option.some.inj (hstep.symm.trans hstep')
      exact ih (.tail' hrest hstep)

/-- A chain that does not end runs into a circle. -/
theorem exists_circle (hnever : ∀ steps,
    body.copied? (body.follow steps value) ≠ none) :
    ∃ name, ReflTransGen body.Renames value name ∧
      TransGen body.Renames name name := by
  obtain ⟨first, second, hlt, _, heq⟩ := exists_repeat fun short _ => hnever short
  obtain ⟨rest, rfl⟩ := Nat.exists_eq_add_of_lt hlt
  refine ⟨body.follow first value, follow_reached first value, ?_⟩
  cases hcopy : body.copied? (body.follow first value) with
  | none => exact absurd hcopy (hnever first)
  | some source =>
      have hback : body.follow rest source = body.follow first value := by
        rw [heq, Nat.add_assoc, follow_add, Nat.add_comm rest, Nat.add_comm 1]
        rw [follow, hcopy]
      have hround : TransGen body.Renames (body.follow first value)
          (body.follow rest source) := .head' hcopy (follow_reached rest source)
      rwa [hback] at hround

theorem root_lt (hbody : body.WellFormed) (hvalue : value < body.values.size) :
    body.root value < body.values.size := by
  have hfollow : ∀ steps value, value < body.values.size →
      body.follow steps value < body.values.size := by
    intro steps
    induction steps with
    | zero => exact fun _ hvalue => hvalue
    | succ steps ih =>
        intro value hvalue
        rw [follow]
        cases hcopy : body.copied? value with
        | none => exact hvalue
        | some source =>
            obtain ⟨opcode, hdefined, hcopied⟩ := Option.bind_eq_some_iff.mp hcopy
            obtain ⟨instr, _, rfl⟩ := Option.map_eq_some_iff.mp hdefined
            have hinput : source ∈ (body.opcode instr).inputs := by
              cases hopcode : body.opcode instr <;>
                simp_all [Opcode.copied?, Opcode.inputs]
            exact ih source (hbody.input_lt hinput)
  exact hfollow body.values.size value hvalue

theorem Renames.rightUnique (body : Body) :
    Relator.RightUnique body.Renames := by
  intro value first second hfirst hsecond
  exact Option.some.inj (hfirst.symm.trans hsecond)

theorem chain_to_end (hchain : ReflTransGen body.Renames value name)
    (hlast : ReflTransGen body.Renames value last)
    (hends : body.copied? last = none) :
    ReflTransGen body.Renames name last := by
  rcases hchain.total_of_right_unique (Renames.rightUnique body) hlast with
    hforth | hback
  · exact hforth
  · rcases hback.cases_head with rfl | ⟨source, hstep, _⟩
    · exact .refl
    · rw [Renames, hends] at hstep
      cases hstep

/-- Following the copies from a value, without a limit, comes to this end. -/
def Resolves (body : Body) (value last : ValueId) : Prop :=
  ReflTransGen body.Renames value last ∧ body.copied? last = none

/-- Every copy leads to a value that is none. -/
def CopiesEnd (body : Body) : Prop :=
  ∀ value < body.values.size, ∃ last, body.Resolves value last

theorem copied?_eq_none (hvalue : body.values.size ≤ value) :
    body.copied? value = none := by
  simp [copied?, definingOpcode?, definition?, Array.getElem?_eq_none hvalue]

theorem copiesEnd_of_root (hroots : ∀ value < body.values.size,
    body.copied? (body.root value) = none) : body.CopiesEnd :=
  fun value hvalue => ⟨_, follow_reached _ value, hroots value hvalue⟩

/-- Where copies end, the limit is never reached. -/
theorem CopiesEnd.resolves (hends : body.CopiesEnd) (value : ValueId) :
    body.Resolves value (body.root value) := by
  by_cases hvalue : value < body.values.size
  · obtain ⟨last, hlast⟩ := hends value hvalue
    rwa [root_eq_of_chain hlast.1 hlast.2]
  · have hnone := copied?_eq_none (Nat.not_lt.mp hvalue)
    rw [root_eq_of_chain .refl hnone]
    exact ⟨.refl, hnone⟩

/-- The copies that a value stands for come to an end exactly if none of them
is a copy of itself, at however many steps.  The end is the value behind all
copies, and behind itself. -/
theorem copies_end_iff_no_circle (haccepted : body.Accepted)
    (hvalue : value < body.values.size) :
    ((∃ last, ReflTransGen body.Renames value last ∧
        body.copied? last = none) ↔
      ∀ name, ReflTransGen body.Renames value name →
        ¬ TransGen body.Renames name name) ∧
    ∀ last, ReflTransGen body.Renames value last →
      body.copied? last = none →
        body.root value = last ∧ body.root last = last ∧
          last < body.values.size := by
  refine ⟨⟨?_, ?_⟩, ?_⟩
  · rintro ⟨last, hlast, hends⟩ name hchain
    exact not_circle_of_end (chain_to_end hchain hlast hends) hends
  · intro hstraight
    by_contra hnone
    obtain ⟨name, hchain, hcircle⟩ := exists_circle fun steps hends =>
      hnone ⟨_, follow_reached steps value, hends⟩
    exact hstraight name hchain hcircle
  · intro last hlast hends
    have hroot := root_eq_of_chain hlast hends
    exact ⟨hroot, root_eq_of_chain .refl hends,
      hroot ▸ root_lt haccepted.wellFormed hvalue⟩

/-- A value copied twice, the first copy before the value itself. -/
def copiedEarly : Body where
  method := 0
  isStatic := true
  values := #[
    { type := .primitive .int, definition := .instruction 0, users := [1] },
    { type := .primitive .int, definition := .instruction 1, users := [3] },
    { type := .primitive .int, definition := .instruction 2, users := [0] }]
  instructions := #[⟨0, .move 2, some 0⟩, ⟨0, .refine 0, some 1⟩,
    ⟨0, .number 7, some 2⟩, ⟨0, .ret (some 1), none⟩]
  blocks := #[⟨[0, 1, 2, 3], [], []⟩]
  positions := #[0, 1, 2, 3]
  incoming := #[[]]

theorem copiedEarly_root :
    copiedEarly.Accepted ∧ copiedEarly.root 1 = 2 ∧
      ∀ name, ReflTransGen copiedEarly.Renames 1 name →
        ¬ TransGen copiedEarly.Renames name name := by
  have haccepted : copiedEarly.Accepted :=
    ⟨0, true,
      [.block, .value 0 (.move 2) (.primitive .int),
        .value 0 (.refine 0) (.primitive .int),
        .value 0 (.number 7) (.primitive .int), .push 0 (.ret (some 1))],
      _, _, rfl, by decide +kernel⟩
  have hvalue : 1 < copiedEarly.values.size := by decide
  obtain ⟨hiff, hroot⟩ := copies_end_iff_no_circle haccepted hvalue
  have hchain : ReflTransGen copiedEarly.Renames 1 2 :=
    .head (show copiedEarly.Renames 1 0 from rfl) (.single rfl)
  exact ⟨haccepted, (hroot 2 hchain rfl).1, hiff.mp ⟨2, hchain, rfl⟩⟩

def selfNamed : Body where
  method := 0
  isStatic := true
  values := #[
    { type := .primitive .int, definition := .instruction 0, users := [0] }]
  instructions := #[⟨0, .move 0, some 0⟩, ⟨0, .ret none, none⟩]
  blocks := #[⟨[0, 1], [], []⟩]
  positions := #[0, 1]
  incoming := #[[]]

/-- Nothing keeps a draft from naming a value in its own definition. -/
theorem selfNamed_copies_endless :
    selfNamed.Accepted ∧
      ¬ ∃ last, ReflTransGen selfNamed.Renames 0 last ∧
        selfNamed.copied? last = none := by
  refine ⟨⟨0, true,
    [.block, .value 0 (.move 0) (.primitive .int), .push 0 (.ret none)],
    _, _, rfl, by decide +kernel⟩, ?_⟩
  rintro ⟨last, hlast, hends⟩
  exact not_circle_of_end hlast hends (.single rfl)

end Body

end FlowFacts
