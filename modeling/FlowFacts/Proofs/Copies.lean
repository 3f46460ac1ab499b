/-
Values and the values they rename.  A chain of copies that ends does so within
as many steps as there are values, so the value behind all copies is found
whenever there is one.
-/
import Mathlib.Data.Fintype.Pigeonhole
import Mathlib.Data.Fintype.Card
import FlowFacts.Body.Value

namespace FlowFacts

namespace Body

variable {body : Body} {value source : ValueId} {opcode : Opcode}

/-- Under some number of names, the value is what this instruction gives. -/
inductive Origin (body : Body) : ValueId → Opcode → Prop
  | defined {value : ValueId} {opcode : Opcode}
      (hdefined : body.definingOpcode? value = some opcode)
      (hcopied : opcode.copied? = none) : Origin body value opcode
  | copy {value source : ValueId} {opcode : Opcode}
      (hcopy : body.copied? value = some source)
      (horigin : Origin body source opcode) : Origin body value opcode

theorem copied?_eq (hdefined : body.definingOpcode? value = some opcode) :
    body.copied? value = opcode.copied? := by
  rw [copied?, hdefined, Option.bind_some]

theorem Origin.unique {other : Opcode} (horigin : body.Origin value opcode)
    (hother : body.Origin value other) : opcode = other := by
  induction horigin with
  | defined hdefined hcopied =>
      have hnone := (copied?_eq hdefined).trans hcopied
      cases hother with
      | defined hdefined' _ => exact Option.some.inj (hdefined ▸ hdefined')
      | copy hcopy _ => rw [hnone] at hcopy; cases hcopy
  | copy hcopy _ ih =>
      cases hother with
      | defined hdefined hcopied =>
          rw [copied?_eq hdefined, hcopied] at hcopy
          cases hcopy
      | copy hcopy' hrest =>
          rw [hcopy, Option.some.injEq] at hcopy'
          exact ih (hcopy' ▸ hrest)

theorem follow_add (first second : Nat) (value : ValueId) :
    body.follow (first + second) value =
      body.follow second (body.follow first value) := by
  induction first generalizing value with
  | zero => rw [Nat.zero_add, follow]
  | succ first ih =>
      rw [Nat.succ_add, follow, follow]
      cases hcopy : body.copied? value with
      | some source => exact ih source
      | none => cases second <;> simp [follow, hcopy]

theorem follow_of_copied?_eq_none (hnone : body.copied? value = none)
    (steps : Nat) : body.follow steps value = value := by
  cases steps <;> simp [follow, hnone]

theorem follow_eq_of_le {short long : Nat} (hle : short ≤ long)
    (hends : body.copied? (body.follow short value) = none) :
    body.follow long value = body.follow short value := by
  obtain ⟨rest, rfl⟩ := Nat.exists_eq_add_of_le hle
  rw [follow_add, follow_of_copied?_eq_none hends]

theorem lt_size_of_copied? (hcopy : body.copied? value = some source) :
    value < body.values.size := by
  by_contra hge
  have hnone : body.values[value]? = none :=
    Array.getElem?_eq_none (Nat.not_lt.mp hge)
  simp [copied?, definingOpcode?, definition?, hnone] at hcopy

/-- A chain that goes on for as many steps as there are values comes back to a
value it has left. -/
theorem exists_repeat (hnot : ∀ short ≤ body.values.size,
    body.copied? (body.follow short value) ≠ none) :
    ∃ first second, first < second ∧ second ≤ body.values.size ∧
      body.follow first value = body.follow second value := by
  have hlt : ∀ place : Fin (body.values.size + 1),
      body.follow place value < body.values.size := by
    intro place
    cases hcopy : body.copied? (body.follow place value) with
    | none => exact absurd hcopy (hnot place (Nat.le_of_lt_succ place.isLt))
    | some source => exact lt_size_of_copied? hcopy
  obtain ⟨first, second, hne, heq⟩ :=
    Fintype.exists_ne_map_eq_of_card_lt
      (fun place => (⟨_, hlt place⟩ : Fin body.values.size)) (by simp)
  have heq := Fin.mk.inj heq
  rcases Nat.lt_or_gt_of_ne (Fin.val_ne_of_ne hne) with hlt | hgt
  · exact ⟨first, second, hlt, Nat.le_of_lt_succ second.isLt, heq⟩
  · exact ⟨second, first, hgt, Nat.le_of_lt_succ first.isLt, heq.symm⟩

/-- Between two visits of one value a chain can be cut short. -/
theorem exists_end_le_size {steps : Nat}
    (hends : body.copied? (body.follow steps value) = none) :
    ∃ short ≤ body.values.size,
      body.copied? (body.follow short value) = none := by
  induction steps using Nat.strongRecOn with
  | _ steps ih =>
      by_contra hnot
      have hnot : ∀ short ≤ body.values.size,
          body.copied? (body.follow short value) ≠ none :=
        fun short hle hnone => hnot ⟨short, hle, hnone⟩
      obtain ⟨first, second, hlt, hle, heq⟩ := exists_repeat hnot
      have hsize : body.values.size < steps := by
        by_contra hge
        exact hnot steps (Nat.not_lt.mp hge) hends
      obtain ⟨short, hle', hnone⟩ := ih (first + (steps - second)) (by omega) (by
        rw [follow_add, heq, ← follow_add, Nat.add_sub_cancel' (by omega)]
        exact hends)
      exact hnot short hle' hnone

theorem root_eq_follow {steps : Nat}
    (hends : body.copied? (body.follow steps value) = none) :
    body.root value = body.follow steps value := by
  obtain ⟨short, hle, hshort⟩ := exists_end_le_size hends
  rw [root, follow_eq_of_le hle hshort]
  rcases Nat.le_total short steps with hle | hle
  · exact (follow_eq_of_le hle hshort).symm
  · exact follow_eq_of_le hle hends

theorem Origin.of_follow {steps : Nat}
    (hdefined : body.definingOpcode? (body.follow steps value) = some opcode)
    (hcopied : opcode.copied? = none) : body.Origin value opcode := by
  induction steps generalizing value with
  | zero => exact .defined hdefined hcopied
  | succ steps ih =>
      rw [follow] at hdefined
      cases hcopy : body.copied? value with
      | some source =>
          rw [hcopy] at hdefined
          exact .copy hcopy (ih hdefined)
      | none =>
          rw [hcopy] at hdefined
          exact .defined hdefined hcopied

theorem Origin.exists_follow (horigin : body.Origin value opcode) :
    ∃ steps, body.definingOpcode? (body.follow steps value) = some opcode ∧
      opcode.copied? = none := by
  induction horigin with
  | defined hdefined hcopied => exact ⟨0, hdefined, hcopied⟩
  | copy hcopy _ ih =>
      obtain ⟨steps, hdefined, hcopied⟩ := ih
      exact ⟨steps + 1, by rw [follow, hcopy]; exact hdefined, hcopied⟩

/-- The value behind all copies is the one that the copies lead to. -/
theorem rootOpcode?_eq_some (hcopied : opcode.copied? = none) :
    body.rootOpcode? value = some opcode ↔ body.Origin value opcode := by
  constructor
  · exact fun hroot => .of_follow hroot hcopied
  · intro horigin
    obtain ⟨steps, hdefined, _⟩ := horigin.exists_follow
    rw [rootOpcode?, root_eq_follow ((copied?_eq hdefined).trans hcopied), hdefined]

/-- Behind the value behind all copies there is nothing further, if the chain
of copies ends. -/
theorem definingOpcode?_root
    (hroot : body.rootOpcode? (body.root value) = some opcode)
    (hcopied : opcode.copied? = none) :
    body.definingOpcode? (body.root value) = some opcode := by
  have hends : body.copied? (body.follow (body.values.size +
      body.values.size) value) = none := by
    rw [follow_add]
    exact (copied?_eq hroot).trans hcopied
  rw [root_eq_follow hends, follow_add]
  exact hroot

theorem root_root (hroot : body.rootOpcode? value = some opcode)
    (hcopied : opcode.copied? = none) :
    body.root (body.root value) = body.root value :=
  follow_of_copied?_eq_none ((copied?_eq hroot).trans hcopied) _

end Body

end FlowFacts
