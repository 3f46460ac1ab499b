/-
The lattice of field sets.  A join holds what either side holds, and a join
that changes a set makes it higher; over finitely many fields a set can
therefore grow only finitely often.
-/
import Mathlib.Data.List.Perm.Subperm
import FlowFacts.FieldContents.FieldSet

namespace FlowFacts

namespace FieldSet

variable {a b c set : FieldSet} {field other : FieldId}
variable {fields sorted known : List FieldId}

@[simp] theorem mem_insertField :
    other ∈ insertField field sorted ↔ other = field ∨ other ∈ sorted := by
  induction sorted with
  | nil => simp [insertField]
  | cons head rest ih =>
      rw [insertField]
      split
      · rw [List.mem_cons]
      · split
        · next heq => simp [heq]
        · rw [List.mem_cons, ih, List.mem_cons, or_left_comm]

@[simp] theorem mem_insertFields :
    other ∈ insertFields fields sorted ↔ other ∈ fields ∨ other ∈ sorted := by
  induction fields generalizing sorted with
  | nil => simp [insertFields]
  | cons field fields ih =>
      have hrest : other ∈ insertFields fields (insertField field sorted) ↔
          other ∈ fields ∨ other ∈ insertField field sorted := ih
      rw [insertFields, List.foldl_cons, ← insertFields, hrest, mem_insertField,
        List.mem_cons, or_left_comm, or_assoc]

theorem pairwise_insertField (hsorted : sorted.Pairwise (· < ·)) :
    (insertField field sorted).Pairwise (· < ·) := by
  induction sorted with
  | nil => simp [insertField]
  | cons head rest ih =>
      obtain ⟨hhead, hrest⟩ := List.pairwise_cons.mp hsorted
      rw [insertField]
      split
      · next hlt =>
          apply List.pairwise_cons.mpr
          refine ⟨List.forall_mem_cons.mpr ⟨hlt, ?_⟩, hsorted⟩
          intro other hother
          exact Nat.lt_trans hlt (hhead other hother)
      · next hge =>
          split
          · exact hsorted
          · next hne =>
              apply List.pairwise_cons.mpr
              refine ⟨?_, ih hrest⟩
              intro other hother
              rcases mem_insertField.mp hother with rfl | hother
              · exact Nat.lt_of_le_of_ne (Nat.le_of_not_lt hge) (Ne.symm hne)
              · exact hhead other hother

theorem pairwise_insertFields (hsorted : sorted.Pairwise (· < ·)) :
    (insertFields fields sorted).Pairwise (· < ·) := by
  induction fields generalizing sorted with
  | nil => exact hsorted
  | cons field fields ih => exact ih (pairwise_insertField hsorted)

theorem insertField_eq_or_length_lt (field : FieldId) (sorted : List FieldId) :
    insertField field sorted = sorted ∨
      sorted.length < (insertField field sorted).length := by
  induction sorted with
  | nil => exact Or.inr (by simp [insertField])
  | cons head rest ih =>
      rw [insertField]
      split
      · exact Or.inr (Nat.lt_succ_self _)
      · split
        · exact Or.inl rfl
        · rcases ih with heq | hlt
          · exact Or.inl (by rw [heq])
          · exact Or.inr (Nat.succ_lt_succ hlt)

theorem insertFields_eq_or_length_lt (fields sorted : List FieldId) :
    insertFields fields sorted = sorted ∨
      sorted.length < (insertFields fields sorted).length := by
  induction fields generalizing sorted with
  | nil => exact Or.inl rfl
  | cons field fields ih =>
      have hrest := ih (insertField field sorted)
      rw [insertFields, List.foldl_cons, ← insertFields]
      rcases insertField_eq_or_length_lt field sorted with heq | hlt
      · rwa [heq] at hrest ⊢
      · rcases hrest with heq | hlonger
        · exact Or.inr (by rwa [heq])
        · exact Or.inr (Nat.lt_trans hlt hlonger)

theorem contains_of_isAny (hany : set.isAny = true) (field : FieldId) :
    set.contains field = true := by
  cases set with
  | any => rfl
  | empty | these => cases hany

theorem contains_join : (a.join b).contains field = true ↔
    a.contains field = true ∨ b.contains field = true := by
  cases a <;> cases b <;> simp [join, contains, or_comm]

theorem join_of_isAny (hany : a.isAny = true) (b : FieldSet) :
    a.join b = a := by
  cases a with
  | any => rfl
  | empty | these => cases hany

theorem contains_foldl_join {α : Type} {parts : List α} {part : α → FieldSet} :
    (parts.foldl (fun set each => set.join (part each)) a).contains field =
        true ↔
      a.contains field = true ∨
        ∃ each ∈ parts, (part each).contains field = true := by
  induction parts generalizing a with
  | nil => simp
  | cons head rest ih =>
      rw [List.foldl_cons, ih, contains_join, or_assoc]
      simp only [List.mem_cons, exists_eq_or_imp]

theorem foldl_join_of_isAny {α : Type} (hany : a.isAny = true) (parts : List α)
    (part : α → FieldSet) :
    parts.foldl (fun set each => set.join (part each)) a = a := by
  induction parts with
  | nil => rfl
  | cons head rest ih => rw [List.foldl_cons, join_of_isAny hany, ih]

theorem le_refl (a : FieldSet) : a.le a = true := by
  cases a <;> simp [le]

theorem le_trans (hab : a.le b = true) (hbc : b.le c = true) :
    a.le c = true := by
  cases a <;> cases b <;> cases c <;> simp_all [le]

theorem le_join_left (a b : FieldSet) : a.le (a.join b) = true := by
  cases a <;> cases b <;> simp +contextual [join, le]

/-- The fields of a set, where they are known one by one, are known fields in
ascending order. -/
def Within (known : List FieldId) : FieldSet → Prop
  | these fields => fields.Pairwise (· < ·) ∧ fields ⊆ known
  | empty | any => True

/-- How far a set is above the empty set, if at most `bound` fields are
known. -/
def height (bound : Nat) : FieldSet → Nat
  | empty => 0
  | these fields => fields.length + 1
  | any => bound + 2

theorem length_le_of_within (hset : (these fields).Within known) :
    fields.length ≤ known.length := by
  obtain ⟨hsorted, hsubset⟩ := hset
  have hnodup : fields.Nodup := hsorted.imp Nat.ne_of_lt
  exact (hnodup.subperm hsubset).length_le

theorem Within.height_le (hset : set.Within known) :
    set.height known.length ≤ known.length + 2 := by
  cases set with
  | empty | any => simp [height]
  | these fields =>
      have hlength := length_le_of_within hset
      simp only [height]
      omega

theorem Within.join (ha : a.Within known) (hb : b.Within known) :
    (a.join b).Within known := by
  cases a with
  | any => trivial
  | empty =>
      cases b with
      | empty | any => trivial
      | these fields => exact hb
  | these sorted =>
      cases b with
      | empty => exact ha
      | any => trivial
      | these fields =>
          refine ⟨pairwise_insertFields ha.1, ?_⟩
          intro field hfield
          rcases mem_insertFields.mp hfield with hfield | hfield
          · exact hb.2 hfield
          · exact ha.2 hfield

theorem within_singleton (hfield : field ∈ known) :
    (singleton field).Within known := by
  refine ⟨List.pairwise_singleton _ field, ?_⟩
  simpa using hfield

theorem within_ofList (hfields : fields ⊆ known) :
    (ofList fields).Within known := by
  rw [ofList]
  split
  · trivial
  · refine ⟨pairwise_insertFields .nil, ?_⟩
    intro field hfield
    exact hfields (by simpa using hfield)

/-- What becomes of a set: it stays within the known fields, and it is the
same set or has become higher. -/
structure Grows (known : List FieldId) (a b : FieldSet) : Prop where
  le : a.le b = true
  within : b.Within known
  higher : b = a ∨ a.height known.length < b.height known.length

namespace Grows

theorem refl (ha : a.Within known) : Grows known a a :=
  ⟨le_refl a, ha, Or.inl rfl⟩

theorem trans (hab : Grows known a b) (hbc : Grows known b c) :
    Grows known a c := by
  refine ⟨le_trans hab.le hbc.le, hbc.within, ?_⟩
  rcases hab.higher with rfl | hlt
  · exact hbc.higher
  · rcases hbc.higher with rfl | hlt'
    · exact Or.inr hlt
    · exact Or.inr (Nat.lt_trans hlt hlt')

theorem join (ha : a.Within known) (hb : b.Within known) :
    Grows known a (a.join b) := by
  refine ⟨le_join_left a b, ha.join hb, ?_⟩
  cases a with
  | any => exact Or.inl rfl
  | empty =>
      cases b with
      | empty => exact Or.inl rfl
      | these | any => exact Or.inr (Nat.succ_pos _)
  | these sorted =>
      cases b with
      | empty => exact Or.inl rfl
      | any =>
          refine Or.inr ?_
          have hlength := length_le_of_within ha
          simp only [FieldSet.join, height]
          omega
      | these fields =>
          rcases insertFields_eq_or_length_lt fields sorted with heq | hlt
          · exact Or.inl (congrArg these heq)
          · exact Or.inr (Nat.succ_lt_succ hlt)

theorem foldl_join {α : Type} {parts : List α} {part : α → FieldSet}
    (ha : a.Within known) (hparts : ∀ each, (part each).Within known) :
    Grows known a (parts.foldl (fun set each => set.join (part each)) a) := by
  induction parts generalizing a with
  | nil => exact .refl ha
  | cons head rest ih =>
      have hhead := join ha (hparts head)
      exact hhead.trans (ih hhead.within)

end Grows

end FieldSet

end FlowFacts
