/-
Field sets as a join semilattice.  Sets listed field by field are never empty
and stand in ascending order, however they were put together.  So two sets
that are part of each other are equal, and the laws of the join follow from
its being the least set above both sides.
-/
import Mathlib.Data.List.Sort
import Mathlib.Order.BoundedOrder.Lattice
import FlowFacts.Proofs.FieldSets

namespace FlowFacts

namespace FieldSet

variable {a b c set : FieldSet} {fields : List FieldId}

/-- What can be put together from fields, lists of fields and recorded
reads. -/
inductive Built : FieldSet → Prop
  | empty : Built empty
  | any : Built any
  | singleton (field : FieldId) : Built (singleton field)
  | ofList (fields : List FieldId) : Built (ofList fields)
  | ofReads (reads : Option (List FieldId)) : Built (ofReads reads)
  | join {a b : FieldSet} (ha : Built a) (hb : Built b) : Built (a.join b)

/-- Fields that are listed one by one are some, in ascending order. -/
def Normal : FieldSet → Prop
  | these fields => fields ≠ [] ∧ fields.Pairwise (· < ·)
  | empty | any => True

theorem normal_ofList (fields : List FieldId) : (ofList fields).Normal := by
  rw [ofList]
  split
  · trivial
  · next hsome => exact ⟨hsome, pairwise_insertFields .nil⟩

theorem Normal.join (ha : a.Normal) (hb : b.Normal) : (a.join b).Normal := by
  cases a with
  | any => trivial
  | empty =>
      cases b with
      | empty | any => trivial
      | these fields => exact hb
  | these sorted =>
      cases b with
      | empty => exact ha
      | any => trivial
      | these fields =>
          obtain ⟨field, hfield⟩ := List.exists_mem_of_ne_nil sorted ha.1
          refine ⟨?_, pairwise_insertFields ha.2⟩
          exact List.ne_nil_of_mem (mem_insertFields.mpr (Or.inr hfield))

theorem Built.normal (hbuilt : set.Built) : set.Normal := by
  induction hbuilt with
  | empty | any => trivial
  | singleton field => exact ⟨by simp, List.pairwise_singleton _ field⟩
  | ofList fields => exact normal_ofList fields
  | ofReads reads =>
      cases reads with
      | none => trivial
      | some fields => exact normal_ofList fields
  | join _ _ ha hb => exact ha.join hb

/-- Lists are compared by their members, and ascending lists are determined by
these. -/
theorem Normal.le_antisymm (ha : a.Normal) (hb : b.Normal)
    (hab : a.le b = true) (hba : b.le a = true) : a = b := by
  cases a with
  | empty =>
      cases b with
      | empty => rfl
      | these | any => cases hba
  | any =>
      cases b with
      | any => rfl
      | empty | these => cases hab
  | these fields =>
      cases b with
      | empty => cases hab
      | any => cases hba
      | these others =>
          simp only [le, List.all_eq_true, List.contains_iff_mem] at hab hba
          congr 1
          exact ha.2.eq_of_mem_iff hb.2 fun field => ⟨hab field, hba field⟩

theorem le_join_right (a b : FieldSet) : b.le (a.join b) = true := by
  cases a <;> cases b <;> simp +contextual [join, le]

theorem join_le (hac : a.le c = true) (hbc : b.le c = true) :
    (a.join b).le c = true := by
  cases a <;> cases b <;> cases c <;> simp_all [join, le]
  next fields others known =>
    rintro field (hfield | hfield)
    · exact hbc field hfield
    · exact hac field hfield

abbrev Canonical := { set : FieldSet // set.Normal }

instance : PartialOrder Canonical where
  le a b := a.1.le b.1 = true
  le_refl a := a.1.le_refl
  le_trans _ _ _ := le_trans
  le_antisymm a b hab hba := Subtype.ext (a.2.le_antisymm b.2 hab hba)

instance : SemilatticeSup Canonical where
  sup a b := ⟨a.1.join b.1, a.2.join b.2⟩
  le_sup_left a b := le_join_left a.1 b.1
  le_sup_right a b := le_join_right a.1 b.1
  sup_le _ _ _ := join_le

instance : BoundedOrder Canonical where
  bot := ⟨empty, trivial⟩
  bot_le _ := rfl
  top := ⟨any, trivial⟩
  le_top a := by
    change a.1.le any = true
    cases a.1 <;> rfl

/-- However field sets are put together, none is an empty list, the join is
associative, commutative and idempotent between the empty set and the set of
any field, inclusion is a partial order with the join as least upper bound,
and a join has the fields of both sides. -/
theorem join_semilattice (ha : a.Built) (hb : b.Built) (hc : c.Built) :
    a ≠ these [] ∧
    ((a.join b).join c = a.join (b.join c) ∧ a.join b = b.join a ∧
      a.join a = a ∧ empty.join a = a ∧ a.join empty = a ∧
      any.join a = any ∧ a.join any = any) ∧
    (a.le a = true ∧ (a.le b = true → b.le c = true → a.le c = true) ∧
      (a.le b = true → b.le a = true → a = b)) ∧
    (a.le (a.join b) = true ∧ b.le (a.join b) = true ∧
      (a.le c = true → b.le c = true → (a.join b).le c = true) ∧
      (a.le b = true ↔ a.join b = b)) ∧
    ∀ field, (a.join b).contains field = true ↔
      a.contains field = true ∨ b.contains field = true := by
  let x : Canonical := ⟨a, ha.normal⟩
  let y : Canonical := ⟨b, hb.normal⟩
  let z : Canonical := ⟨c, hc.normal⟩
  have hval : ∀ {u v : Canonical}, u = v → u.1 = v.1 := congrArg Subtype.val
  refine ⟨?_, ⟨hval (sup_assoc x y z), hval (sup_comm x y), hval (sup_idem x),
    hval (bot_sup_eq x), hval (sup_bot_eq x), hval (top_sup_eq x),
    hval (sup_top_eq x)⟩, ⟨le_refl a, le_trans, fun hab hba =>
      ha.normal.le_antisymm hb.normal hab hba⟩,
    ⟨le_join_left a b, le_join_right a b, join_le, ?_⟩, fun _ => contains_join⟩
  · rintro rfl
    exact ha.normal.1 rfl
  · exact Iff.trans (sup_eq_right (a := x) (b := y)).symm Subtype.ext_iff

/-- A set of listed fields, a set of joined fields, and the reads of a method
that is not known. -/
theorem twoFields_join_semilattice :
    ((ofList [4, 1, 4]).Built ∧ ((singleton 4).join (singleton 2)).Built ∧
      (ofReads none).Built) ∧
    (ofList [4, 1, 4]).join ((singleton 4).join (singleton 2)) =
      ((singleton 4).join (singleton 2)).join (ofList [4, 1, 4]) ∧
    (ofList [4, 1, 4]).join ((singleton 4).join (singleton 2)) =
      these [1, 2, 4] ∧
    ((ofList [4, 1, 4]).join ((singleton 4).join (singleton 2))).join
      (ofReads none) = any ∧
    ¬ (ofList [4, 1, 4]).le ((singleton 4).join (singleton 2)) = true := by
  have hlist : (ofList [4, 1, 4]).Built := .ofList _
  have hjoin : ((singleton 4).join (singleton 2)).Built :=
    .join (.singleton 4) (.singleton 2)
  have hreads : (ofReads none).Built := .ofReads none
  obtain ⟨_, ⟨_, hcomm, _⟩, _, ⟨_, _, _, hle⟩, _⟩ :=
    join_semilattice hlist hjoin hreads
  refine ⟨⟨hlist, hjoin, hreads⟩, hcomm, by decide, by decide, ?_⟩
  exact fun hsubset => absurd (hle.mp hsubset) (by decide)

end FieldSet

end FlowFacts
