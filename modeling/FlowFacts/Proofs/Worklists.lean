/-
Worklists over the nodes of a graph.  A step takes the node at the head of the
line; where the note about the node changes, its successors get in line.  As a
note can change only so many times, the line runs empty.
-/
import Mathlib.Algebra.BigOperators.Ring.Finset
import Mathlib.Algebra.Order.BigOperators.Group.Finset
import FlowFacts.Proofs.Postorder

namespace FlowFacts

/-- A run that uses up a bounded amount with every step comes to an end. -/
theorem acc_of_decreasing {α : Type} {step : α → α → Prop} {P : α → Prop}
    {amount : α → Nat}
    (hstep : ∀ {state next}, P state → step state next →
      P next ∧ amount next < amount state) {state : α} (hstate : P state) :
    Acc (Function.swap step) state := by
  induction hamount : amount state using Nat.strongRecOn generalizing state with
  | _ bound ih =>
      subst hamount
      constructor
      intro next hnext
      obtain ⟨hkept, hless⟩ := hstep hstate hnext
      exact ih _ hless hkept rfl

namespace Graph

variable {graph : Graph} {queue : List Nat} {node : Nat}
variable {room before after : Nat → Nat}

theorem sum_range_add_le {size index amount : Nat}
    (hindex : index < size)
    (hothers : ∀ other ≠ index, after other = before other)
    (hless : after index + amount ≤ before index) :
    ∑ each ∈ Finset.range size, after each + amount ≤
      ∑ each ∈ Finset.range size, before each := by
  have hmem : index ∈ Finset.range size := Finset.mem_range.mpr hindex
  have hrest : ∑ each ∈ (Finset.range size).erase index, after each =
      ∑ each ∈ (Finset.range size).erase index, before each := by
    apply Finset.sum_congr rfl
    intro other hother
    exact hothers other (Finset.ne_of_mem_erase hother)
  rw [← Finset.add_sum_erase _ after hmem, ← Finset.add_sum_erase _ before hmem,
    hrest]
  omega

theorem sum_length_next (graph : Graph) :
    ∑ node ∈ Finset.range graph.size, (graph.next node).length =
      graph.edges := by
  rw [← Graph.length_flatMap_next, List.length_flatMap]
  rfl

/-- The steps that a worklist can still make, if the note about a node can
change as many times as there is room: with every change the successors of the
node get in line. -/
def outstanding (graph : Graph) (queue : List Nat) (room : Nat → Nat) : Nat :=
  queue.length +
    ∑ node ∈ Finset.range graph.size, (graph.next node).length * room node

theorem outstanding_skip :
    graph.outstanding queue room < graph.outstanding (node :: queue) room :=
  Nat.add_lt_add_right (Nat.lt_succ_self _) _

/-- A change uses up at least what the successors need. -/
theorem outstanding_enter (hnode : node < graph.size)
    (hothers : ∀ other ≠ node, after other = before other)
    (hless : after node < before node) :
    graph.outstanding (queue ++ graph.next node) after <
      graph.outstanding (node :: queue) before := by
  have hsum := sum_range_add_le hnode
    (fun other hother => congrArg ((graph.next other).length * ·)
      (hothers other hother))
    (Nat.mul_le_mul_left (graph.next node).length hless)
  simp only [outstanding, List.length_append, List.length_cons]
  omega

theorem outstanding_le {bound : Nat} (hroom : ∀ node, room node ≤ bound) :
    graph.outstanding queue room ≤ queue.length + graph.edges * bound := by
  rw [outstanding, ← sum_length_next, Finset.sum_mul]
  apply Nat.add_le_add_left
  exact Finset.sum_le_sum fun node _ => Nat.mul_le_mul_left _ (hroom node)

theorem length_next_le (graph : Graph) (node : Nat) :
    (graph.next node).length ≤ graph.edges := by
  by_cases hnode : node < graph.size
  · rw [← sum_length_next]
    exact Finset.single_le_sum_of_canonicallyOrdered
      (f := fun each => (graph.next each).length) (Finset.mem_range.mpr hnode)
  · have hnil : graph.next node = [] := by
      rw [next, Array.getD_eq_getD_getElem?,
        Array.getElem?_eq_none (Nat.not_lt.mp hnode), Option.getD_none]
    rw [hnil]
    exact Nat.zero_le _

end Graph

end FlowFacts
