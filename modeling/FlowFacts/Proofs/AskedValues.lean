/-
What the verdict on values depends on.  The values that take part are those
asked about and, again and again, those that explanations need.  The verdict is
good if all of them are explained and none of them may be modified, so neither
order nor repetition counts, nor under which name a value is asked about.
-/
import FlowFacts.Proofs.Condensation
import FlowFacts.Proofs.CopyChains
import FlowFacts.Proofs.IndependentValues
import FlowFacts.Proofs.Publication

namespace FlowFacts

namespace Body

/-- The values asked about, and all that is needed to explain them. -/
inductive NeededFor (body : Body) (program : Program) (values : List ValueId) :
    ValueId → Prop
  | asked {value : ValueId} (hvalue : value ∈ values) :
      NeededFor body program values value
  | need {value need : ValueId} {explanation : Explanation}
      (hvalue : NeededFor body program values value)
      (hexplain : body.explain program value = .ok (some explanation))
      (hneed : need ∈ explanation.needs) :
      NeededFor body program values need

/-- The instruction took part in making a value that is needed. -/
def TookPart (body : Body) (program : Program) (values : List ValueId)
    (instr : InstrId) : Prop :=
  ∃ value explanation, body.NeededFor program values value ∧
    body.explain program value = .ok (some explanation) ∧
      instr ∈ explanation.consumed

end Body

namespace Exploration

variable {body : Body} {program : Program} {exploration : Exploration}
variable {values pending : List ValueId} {value : ValueId}
variable {explanation : Explanation} {steps : Nat}

/-- Nothing but what is needed has been put on the list or been noted. -/
structure Gathered (body : Body) (program : Program) (values : List ValueId)
    (exploration : Exploration) : Prop where
  pending_subset : exploration.pending ⊆ exploration.seen
  needed : ∀ value ∈ exploration.seen, body.NeededFor program values value
  took_part : ∀ instr ∈ exploration.consumed, body.TookPart program values instr
  changeable : ∀ value ∈ exploration.mutables,
    body.NeededFor program values value ∧ ∃ explanation,
      body.explain program value = .ok (some explanation) ∧
        explanation.isMutable = true
  linked : exploration.graph.Linked

theorem Gathered.enqueue (hgathered : exploration.Gathered body program values)
    (hvalue : body.NeededFor program values value) :
    (exploration.enqueue value).Gathered body program values := by
  rw [Exploration.enqueue]
  split
  · exact hgathered
  · exact ⟨List.cons_subset_cons value hgathered.pending_subset,
      List.forall_mem_cons.mpr ⟨hvalue, hgathered.needed⟩, hgathered.took_part,
      hgathered.changeable, hgathered.linked⟩

theorem Gathered.note (hgathered : exploration.Gathered body program values)
    (hpending : exploration.pending = value :: pending)
    (hexplain : body.explain program value = .ok (some explanation)) :
    ({ exploration with pending }.note value explanation).Gathered body program
      values := by
  obtain ⟨hseen, hrest⟩ :=
    List.cons_subset.mp (hpending ▸ hgathered.pending_subset)
  have hvalue := hgathered.needed value hseen
  rw [Exploration.note]
  apply List.foldlRecOn
  · refine ⟨hrest, hgathered.needed, ?_, ?_, hgathered.linked.addValue value⟩
    · intro instr hinstr
      rcases List.mem_append.mp hinstr with hold | hnew
      · exact hgathered.took_part instr hold
      · exact ⟨value, explanation, hvalue, hexplain, hnew⟩
    · intro other hother
      dsimp only at hother
      split at hother
      · next hmutable =>
          rcases List.mem_append.mp hother with hold | hnew
          · exact hgathered.changeable other hold
          · obtain rfl := List.mem_singleton.mp hnew
            exact ⟨hvalue, explanation, hexplain, hmutable⟩
      · exact hgathered.changeable other hother
  · intro later hlater need hneed
    have hlinked : Gathered body program values
        { later with graph := later.graph.addDependency value need } :=
      ⟨hlater.pending_subset, hlater.needed, hlater.took_part,
        hlater.changeable, hlater.linked.addDependency value need⟩
    exact hlinked.enqueue (.need hvalue hexplain hneed)

/-- No value gets on the list twice, and the steps are enough for all that can
get there. -/
structure Room (body : Body) (values : List ValueId) (steps : Nat)
    (exploration : Exploration) : Prop where
  nodup : exploration.seen.Nodup
  within : exploration.seen ⊆ List.range body.values.size ++ values
  enough : body.values.size + values.length + 1 + exploration.pending.length ≤
    steps + exploration.seen.length

theorem Room.enqueue (hroom : exploration.Room body values steps)
    (hvalue : value ∈ List.range body.values.size ++ values) :
    (exploration.enqueue value).Room body values steps := by
  rw [Exploration.enqueue]
  split
  · exact hroom
  · next hfresh =>
      have henough := hroom.enough
      rw [List.contains_iff_mem] at hfresh
      refine ⟨List.nodup_cons.mpr ⟨hfresh, hroom.nodup⟩,
        List.cons_subset.mpr ⟨hvalue, hroom.within⟩, ?_⟩
      simp only [List.length_cons]
      omega

theorem Room.note (hroom : exploration.Room body values (steps + 1))
    (hpending : exploration.pending = value :: pending)
    (hmade : body.Made explanation) :
    ({ exploration with pending }.note value explanation).Room body values
      steps := by
  rw [Exploration.note]
  apply List.foldlRecOn
  · refine ⟨hroom.nodup, hroom.within, ?_⟩
    have henough := hroom.enough
    rw [hpending, List.length_cons] at henough
    dsimp only
    omega
  · intro later hlater need hneed
    have hsame : Room body values steps
        { later with graph := later.graph.addDependency value need } :=
      ⟨hlater.nodup, hlater.within, hlater.enough⟩
    apply hsame.enqueue
    exact List.mem_append_left _ (List.mem_range.mpr (hmade.need_lt need hneed))

end Exploration

namespace Body

variable {body : Body} {program : Program} {instr : InstrId} {value : ValueId}
variable {first second values : List ValueId} {explanation : Explanation}
variable {exploration : Exploration} {steps : Nat}

theorem explained_of_mem_seen
    (hexplored : body.explored program values = .ok (some exploration))
    (hseen : value ∈ exploration.seen) :
    ∃ explanation, body.explain program value = .ok (some explanation) ∧
      explanation.needs ⊆ exploration.seen ∧
      explanation.consumed ⊆ exploration.consumed := by
  obtain ⟨hclosed, hpending, _⟩ := explored_closed hexplored
  apply (hclosed.explained value hseen).resolve_left
  rw [hpending]
  exact List.not_mem_nil

/-- All that is needed has been seen. -/
theorem NeededFor.mem_seen (hvalue : body.NeededFor program values value)
    (hexplored : body.explored program values = .ok (some exploration)) :
    value ∈ exploration.seen := by
  induction hvalue with
  | asked hvalue => exact (explored_closed hexplored).2.2 hvalue
  | need _ hexplain hneed ih =>
      obtain ⟨again, hagain, hneeds, _⟩ := explained_of_mem_seen hexplored ih
      obtain rfl := Option.some.inj (Except.ok.inj (hexplain.symm.trans hagain))
      exact hneeds hneed

section Roots

variable (hroots : second.map body.root ⊆ first.map body.root)

include hroots

end Roots

end Body

end FlowFacts
