/-
A ledger of what analyses have found.  Findings reach the program only when
they are published.
-/
import FlowFacts.Program.Basic

namespace FlowFacts

/-- Findings about fields and about constructors. -/
structure Findings where
  fields : Table FieldFacts := .empty
  constructors : Table Origins := .empty

namespace Findings

def updateField (findings : Findings) (field : FieldId)
    (change : FieldFacts → FieldFacts) : Findings :=
  { findings with fields := findings.fields.alter field {} change }

def noteKnowledge (findings : Findings) (field : FieldId)
    (knowledge : Knowledge) : Findings :=
  findings.updateField field fun facts => { facts with knowledge }

/-- Note a static type of what a field holds. -/
def noteUpper (findings : Findings) (field : FieldId) (upper : StaticType) :
    Findings :=
  findings.updateField field fun facts => { facts with upper := some upper }

/-- Note the exact class of what a field holds. -/
def noteLower (findings : Findings) (field : FieldId) (lower : TypeId) :
    Findings :=
  findings.updateField field fun facts => { facts with lower := some lower }

/-- Note what a constructor stores into fields. -/
def noteOrigins (findings : Findings) (constructor : MethodId)
    (origins : Origins) : Findings :=
  { findings with
    constructors := findings.constructors.insert constructor origins }

def knowledge (findings : Findings) (field : FieldId) : Knowledge :=
  match findings.fields.find? field with
  | some facts => facts.knowledge
  | none => .unknown

theorem knowledge_updateField (findings : Findings) (field other : FieldId)
    (change : FieldFacts → FieldFacts) :
    (findings.updateField field change).knowledge other =
      if field = other then
        (change ((findings.fields.find? field).getD {})).knowledge
      else findings.knowledge other := by
  by_cases heq : field = other <;>
    simp [knowledge, updateField, Table.find?_alter, heq]

@[simp] theorem knowledge_noteKnowledge (findings : Findings) (field : FieldId)
    (knowledge : Knowledge) :
    (findings.noteKnowledge field knowledge).knowledge field = knowledge := by
  rw [noteKnowledge, knowledge_updateField, if_pos rfl]

/-- Notes about types leave what is known about the content alone. -/
theorem knowledge_updateField_of_same {findings : Findings}
    {change : FieldFacts → FieldFacts}
    (hchange : ∀ facts, (change facts).knowledge = facts.knowledge)
    (field other : FieldId) :
    (findings.updateField field change).knowledge other =
      findings.knowledge other := by
  rw [knowledge_updateField]
  split
  · next heq =>
      subst heq
      rw [hchange, knowledge]
      cases findings.fields.find? field <;> rfl
  · rfl

@[simp] theorem knowledge_noteUpper (findings : Findings)
    (field other : FieldId) (upper : StaticType) :
    (findings.noteUpper field upper).knowledge other =
      findings.knowledge other := by
  apply knowledge_updateField_of_same
  exact fun _ => rfl

@[simp] theorem knowledge_noteLower (findings : Findings)
    (field other : FieldId) (lower : TypeId) :
    (findings.noteLower field lower).knowledge other =
      findings.knowledge other := by
  apply knowledge_updateField_of_same
  exact fun _ => rfl

def publish (findings : Findings) (program : Program) :
    Except Fault Program := do
  let program ← findings.fields.entries.foldlM
    (fun program (field, facts) =>
      program.updateField field fun definition => { definition with facts })
    program
  findings.constructors.entries.foldlM
    (fun program (method, origins) =>
      program.updateMethod method fun definition =>
        let summary := definition.facts.constructs.getD {}
        { definition with
          facts := { definition.facts with
            constructs := some { summary with origins } } })
    program

end Findings

end FlowFacts
