/-
Sets of fields, with one set that stands for any field.
-/
import FlowFacts.Fault

namespace FlowFacts

/-- No field, these fields in ascending order, or any field. -/
inductive FieldSet
  | empty
  | these (fields : List FieldId)
  | any
deriving DecidableEq, Repr

namespace FieldSet

/-- Put a field at its place among ascending fields, once. -/
def insertField (field : FieldId) : List FieldId → List FieldId
  | [] => [field]
  | head :: rest =>
      if field < head then field :: head :: rest
      else if field = head then head :: rest
      else head :: insertField field rest

def insertFields (fields sorted : List FieldId) : List FieldId :=
  fields.foldl (fun sorted field => insertField field sorted) sorted

def singleton (field : FieldId) : FieldSet := these [field]

def ofList (fields : List FieldId) : FieldSet :=
  match insertFields fields [] with
  | [] => empty
  | sorted => these sorted

/-- The fields that a method is known to read; any field if it is not known. -/
def ofReads : Option (List FieldId) → FieldSet
  | some fields => ofList fields
  | none => any

def isEmpty : FieldSet → Bool
  | empty => true
  | _ => false

def isAny : FieldSet → Bool
  | any => true
  | _ => false

def contains (set : FieldSet) (field : FieldId) : Bool :=
  match set with
  | empty => false
  | these fields => fields.contains field
  | any => true

def join (a b : FieldSet) : FieldSet :=
  match a, b with
  | any, _ => any
  | _, any => any
  | empty, b => b
  | a, empty => a
  | these a, these b => these (insertFields b a)

def le (a b : FieldSet) : Bool :=
  match a, b with
  | empty, _ => true
  | _, any => true
  | any, _ => false
  | _, empty => false
  | these a, these b => a.all b.contains

/-- The number of fields, unless the set stands for any field. -/
def size? : FieldSet → Option Nat
  | empty => some 0
  | these fields => some fields.length
  | any => none

end FieldSet

end FlowFacts
