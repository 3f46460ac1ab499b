/-
Narrowing the types of values.  What can be stored somewhere can be stored
there under any smaller type, so a body that was found well typed stays so
when its values get more precise types.
-/
import FlowFacts.Assignability
import FlowFacts.Proofs.StaticTypeOrder

namespace FlowFacts

namespace StaticType

variable {program : Program} {x y : StaticType} {target : TypeId}
variable {r s : Referent} {m n : Nullability}

/-- References are assignable to every interface, and to what is above them
whatever their nullability. -/
theorem reference_isAssignable_iff :
    (reference r m).isAssignable program target = true ↔
      (program.sort target = .object ∧
        (program.classDecl? target).any (·.traits.isInterface) = true) ∨
      (program.isReference target = true ∧
        (reference r .maybe).le program (program.staticType target .maybe) =
          true) := by
  rw [isAssignable.eq_def, Program.isReference]
  cases program.sort target <;> simp [TypeSort.isReference]

/-- The cases are the rules of the order: only between references do the two
types differ and is the larger one assignable to anything. -/
theorem isAssignable_of_le
    (hroot : ∀ sup, ¬ program.Extends WellKnown.object sup)
    (hle : x.le program y = true)
    (hassignable : y.isAssignable program target = true) :
    x.isAssignable program target = true := by
  cases le_iff_below.mp hle with
  | refl => exact hassignable
  | bottom => rfl
  | top => simp [isAssignable] at hassignable
  | @reference r s m n _ hrefers =>
      rw [reference_isAssignable_iff] at hassignable ⊢
      refine hassignable.imp id (And.imp_right fun hbelow => ?_)
      have hrs : (reference r .maybe).le program (reference s .maybe) = true :=
        reference_le_iff.mpr ⟨Nullability.le_refl _, hrefers⟩
      exact le_trans hroot hrs hbelow

end StaticType

namespace Body

variable {body narrowed : Body} {program : Program} {value : ValueId}
variable {target : TypeId} {instr : InstrId}

def untyped (body : Body) : Body :=
  { body with values := body.values.map fun value => { value with type := .top } }

/-- Two bodies differ only in the types of their values, and those of the
first are smaller. -/
structure Narrows (narrowed body : Body) (program : Program) : Prop where
  untyped : narrowed.untyped = body.untyped
  le : ∀ value < body.values.size,
    (narrowed.typeOf value).le program (body.typeOf value) = true

namespace Narrows

theorem opcode (hnarrows : narrowed.Narrows body program) (instr : InstrId) :
    narrowed.opcode instr = body.opcode instr := by
  change narrowed.untyped.opcode instr = body.untyped.opcode instr
  rw [hnarrows.untyped]

theorem method (hnarrows : narrowed.Narrows body program) :
    narrowed.method = body.method := by
  change narrowed.untyped.method = body.untyped.method
  rw [hnarrows.untyped]

theorem allInstructions (hnarrows : narrowed.Narrows body program) :
    narrowed.allInstructions = body.allInstructions := by
  change narrowed.untyped.allInstructions = body.untyped.allInstructions
  rw [hnarrows.untyped]

theorem size_values (hnarrows : narrowed.Narrows body program) :
    narrowed.values.size = body.values.size := by
  have hsize := congrArg (·.values.size) hnarrows.untyped
  simpa [Body.untyped] using hsize

theorem typeOf_le (hnarrows : narrowed.Narrows body program) (value : ValueId) :
    (narrowed.typeOf value).le program (body.typeOf value) = true := by
  by_cases hvalue : value < body.values.size
  · exact hnarrows.le value hvalue
  · have hnone : narrowed.values[value]? = none := by
      apply Array.getElem?_eq_none
      rw [hnarrows.size_values]
      exact Nat.not_lt.mp hvalue
    rw [typeOf, hnone]
    exact StaticType.le_iff_below.mpr (.bottom _)

theorem isAssignable (hnarrows : narrowed.Narrows body program)
    (hroot : ∀ sup, ¬ program.Extends WellKnown.object sup)
    (hbody : body.isAssignable program value target = true) :
    narrowed.isAssignable program value target = true :=
  StaticType.isAssignable_of_le hroot (hnarrows.typeOf_le value) hbody

theorem isWellTypedAt (hnarrows : narrowed.Narrows body program)
    (hroot : ∀ sup, ¬ program.Extends WellKnown.object sup)
    (hbody : body.isWellTypedAt program instr = .ok true) :
    narrowed.isWellTypedAt program instr = .ok true := by
  have hflows : ∀ {value target},
      (.ok (body.isAssignable program value target) : Except Fault Bool) =
        .ok true →
      (.ok (narrowed.isAssignable program value target) : Except Fault Bool) =
        .ok true := fun hassignable =>
    congrArg _ (hnarrows.isAssignable hroot (Except.ok.inj hassignable))
  rw [Body.isWellTypedAt] at hbody ⊢
  rw [hnarrows.opcode, hnarrows.method]
  split at hbody
  · obtain ⟨definition, hfield, hstored⟩ := exists_of_bind hbody
    simp only [hfield]
    exact hflows hstored
  · obtain ⟨definition, hfield, hstored⟩ := exists_of_bind hbody
    simp only [hfield]
    exact hflows hstored
  · obtain ⟨definition, hmethod, hreturned⟩ := exists_of_bind hbody
    simp only [hmethod]
    exact hflows hreturned
  · exact hflows hbody
  · rfl

theorem isWellTyped (hnarrows : narrowed.Narrows body program)
    (hroot : ∀ sup, ¬ program.Extends WellKnown.object sup)
    (hbody : body.isWellTyped program = .ok true) :
    narrowed.isWellTyped program = .ok true := by
  rw [Body.isWellTyped, hnarrows.allInstructions]
  apply allM_eq_true
  intro instr hinstr
  exact hnarrows.isWellTypedAt hroot (forall_of_allM hbody instr hinstr)

end Narrows

/-- If objects extend nothing, then what is assignable stays so under smaller
types, and what is well typed stays so with smaller types of values. -/
theorem assignable_and_wellTyped_of_smaller
    (hroot : ∀ sup, ¬ program.Extends WellKnown.object sup) :
    (∀ (x y : StaticType) (target : TypeId), x.le program y = true →
      y.isAssignable program target = true →
        x.isAssignable program target = true) ∧
    ∀ body narrowed : Body, narrowed.Narrows body program →
      body.isWellTyped program = .ok true →
        narrowed.isWellTyped program = .ok true := by
  constructor
  · intro x y target hle hassignable
    exact StaticType.isAssignable_of_le hroot hle hassignable
  · intro body narrowed hnarrows hbody
    exact hnarrows.isWellTyped hroot hbody

/-- Classes with circular interfaces, a field for arrays of objects, and a
method that returns one of the interfaces. -/
def arrayField : Program :=
  { Program.circularInterfaces with
    fields := #[{ holder := 1, name := "f", type := 10
                  traits := { isStatic := true } }]
    methods := #[{ holder := 1, name := "m", params := [8, 2], returns := 3
                   traits := { isStatic := true } }] }

/-- A body that stores its first argument into the field and returns the
second, under these types of the two. -/
def storeAndReturn (stored returned : StaticType) : Body where
  method := 0
  isStatic := true
  values := #[
    { type := stored, definition := .instruction 0, users := [2] },
    { type := returned, definition := .instruction 1, users := [3] }]
  instructions := #[⟨0, .argument 0, some 0⟩, ⟨0, .argument 1, some 1⟩,
    ⟨0, .staticPut 0 0, none⟩, ⟨0, .ret (some 1), none⟩]
  blocks := #[⟨[0, 1, 2, 3], [], []⟩]
  positions := #[0, 1, 2, 3]
  incoming := #[[]]

/-- Arrays of arrays of an interface are stored, and another interface is
returned. -/
def storeArrays : Body :=
  storeAndReturn (.reference (.array 8) .maybe) (.reference (.object 2) .maybe)

/-- Arrays of arrays of a class are stored, and null is returned. -/
def storeNarrowArrays : Body :=
  storeAndReturn (.reference (.array 6) .nonNull) .nullConstant

theorem storeNarrowArrays_wellTyped :
    (∀ sup, ¬ arrayField.Extends WellKnown.object sup) ∧
    storeNarrowArrays.Narrows storeArrays arrayField ∧
    storeArrays.isWellTyped arrayField = .ok true ∧
    storeNarrowArrays.isWellTyped arrayField = .ok true := by
  have hroot : ∀ sup, ¬ arrayField.Extends WellKnown.object sup :=
    Program.circularInterfaces_root
  have hnarrows : storeNarrowArrays.Narrows storeArrays arrayField :=
    ⟨by simp [untyped, storeNarrowArrays, storeArrays, storeAndReturn],
      by decide⟩
  have hwide : storeArrays.isWellTyped arrayField = .ok true := by decide
  exact ⟨hroot, hnarrows, hwide,
    (assignable_and_wellTyped_of_smaller hroot).2 _ _ hnarrows hwide⟩

end Body

end FlowFacts
