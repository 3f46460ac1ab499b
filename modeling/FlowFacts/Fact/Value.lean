/-
What may be known about the content of a variable or of an object.  The three
types refer to each other: a known value can be the object held by a field,
and an object is described by what its own fields hold.
-/
import FlowFacts.Fault

namespace FlowFacts

mutual

/-- A value that is known exactly. -/
inductive KnownValue
  /-- A number; null counts as zero. -/
  | number (value : Int)
  | text (value : String)
  /-- The class object of a type. -/
  | classObject (type : TypeId)
  /-- The object that a static field holds, as far as its inside is known. -/
  | held (field : FieldId) (shape : Shape)

/-- What is known about the content of a variable. -/
inductive Knowledge
  | unknown
  | exactly (value : KnownValue)
  | either (first second : KnownValue)

/-- What is known about the inside of an object. -/
inductive Shape
  | blank
  /-- Knowledge about some fields, in ascending order. -/
  | fields (entries : List (FieldId × Knowledge))
  /-- The constants of an enum, in the order of its array of values. -/
  | constants (values : List KnownValue)

end

instance : Inhabited Knowledge := ⟨.unknown⟩

mutual

/-- Structural comparison of known values. -/
def KnownValue.same : KnownValue → KnownValue → Bool
  | .number a, .number b => a == b
  | .text a, .text b => a == b
  | .classObject a, .classObject b => a == b
  | .held f a, .held g b => f == g && a.same b
  | _, _ => false

def Knowledge.same : Knowledge → Knowledge → Bool
  | .unknown, .unknown => true
  | .exactly a, .exactly b => a.same b
  | .either a b, .either c d => a.same c && b.same d
  | _, _ => false

def Shape.same : Shape → Shape → Bool
  | .blank, .blank => true
  | .fields a, .fields b => sameEntries a b
  | .constants a, .constants b => sameValues a b
  | _, _ => false

def sameEntries : List (FieldId × Knowledge) → List (FieldId × Knowledge) → Bool
  | [], [] => true
  | (f, a) :: as, (g, b) :: bs => f == g && a.same b && sameEntries as bs
  | _, _ => false

def sameValues : List KnownValue → List KnownValue → Bool
  | [], [] => true
  | a :: as, b :: bs => a.same b && sameValues as bs
  | _, _ => false

end

mutual

theorem KnownValue.same_iff (a b : KnownValue) : a.same b = true ↔ a = b := by
  cases a <;> cases b <;> simp [KnownValue.same]
  next f s g t =>
    intro
    exact Shape.same_iff s t

theorem Knowledge.same_iff (a b : Knowledge) : a.same b = true ↔ a = b := by
  cases a <;> cases b <;> simp [Knowledge.same]
  next a b => exact KnownValue.same_iff a b
  next a b c d => rw [KnownValue.same_iff a c, KnownValue.same_iff b d]

theorem Shape.same_iff (a b : Shape) : a.same b = true ↔ a = b := by
  cases a <;> cases b <;> simp [Shape.same]
  next a b => exact sameEntries_iff a b
  next a b => exact sameValues_iff a b

theorem sameEntries_iff (as bs : List (FieldId × Knowledge)) :
    sameEntries as bs = true ↔ as = bs := by
  match as, bs with
  | [], [] => simp [sameEntries]
  | [], _ :: _ => simp [sameEntries]
  | _ :: _, [] => simp [sameEntries]
  | (f, a) :: as, (g, b) :: bs =>
      simp [sameEntries, Knowledge.same_iff a b, sameEntries_iff as bs]

theorem sameValues_iff (as bs : List KnownValue) :
    sameValues as bs = true ↔ as = bs := by
  match as, bs with
  | [], [] => simp [sameValues]
  | [], _ :: _ => simp [sameValues]
  | _ :: _, [] => simp [sameValues]
  | a :: as, b :: bs =>
      simp [sameValues, KnownValue.same_iff a b, sameValues_iff as bs]

end

instance : DecidableEq KnownValue := fun a b =>
  decidable_of_iff _ (KnownValue.same_iff a b)

instance : DecidableEq Knowledge := fun a b =>
  decidable_of_iff _ (Knowledge.same_iff a b)

instance : DecidableEq Shape := fun a b =>
  decidable_of_iff _ (Shape.same_iff a b)

def KnownValue.isZero (value : KnownValue) : Bool :=
  value == .number 0

def KnownValue.isConstant : KnownValue → Bool
  | .number _ | .text _ | .classObject _ => true
  | .held _ _ => false

namespace Knowledge

/-- One of two values; equal values are one value. -/
def oneOf (first second : KnownValue) : Knowledge :=
  if first = second then exactly first else either first second

def isUnknown : Knowledge → Bool
  | unknown => true
  | _ => false

def single? : Knowledge → Option KnownValue
  | exactly value => some value
  | _ => none

/-- Is there only one possible value, and is it a constant? -/
def isConstant (knowledge : Knowledge) : Bool :=
  knowledge.single?.any KnownValue.isConstant

end Knowledge

namespace Shape

/-- The shape with these fields; no field at all says nothing. -/
def ofEntries (entries : List (FieldId × Knowledge)) : Shape :=
  if entries.isEmpty then blank else fields entries

def field (shape : Shape) (field : FieldId) : Knowledge :=
  match shape with
  | fields entries =>
      ((entries.find? (fun entry => entry.1 == field)).map Prod.snd).getD .unknown
  | blank | constants _ => .unknown

def isBlank : Shape → Bool
  | blank => true
  | _ => false

end Shape

end FlowFacts
