/-
The library classes that every program starts from, under fixed numbers.
-/
import FlowFacts.Program.Basic

namespace FlowFacts

namespace WellKnown

def object : TypeId := 0

def classType : TypeId := 2

/-- The root of everything that can be thrown. -/
def throwable : TypeId := 4

/-- The root of the exceptions that need no declaration. -/
def runtimeException : TypeId := 6

/-- Thrown by an access through null. -/
def nullPointerException : TypeId := 7

/-- Thrown by an integer division by zero. -/
def arithmeticException : TypeId := 8

/-- Thrown by an access outside an array. -/
def arrayIndexException : TypeId := 9

/-- Thrown by storing an element of a wrong class. -/
def arrayStoreException : TypeId := 10

/-- Thrown by a failing cast. -/
def classCastException : TypeId := 11

/-- Thrown by allocating an array of negative length. -/
def negativeArraySizeException : TypeId := 12

/-- The root of errors; failures to load or initialize a class are errors. -/
def error : TypeId := 13

def linkageError : TypeId := 14

def boolean : TypeId := 17

def void : TypeId := 20

/-- The method that asks a class object whether assertions are wanted. -/
def desiredAssertionStatus : MethodId := 0

/-- A class of the library that lists these methods. -/
def libraryClass (name : String) (parent : Option TypeId)
    (methods : List MethodId) : TypeEntry :=
  { descriptor := .plain name
    definition := some { parent, traits := { isLibrary := true }, methods } }

/-- The first types of every program, in order. -/
def types : List TypeEntry :=
  [ libraryClass "Ljava/lang/Object;" none [],
    libraryClass "Ljava/lang/String;" (some object) [],
    libraryClass "Ljava/lang/Class;" (some object) [desiredAssertionStatus],
    libraryClass "Ljava/lang/Enum;" (some object) [],
    libraryClass "Ljava/lang/Throwable;" (some object) [],
    libraryClass "Ljava/lang/Exception;" (some throwable) [],
    libraryClass "Ljava/lang/RuntimeException;" (some 5) [],
    libraryClass "Ljava/lang/NullPointerException;" (some runtimeException) [],
    libraryClass "Ljava/lang/ArithmeticException;" (some runtimeException) [],
    libraryClass "Ljava/lang/ArrayIndexOutOfBoundsException;"
      (some runtimeException) [],
    libraryClass "Ljava/lang/ArrayStoreException;" (some runtimeException) [],
    libraryClass "Ljava/lang/ClassCastException;" (some runtimeException) [],
    libraryClass "Ljava/lang/NegativeArraySizeException;"
      (some runtimeException) [],
    libraryClass "Ljava/lang/Error;" (some throwable) [],
    libraryClass "Ljava/lang/LinkageError;" (some error) [],
    libraryClass "Ljava/lang/ExceptionInInitializerError;"
      (some linkageError) [],
    libraryClass "Ljava/lang/NoClassDefFoundError;" (some linkageError) [],
    { descriptor := .plain "Z" },
    { descriptor := .plain "I" },
    { descriptor := .plain "J" },
    { descriptor := .plain "V" } ]

end WellKnown

/-- The program that holds the library classes only. -/
def Program.initial : Program :=
  { types := WellKnown.types.toArray
    numbers := WellKnown.types.zipIdx.map fun (entry, type) =>
      (entry.descriptor, type)
    methods := #[
      { holder := WellKnown.classType
        name := "desiredAssertionStatus"
        params := []
        returns := WellKnown.boolean
        traits := { isLibrary := true }
        facts := { hasEffects := false } }] }

end FlowFacts
