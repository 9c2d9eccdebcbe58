/-
Calling a function by its name.

The case of ASCII letters does not matter in a name.  An aggregate takes whatever
arguments there are; any other function takes exactly one.  A name that is known but
has the wrong number of arguments is reported like a name that is not known.
-/
import Calculator.Arithmetic.Words
import Calculator.Error
import Calculator.Function.Aggregate
import Calculator.Function.Unary

namespace Calculator

/-- The text with its ASCII capitals made small. -/
def lowercase (text : String) : String :=
  String.ofList (text.toList.map Char.toLower)

/-- What a call gives: its value, and the argument list as the call leaves it. -/
@[ext]
structure Outcome (α : Type) where
  value : Except Error α
  arguments : List α

/-- The outcome with its values replaced. -/
def Outcome.map {α β : Type} (f : α → β) (outcome : Outcome α) : Outcome β :=
  ⟨outcome.value.map f, outcome.arguments.map f⟩

/-- Call the function with a name on an argument list. -/
def Arithmetic.call {α : Type} (m : Arithmetic α) (name : String) (arguments : List α) :
    Outcome α :=
  let lowered := lowercase name
  match Aggregate.ofName? lowered with
  | some g => ⟨.ok (g.apply m arguments), g.rearrange m arguments⟩
  | none =>
      match Unary.ofName? lowered, arguments with
      | some f, [x] => ⟨.ok (f.apply m x), arguments⟩
      | _, _ => ⟨.error (.unrecognizedFunction lowered arguments.length), arguments⟩

/-- Call the function with a name on doubles. -/
def call (name : String) (arguments : List Float) : Outcome Float :=
  (Arithmetic.words.call name (arguments.map Float.toBits)).map Arithmetic.words.toFloat

end Calculator
