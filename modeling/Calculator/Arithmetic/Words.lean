/-
Doubles in words of 64 bits.

A word holds every bit of a double, those of a NaN too.  An operation on words is that
of the doubles which they stand for.  Only when its result is NaN there is more to say,
namely which one, and here the choice is that of x86-64 processors.  A NaN among the
operands is passed on, the first if there are more.  Where there is none the operation
was invalid, and its NaN has the sign set.
-/
import Calculator.Arithmetic.Basic
import Calculator.Binary64.TotalOrder

namespace Calculator

namespace Binary64

/-- The word with its sign turned round. -/
def negateWord (word : UInt64) : UInt64 :=
  word ^^^ 0x8000000000000000

/-- Does the word stand for NaN? -/
def isNaNWord (word : UInt64) : Bool :=
  (Float.ofBits word).isNaN

/-- The word for the result of an operation on words.  A NaN that is passed on becomes a
quiet one. -/
def settle (operands : List UInt64) (result : Float) : UInt64 :=
  if result.isNaN then
    match operands.find? isNaNWord with
    | some operand => operand ||| 0x0008000000000000
    | none => 0xFFF8000000000000
  else result.toBits

end Binary64

/-- The arithmetic of doubles in words. -/
def Arithmetic.words : Arithmetic UInt64 where
  ofDecimal d := d.toFloat.toBits
  negate := Binary64.negateWord
  operate op x y := Binary64.settle [x, y] (op.apply (Float.ofBits x) (Float.ofBits y))
  elementary f x := Binary64.settle [x] (f.apply (Float.ofBits x))
  nan := 0x7FF8000000000000
  toFloat := Float.ofBits
  rank := Binary64.wordRank
  isNaN_nan := rfl
  rank_injective := fun _ _ => Binary64.word_eq_of_rank_eq

end Calculator
