/-
Scientific notation of decimals: a mantissa, the letter `e` and a power of ten.

Writing fixes the number of significant digits and always puts the point after the
first, as in `1.40e1`.  Reading is more generous: the mantissa may be any number
literal and the power of ten may be missing.
-/
import Calculator.Decimal.Rounding

namespace Calculator.Decimal

/-- The decimal in scientific notation with `n` significant digits. -/
def toScientific (n : Nat) (d : Decimal) : String :=
  let rounded := d.toPrecision n
  let digits := (Nat.toDigits 10 rounded.coefficient).leftpad n '0'
  String.ofList (digits.take 1 ++ '.' :: digits.drop 1) ++
    "e" ++ toString (rounded.exponent + (n - 1 : Nat))

/-- The whole number written as an optional sign and digits. -/
def exponentOfChars? (text : List Char) : Option Int :=
  let digits := text.dropWhile (fun c => c = '-' || c = '+')
  if !digits.isEmpty && digits.all Char.isDigit then
    let size : Int := Nat.ofDigitChars 10 digits 0
    match text.takeWhile (fun c => c = '-' || c = '+') with
    | [] | ['+'] => some size
    | ['-'] => some (-size)
    | _ => none
  else none

/-- The decimal that an unsigned text in scientific notation denotes. -/
def ofScientific? (text : List Char) : Option Decimal :=
  match text.dropWhile (· ≠ 'e') with
  | [] => ofLiteral? text
  | _ :: power => do
      let mantissa ← ofLiteral? (text.takeWhile (· ≠ 'e'))
      let shift ← exponentOfChars? power
      return ⟨mantissa.coefficient, mantissa.exponent + shift⟩

end Calculator.Decimal
