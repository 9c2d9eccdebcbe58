/-
The kinds of tokens.

A token is a piece of text, and its kind follows from the text alone.  Groups have
two kinds: a parenthesis that was opened is waiting for its content, and once it is
closed the pair counts as one finished operand, written `()`.
-/
import Calculator.Decimal.Basic
import Calculator.Error
import Calculator.Token.Operator

namespace Calculator

/-- The kind of a token. -/
inductive Kind
  /-- A number literal. -/
  | number
  /-- One of the operators. -/
  | operator (op : Operator)
  /-- `(`, a group still waiting for its content. -/
  | openGroup
  /-- `)`. -/
  | closer
  /-- `()`, a group that was closed. -/
  | closedGroup
  /-- Letters only, the name of a function. -/
  | word
  /-- `,`. -/
  | comma
  deriving DecidableEq, Inhabited

/-- Is the text made of ASCII letters only, and not empty? -/
def isWord (text : String) : Bool :=
  !text.toList.isEmpty && text.toList.all Char.isAlpha

namespace Kind

/-- The kind of a token, if it is of any. -/
def of? (token : String) : Option Kind :=
  if (Decimal.ofLiteral? token.toList).isSome then some number
  else
    match Operator.ofSymbol? token with
    | some op => some (operator op)
    | none =>
        match token with
        | "(" => some openGroup
        | ")" => some closer
        | "()" => some closedGroup
        | "," => some comma
        | _ => if isWord token then some word else none

/-- The kind of a token; a token of no kind is an error. -/
def classify (token : String) : Except Error Kind :=
  match of? token with
  | some kind => .ok kind
  | none => .error (.invalidToken token)

/-- How tightly a token binds its neighbours.  Only operators do. -/
def precedence : Kind → Nat
  | operator op => op.precedence
  | _ => 0

/-- Is this a group, open or closed? -/
def isGroup : Kind → Bool
  | openGroup | closedGroup => true
  | _ => false

end Kind

end Calculator
