/-
A grammar of expressions, read by recursive descent.

The usual way to read operators is to recurse: an expression is an operand followed by
operators that bind tightly enough, and the right operand of each is an expression in
which only tighter operators may stand.  The rules below are that reader, one
constructor for each of its alternatives, with the trees it makes.  A judgement names
the tokens before and after; the rule that applies is always known from the next token.

Two rules are not the usual ones.  A number or a group that is followed by something to
multiply with takes all of it as a factor, however tightly the context binds.  And a
call that is followed by an operator becomes its left operand at once, however loosely
that operator binds: `2*f(1)+3` is `2*(f(1)+3)`.
-/
import Calculator.Proofs.Tokens
import Calculator.Tree.Basic

namespace Calculator.Grammar

/-! ### The next token -/

/-- The next token, if it is an operator. -/
def operator? : List String → Option Operator
  | [] => none
  | token :: _ => Operator.ofSymbol? token

/-- The next token is a word. -/
def WordNext (tokens : List String) : Prop :=
  tokens.head?.bind Kind.of? = some .word

/-- The next token opens a group. -/
def GroupNext (tokens : List String) : Prop :=
  tokens.head? = some "("

/-- The next token, if it is an operator, does not bind as tightly as `least`. -/
def Below (least : Nat) (tokens : List String) : Prop :=
  ∀ op ∈ operator? tokens, op.precedence < least

instance (tokens : List String) : Decidable (WordNext tokens) :=
  inferInstanceAs (Decidable (_ = _))

instance (tokens : List String) : Decidable (GroupNext tokens) :=
  inferInstanceAs (Decidable (_ = _))

instance (least : Nat) (tokens : List String) : Decidable (Below least tokens) :=
  inferInstanceAs (Decidable (∀ op ∈ _, _))

theorem WordNext.eq_cons {tokens : List String} (h : WordNext tokens) :
    ∃ token rest, tokens = token :: rest ∧ Kind.of? token = some .word := by
  cases tokens with
  | nil => cases h
  | cons token rest => exact ⟨token, rest, rfl, h⟩

theorem GroupNext.eq_cons {tokens : List String} (h : GroupNext tokens) :
    ∃ rest, tokens = "(" :: rest := by
  cases tokens with
  | nil => cases h
  | cons token rest => exact ⟨rest, by rw [Option.some.inj h]⟩

/-! ### The rules -/

mutual

/-- An operand, with the operators after it that bind at least as tightly as `least`. -/
inductive Reads : Nat → List String → Tree → List String → Prop
  | mk {least : Nat} {tokens middle rest : List String} {left t : Tree}
      (operand : ReadsOperand tokens left middle)
      (operators : ReadsOperators least left middle t rest) :
      Reads least tokens t rest

/-- An operand with the sign before it and what it is multiplied with after it. -/
inductive ReadsOperand : List String → Tree → List String → Prop
  | negative {tokens rest : List String} {t : Tree} (operand : Reads 2 tokens t rest) :
      ReadsOperand ("-" :: tokens) (.node "-" (.operator .minus) [t]) rest
  | number {n : String} {rest : List String} (hnumber : Kind.of? n = some .number)
      (hgroup : ¬GroupNext rest) (hword : ¬WordNext rest) :
      ReadsOperand (n :: rest) (.node n .number []) rest
  | numberTimes {n : String} {tokens rest : List String} {t : Tree}
      (hnumber : Kind.of? n = some .number) (hnext : GroupNext tokens ∨ WordNext tokens)
      (factor : Reads 3 tokens t rest) :
      ReadsOperand (n :: tokens) (.node "*" (.operator .times) [.node n .number [], t]) rest
  | group {tokens rest : List String} {t : Tree} (value : Reads 1 tokens t (")" :: rest))
      (hword : ¬WordNext rest) :
      ReadsOperand ("(" :: tokens) (.node "()" .closedGroup [t]) rest
  | groupTimes {tokens middle rest : List String} {t u : Tree}
      (value : Reads 1 tokens t (")" :: middle)) (hnext : WordNext middle)
      (factor : Reads 3 middle u rest) :
      ReadsOperand ("(" :: tokens)
        (.node "*" (.operator .times) [.node "()" .closedGroup [t], u]) rest
  | call {w : String} {tokens rest : List String} {arguments : List Tree}
      (hword : Kind.of? w = some .word) (list : ReadsArguments tokens arguments rest)
      (hnext : operator? rest = none) :
      ReadsOperand (w :: "(" :: tokens) (.node w .word [.node "()" .closedGroup arguments]) rest
  | callOperator {w symbol : String} {tokens middle rest : List String} {arguments : List Tree}
      {op : Operator} {t : Tree} (hword : Kind.of? w = some .word)
      (list : ReadsArguments tokens arguments (symbol :: middle))
      (hop : Operator.ofSymbol? symbol = some op)
      (right : Reads (op.precedence + 1) middle t rest) :
      ReadsOperand (w :: "(" :: tokens)
        (.node symbol (.operator op) [.node w .word [.node "()" .closedGroup arguments], t]) rest

/-- What becomes of a left operand by the operators after it. -/
inductive ReadsOperators : Nat → Tree → List String → Tree → List String → Prop
  | stop {least : Nat} {left : Tree} {rest : List String}
      (hnext : Below least rest) :
      ReadsOperators least left rest left rest
  | more {least : Nat} {left right t : Tree} {symbol : String} {tokens middle rest : List String}
      {op : Operator} (hop : Operator.ofSymbol? symbol = some op) (hle : least ≤ op.precedence)
      (operand : Reads (op.precedence + 1) tokens right middle)
      (operators : ReadsOperators least (.node symbol (.operator op) [left, right]) middle t rest) :
      ReadsOperators least left (symbol :: tokens) t rest

/-- The arguments of a call, up to its closing parenthesis. -/
inductive ReadsArguments : List String → List Tree → List String → Prop
  | last {tokens rest : List String} {t : Tree} (value : Reads 1 tokens t (")" :: rest)) :
      ReadsArguments tokens [t] rest
  | more {tokens middle rest : List String} {t : Tree} {arguments : List Tree}
      (value : Reads 1 tokens t ("," :: middle)) (list : ReadsArguments middle arguments rest) :
      ReadsArguments tokens (t :: arguments) rest

end

end Calculator.Grammar
