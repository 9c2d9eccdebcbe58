/-
Splitting a text into tokens.

Digits and points that stand together are one token, and so are letters that stand
together.  Every other character is a token of its own, except that blanks are no
tokens; a blank between two digits does separate them.  Splitting never fails: what
makes no sense is still a token, and is refused later.

The text is read once.  Whether a character goes on with the token that is being read
depends on the character right before it alone, and that may be a blank.
-/
import Calculator.Unicode.Alphabetic
import Calculator.Unicode.WhiteSpace

namespace Calculator

/-- May the character stand in a number? -/
def isNumberPart (c : Char) : Bool :=
  c.isDigit || c = '.'

/-- Do two neighbouring characters belong to one run? -/
def sameRun (a b : Char) : Bool :=
  (isNumberPart a && isNumberPart b) || (Unicode.isAlphabetic a && Unicode.isAlphabetic b)

/-- Belonging to one run does not depend on the order of the two characters. -/
theorem sameRun_comm (a b : Char) : sameRun a b = sameRun b a := by
  simp only [sameRun, Bool.and_comm]

/-- How far a text has been read. -/
structure Lexer where
  /-- The character that was read last, blank or not. -/
  previous : Option Char := none
  /-- The characters of the token that is being read, the last one first.  There are none
  before the first character and after a blank. -/
  current : List Char := []
  /-- The tokens that are complete. -/
  tokens : Array String := #[]

namespace Lexer

/-- Complete the token that is being read, if there is one. -/
def flush (l : Lexer) : Lexer :=
  if l.current.isEmpty then l
  else { l with tokens := l.tokens.push (String.ofList l.current.reverse), current := [] }

/-- Read one character. -/
def read (l : Lexer) (c : Char) : Lexer :=
  let l := if l.previous.any (sameRun · c) then l else l.flush
  { l with
    previous := some c
    current := if Unicode.isWhiteSpace c then l.current else c :: l.current }

end Lexer

/-- The tokens of a text, in order. -/
def tokenize (text : String) : List String :=
  (text.toList.foldl Lexer.read {}).flush.tokens.toList

end Calculator
