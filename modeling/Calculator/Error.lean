/-
What can go wrong.

An expression fails to be built because of one token: the text has none, the token is
of no kind, or it may not follow the one before.  An expression that was built fails
to be evaluated because of one node of its tree.  Each cause is a value, and the
wording is decided in one place.
-/

namespace Calculator

/-- What makes a node of a tree impossible to evaluate. -/
inductive Defect
  /-- The text of a number node is no number literal. -/
  | notANumber (literal : String)
  /-- An operator does not have the operands it needs. -/
  | operands (symbol : String) (count : Nat)
  /-- A group that is no argument list holds no value, or more than one. -/
  | values (count : Nat)
  /-- A word has no argument list. -/
  | noArguments (word : String)
  /-- A token that never has a value stands where one is needed. -/
  | unexpected (token : String)
  deriving DecidableEq, Inhabited

/-- Why an expression has no value. -/
inductive Error
  /-- There is no token. -/
  | emptyExpression
  /-- A token is of no kind. -/
  | invalidToken (token : String)
  /-- A token may not follow the one before. -/
  | invalidSequence (previous token : String)
  /-- No function has this name and takes this many arguments. -/
  | unrecognizedFunction (name : String) (arity : Nat)
  /-- A node of the tree is defective. -/
  | malformed (defect : Defect)
  deriving DecidableEq, Inhabited

/-- The text between single quotes. -/
def quoted (text : String) : String :=
  "'" ++ text ++ "'"

/-- The wording of a defect. -/
def Defect.message : Defect → String
  | notANumber literal => quoted literal ++ " is not a number"
  | operands symbol count =>
      "operator " ++ quoted symbol ++ " with " ++ toString count ++ " operand(s)"
  | values count => "group with " ++ toString count ++ " values"
  | noArguments word => quoted word ++ " is not followed by an argument list"
  | unexpected token => "unexpected " ++ quoted token

/-- The wording of an error. -/
def Error.message : Error → String
  | emptyExpression => "empty expression"
  | invalidToken token => "invalid token: " ++ quoted token
  | invalidSequence previous token =>
      "invalid tokens together: " ++ quoted previous ++ " and " ++ quoted token
  | unrecognizedFunction name arity =>
      "function not recognized: " ++ quoted name ++ " with " ++ toString arity ++ " argument(s)"
  | malformed defect => "malformed tree: " ++ defect.message

end Calculator
