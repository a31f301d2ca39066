import Peng.Token.Basic

/-!
# What the grammar asks for

A syntax error says what the grammar would have taken at a place, and which token stands there
instead.
-/

namespace Peng

/-- What the grammar would have taken. -/
inductive Wanted where
  /-- The beginning of a statement, or a newline. -/
  | statement
  /-- The word between a name and its value. -/
  | assignment
  /-- An expression behind what is written `before`. -/
  | operandAfter (before : String)
  /-- An expression that has no sign. -/
  | operand
  | closingParen
  /-- More of a list of values, or its end. -/
  | endOfPrint
  /-- More of an assigned value, or its end. -/
  | endOfAssignment
deriving DecidableEq

/-- The words for what is wanted. -/
def Wanted.message : Wanted → String
  | .statement => "Expected 'say', variable assignment or newline"
  | .assignment => "Expected 'is' after identifier"
  | .operandAfter before => s!"Expected expression after '{before}'"
  | .operand => "Expected int, float, string, identifier or '('"
  | .closingParen => "Expected ')'"
  | .endOfPrint => "Expected ',', '+', '-', '*', '/', newline or end of input"
  | .endOfAssignment => "Expected '+', '-', '*', '/', newline or end of input"

/-- What stands there instead. -/
inductive Found where
  | endOfInput
  | newline
  | lexeme (text : String)
deriving DecidableEq

/-- The words for what is found. -/
def Found.describe : Found → String
  | .endOfInput => "end of input"
  | .newline => "newline"
  | .lexeme text => s!"'{text}'"

/-- A token as it is named in a syntax error. -/
def Token.found (t : Token) : Found :=
  match t.kind with
  | .endOfInput => .endOfInput
  | .newline => .newline
  | _ => .lexeme t.lexeme

/-- A token that the grammar has no use for. -/
structure SyntaxFault where
  wanted : Wanted
  found : Found
deriving DecidableEq

/-- The words for a syntax error. -/
def SyntaxFault.message (f : SyntaxFault) : String :=
  s!"{f.wanted.message}, found {f.found.describe}"

end Peng
