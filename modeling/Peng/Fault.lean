import Peng.Run.Fault
import Peng.Syntax.Expectation
import Peng.Token.Lexeme
import Peng.Text.Escape

/-!
# Faults

Everything that can be wrong with a program: its characters, its grammar, or what it asks for
when it runs. Each fault is of one of six kinds, by which it is presented to the user.
-/

namespace Peng

/-- The kinds of fault that users are told of. -/
inductive FaultKind where
  | unknownCharacter
  | invalidCharacter
  | invalidSyntax
  | invalidOperation
  | divisionByZero
  | undefinedIdentifier
deriving DecidableEq

/-- The title of a diagnostic of that kind. -/
def FaultKind.title : FaultKind → String
  | .unknownCharacter => "Unknown Character Error"
  | .invalidCharacter => "Invalid Character Error"
  | .invalidSyntax => "Invalid Syntax Error"
  | .invalidOperation => "Invalid Operation Error"
  | .divisionByZero => "Division By Zero Error"
  | .undefinedIdentifier => "Identifier Error"

/-- The kind of a fault in the characters. -/
def ScanFault.kind : ScanFault → FaultKind
  | .unknownCharacter _ => .unknownCharacter
  | .secondPoint => .invalidCharacter
  | .unclosedText => .invalidSyntax

/-- The words for a fault in the characters. -/
def ScanFault.message : ScanFault → String
  | .unknownCharacter c => s!"Unknown character '{spelledOut c}'"
  | .secondPoint => "Invalid character '.'"
  | .unclosedText => "Expected closing '\"'"

/-- The kind of a fault of a running program. -/
def RunFault.kind : RunFault → FaultKind
  | .binaryKinds .. | .signedKind .. | .repetitionCount _ | .repetitionTooLarge =>
    .invalidOperation
  | .divisionByZero => .divisionByZero
  | .undefinedName .. => .undefinedIdentifier

/-- What is wrong with a program, by the stage that notices. -/
inductive Fault where
  | scanning (fault : ScanFault)
  | parsing (fault : SyntaxFault)
  | running (fault : RunFault)

namespace Fault

/-- The kind that users are told of. -/
def kind : Fault → FaultKind
  | scanning f => f.kind
  | parsing _ => .invalidSyntax
  | running f => f.kind

/-- The words for a fault. -/
def message : Fault → String
  | scanning f => f.message
  | parsing f => f.message
  | running f => f.message

/-- The scope that a missing name was looked up in. -/
def scope? : Fault → Option String
  | running f => f.scope?
  | _ => none

end Fault

end Peng
