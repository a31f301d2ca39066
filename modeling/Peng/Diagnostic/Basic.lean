import Peng.Fault
import Peng.Source.Position

/-!
# Diagnostics

A fault as the user is told of it.
-/

namespace Peng

/-- A message about a stretch of source. -/
structure Diagnostic where
  kind : FaultKind
  message : String
  span : Span
  /-- The scope that a missing name was looked up in. -/
  scope : Option String
deriving DecidableEq

namespace Diagnostic

/-- The diagnostic of a fault. -/
def ofFault (f : Located Fault) : Diagnostic :=
  ⟨f.cause.kind, f.cause.message, f.span, f.cause.scope?⟩

/-- The diagnostic without a picture: kind, message and both ends of the stretch. -/
def describe (d : Diagnostic) : String :=
  s!"{d.kind.title}: {d.message}.\n{d.span.start.describe}\n{d.span.finish.describe}"

end Diagnostic

end Peng
