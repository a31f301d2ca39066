import Peng.Diagnostic.Excerpt
import Peng.Run.Session

/-!
# Reports

What users read when a run fails.
-/

namespace Peng

/-- How diagnostics are shown. -/
inductive ReportStyle where
  /-- The message, and the places where the stretch in question begins and ends. -/
  | plain
  /-- The message, and an annotated excerpt from the source. -/
  | fancy
deriving DecidableEq

/-- The text of a diagnostic about a source. -/
def Diagnostic.report (d : Diagnostic) (style : ReportStyle) (source : String) : String :=
  match style with
  | .plain => d.describe ++ "\n"
  | .fancy => d.excerpt source

namespace Stop

/-- What is said when the output takes no more. -/
def sinkFullMessage : String := "failed to write program output: sink full"

/-- The text that tells why a run of a source ended early. -/
def report (stop : Stop) (style : ReportStyle) (source : String) : String :=
  match stop with
  | .fault f => (Diagnostic.ofFault f).report style source
  | .sinkFull => sinkFullMessage ++ "\n"

end Stop

/-- What a run wrote to its output and to a sink for errors, and whether it came to its end. -/
structure ReportedRun where
  succeeded : Bool
  output : Sink
  errors : Sink

/-- Runs a source by itself and reports why it ended early, if it did. A report that the sink
for errors has no room for is cut short, and nothing further comes of it. -/
def runAndReport (name source : String) (style : ReportStyle) (output errors : Sink) :
    ReportedRun :=
  let outcome := run name source output
  match outcome.stop with
  | none => ⟨true, outcome.session.sink, errors⟩
  | some stop =>
    ⟨false, outcome.session.sink, (errors.write (stop.report style source).toUTF8).1⟩

end Peng
