import Peng.Fault
import Peng.Run.Evaluation
import Peng.Run.Sink
import Peng.Syntax.Reader
import Peng.Token.Scan

/-!
# Running programs

A `Session` is what lives from one statement to the next: the names with their values, and the
sink that takes the output. A statement evaluates everything it needs before it changes either
of them. Running stops at the first fault, or when the sink refuses to take more.
-/

namespace Peng

/-- The state of a running program. -/
structure Session where
  scope : Scope
  sink : Sink

/-- Why a run ended early. -/
inductive Stop where
  | fault (fault : Located Fault)
  | sinkFull

/-- What a run left behind, and why it ended early if it did. -/
structure Outcome where
  session : Session
  stop : Option Stop

/-- What a statement prints: the texts of its values on one line. -/
def printedLine (values : List Value) : String :=
  " ".intercalate (values.map Value.text) ++ "\n"

namespace Session

/-- A session in which no name has a value. -/
def fresh (sink : Sink) : Session :=
  ⟨.empty "<main>", sink⟩

/-- Writes to the output. -/
def write (s : Session) (text : String) : Outcome :=
  let (sink, accepted) := s.sink.write text.toUTF8
  ⟨⟨s.scope, sink⟩, if accepted then none else some .sinkFull⟩

/-- Gives a name the value of an expression, which is also the answer. -/
def assign (s : Session) (name : String) (e : Expr) :
    Except (Located RunFault) Value × Session :=
  match e.value s.scope with
  | .error fault => (.error fault, s)
  | .ok v => (.ok v, ⟨s.scope.assign name v, s.sink⟩)

/-- Ends a run for a fault, with the session as it is. -/
def stopFor (s : Session) (fault : Located Fault) : Outcome :=
  ⟨s, some (.fault fault)⟩

/-- Runs one statement. -/
def runStatement (s : Session) : Statement → Outcome
  | .print values _ =>
    match Expr.values s.scope values with
    | .error fault => s.stopFor (fault.map .running)
    | .ok vs => s.write (printedLine vs)
  | .assign name e _ =>
    match s.assign name e with
    | (.error fault, s) => s.stopFor (fault.map .running)
    | (.ok _, s) => ⟨s, none⟩

/-- Runs statements in order until one of them stops the run. -/
def runStatements (s : Session) : List Statement → Outcome
  | [] => ⟨s, none⟩
  | first :: more =>
    match s.runStatement first with
    | ⟨s, none⟩ => s.runStatements more
    | stopped => stopped

/-- Scans, parses and runs a source. Nothing runs unless all of it can be scanned and
parsed. -/
def runSource (s : Session) (name source : String) : Outcome :=
  match scan name source with
  | .error fault => s.stopFor (fault.map .scanning)
  | .ok tokens =>
    match parse tokens with
    | .error fault => s.stopFor (fault.map .parsing)
    | .ok program => s.runStatements program.statements

end Session

/-- Runs a source by itself. -/
def run (name source : String) (sink : Sink) : Outcome :=
  (Session.fresh sink).runSource name source

end Peng
