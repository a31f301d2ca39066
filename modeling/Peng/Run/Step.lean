import Peng.Run.Session

/-!
# Steps of a session

The ways in which a session is used: running a source or a single statement, giving a name the
value of an expression, and looking at what is there. A step that fails leaves the session
ready for the next one.
-/

namespace Peng

/-- One use of a session. -/
inductive Step where
  | line (source : String)
  | statement (statement : Statement)
  | assign (name : String) (e : Expr)
  | evaluate (e : Expr)
  | get (name : String)
  | scopeName

/-- What a step answers. -/
inductive Answer where
  /-- The bytes that a run wrote, and why it ended early if it did. -/
  | ran (written : ByteArray) (stop : Option Stop)
  | value (value : Except (Located RunFault) Value)
  | binding (value : Option Value)
  | scopeName (name : String)

namespace Session

/-- What a run that began in the session `before` answers. -/
def answerOf (before : Session) (o : Outcome) : Answer × Session :=
  let written := o.session.sink.written
  (.ran (written.extract before.sink.written.size written.size) o.stop, o.session)

/-- Takes one step; `name` is what the places in its sources are called by. -/
def take (s : Session) (name : String) : Step → Answer × Session
  | .line source => s.answerOf (s.runSource name source)
  | .statement statement => s.answerOf (s.runStatement statement)
  | .assign target e =>
    let (value, s) := s.assign target e
    (.value value, s)
  | .evaluate e => (.value (e.value s.scope), s)
  | .get target => (.binding (s.scope.get? target), s)
  | .scopeName => (.scopeName s.scope.name, s)

/-- Takes steps one after the other, whether they fail or not. -/
def takeAll (s : Session) (name : String) : List Step → List Answer × Session
  | [] => ([], s)
  | step :: steps =>
    let (answer, s) := s.take name step
    let (answers, s) := s.takeAll name steps
    (answer :: answers, s)

end Session

end Peng
