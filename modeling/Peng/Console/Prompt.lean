import Peng.Console.Options
import Peng.Text.Lines

/-!
# The prompt

An interactive conversation: each line is run as a program of its own in one session, so that
names keep their values. A line that fails is reported, and the conversation goes on.
-/

namespace Peng

namespace Prompt

/-- What the conversation opens with. -/
def greeting : String :=
  s!"PENG v{programVersion}\nType 'exit' or press Ctrl+D to quit\n\n"

/-- What asks for a line. -/
def mark : String := "> "

/-- What the places in a line are called by. -/
def sourceName : String := "<stdin>"

/-- What becomes of one line. -/
inductive Turn where
  /-- The conversation goes on; `errors` is what is reported about the line. -/
  | next (session : Session) (errors : String)
  | leave

/-- Runs one line. White space around it is dropped, so places count from the first character
that is left; two words end the conversation. -/
def turn (style : ReportStyle) (session : Session) (line : String) : Turn :=
  let line := String.ofList (trim line.toList)
  if line = "" then .next session ""
  else if line = "exit" ∨ line = "quit" then .leave
  else
    let outcome := session.runSource sourceName line
    match outcome.stop with
    | none => .next outcome.session ""
    | some stop => .next outcome.session (stop.report style line)

/-- What is said when a line is not text. -/
def notTextMessage : String :=
  "Error reading input: stream did not contain valid UTF-8\n"

end Prompt

/-- What a conversation leaves behind; `readable` says that every line of it was text. -/
structure Conversation where
  session : Session
  errors : String
  readable : Bool

namespace Prompt

/-- A conversation over lines. The prompt and the output of the lines go to the same sink. -/
def converse (style : ReportStyle) (session : Session) (errors : String) :
    List ByteArray → Conversation
  | [] => ⟨((session.write mark).session.write "\n").session, errors, true⟩
  | line :: lines =>
    let session := (session.write mark).session
    match String.fromUTF8? line with
    | none => ⟨session, errors ++ notTextMessage, false⟩
    | some text =>
      match turn style session text with
      | .leave => ⟨session, errors, true⟩
      | .next session report => converse style session (errors ++ report) lines

/-- The whole conversation that some input leads to. -/
def conversation (style : ReportStyle) (input : ByteArray) : Conversation :=
  converse style ((Session.fresh (.empty none)).write greeting).session "" (inputLines input)

end Prompt

end Peng
