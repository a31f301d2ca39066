import Peng.Console.Folder
import Peng.Console.Options
import Peng.Console.Prompt

/-!
# The command

What the command writes and the code it ends with, as a function of its arguments, the folder
it is started in and its input.
-/

namespace Peng

/-- What a finished command leaves behind. -/
structure Finish where
  output : ByteArray
  errors : ByteArray
  code : UInt8

namespace Finish

/-- Ends well after writing a text. -/
def saying (text : String) : Finish :=
  ⟨text.toUTF8, .empty, 0⟩

/-- Ends with a complaint. -/
def complaining (text : String) (code : UInt8) : Finish :=
  ⟨.empty, text.toUTF8, code⟩

end Finish

/-- The text of what was read, or why there is none. -/
def Contents.text : Contents → Except String String
  | .missing => .error "No such file or directory (os error 2)"
  | .folder => .error "Is a directory (os error 21)"
  | .behindFile => .error "Not a directory (os error 20)"
  | .bytes b =>
    match String.fromUTF8? b with
    | some text => .ok text
    | none => .error "stream did not contain valid UTF-8"

/-- The path that stands for the input of the command. -/
def inputPath : String := "-"

/-- Runs a script by the path it was asked for with, and what was read from there. -/
def runScript (path : String) (style : ReportStyle) (contents : Contents) : Finish :=
  let (name, origin) :=
    if path = inputPath then ("<stdin>", "stdin") else (path, s!"file '{path}'")
  match contents.text with
  | .error why => .complaining s!"Error reading {origin}: {why}\n" 1
  | .ok source =>
    let run := runAndReport name source style (.empty none) (.empty none)
    ⟨run.output.written, run.errors.written, if run.succeeded then 0 else 1⟩

/-- Answers a request. -/
def Request.answer (request : Request) (folder : Folder) (input : ByteArray) : Finish :=
  match request with
  | .help => .saying helpText
  | .version => .saying versionText
  | .misuse m => .complaining m.text 2
  | .script path style =>
    runScript path style (if path = inputPath then .bytes input else folder.read path)
  | .interactive style =>
    let c := Prompt.conversation style input
    ⟨c.session.sink.written, c.errors.toUTF8, if c.readable then 0 else 1⟩

/-- The command. -/
def command (arguments : List String) (folder : Folder) (input : ByteArray) : Finish :=
  (Request.ofArguments arguments).answer folder input

end Peng
