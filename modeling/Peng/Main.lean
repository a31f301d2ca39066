import Peng.Console.Command

/-!
# The program

The outermost layer: it reads files and standard input, and writes what the rest decides.
-/

namespace Peng

/-- What a path leads to. -/
def readPath (path : String) : IO Contents := do
  try
    return .bytes (← IO.FS.readBinFile path)
  catch
    | .noFileOrDirectory .. => return .missing
    | .inappropriateType _ code _ => return if code = 20 then .behindFile else .folder
    | problem => throw problem

/-- All of the input that is left. -/
partial def readToEnd (input : IO.FS.Stream) (soFar : ByteArray) : IO ByteArray := do
  let chunk ← input.read 65536
  if chunk.isEmpty then return soFar else readToEnd input (soFar ++ chunk)

/-- One line of input without its newline, and none at the end. `soFar` is the part of the
line that was read already. -/
partial def readLine (input : IO.FS.Stream) (soFar : ByteArray) : IO (Option ByteArray) := do
  let byte ← input.read 1
  if byte.isEmpty then return if soFar.isEmpty then none else some soFar
  else if byte.data[0]? = some 10 then return some soFar
  else readLine input (soFar ++ byte)

/-- Writes a finished command out and gives its code. -/
def conclude (finish : Finish) : IO UInt8 := do
  let output ← IO.getStdout
  output.write finish.output
  output.flush
  let errors ← IO.getStderr
  errors.write finish.errors
  errors.flush
  return finish.code

/-- Goes through a conversation line by line, writing everything as it comes. -/
partial def converseLive (style : ReportStyle) (session : Session) : IO UInt8 := do
  let output ← IO.getStdout
  output.putStr Prompt.mark
  output.flush
  match ← readLine (← IO.getStdin) .empty with
  | none => conclude (.saying "\n")
  | some line =>
    match String.fromUTF8? line with
    | none => conclude (.complaining Prompt.notTextMessage 1)
    | some text =>
      match Prompt.turn style session text with
      | .leave => return 0
      | .next session report =>
        output.write session.sink.written
        output.flush
        let errors ← IO.getStderr
        errors.putStr report
        errors.flush
        converseLive style ⟨session.scope, .empty none⟩

/-- Does what the arguments ask for. -/
def perform (arguments : List String) : IO UInt8 := do
  match Request.ofArguments arguments with
  | .interactive style =>
    let output ← IO.getStdout
    output.putStr Prompt.greeting
    converseLive style (.fresh (.empty none))
  | .script path style =>
    let contents ←
      if path = inputPath then
        Contents.bytes <$> readToEnd (← IO.getStdin) .empty
      else readPath path
    conclude (runScript path style contents)
  | request => conclude (request.answer [] .empty)

end Peng

def main (arguments : List String) : IO UInt32 := do
  return (← Peng.perform arguments).toUInt32
