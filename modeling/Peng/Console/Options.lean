import Peng.Diagnostic.Report
import Peng.Text.Similarity

/-!
# The command line

What the arguments of the command ask for. They are read from left to right. Each adds to the
options, unless it settles the matter by itself, as a request for help or the version or a
mistake does; reading then ends with that request, which takes the place of an error.
-/

namespace Peng

/-- The options. -/
inductive Flag where
  | interactive
  | fancy
  | help
  | version
deriving DecidableEq

namespace Flag

/-- All options, in the order in which they are listed. -/
def all : List Flag := [interactive, fancy, help, version]

/-- The name of an option, without the dashes before it. -/
def name : Flag → String
  | interactive => "interactive"
  | fancy => "fancy"
  | help => "help"
  | version => "version"

/-- An option as it is written in full. -/
def written (f : Flag) : String :=
  "--" ++ f.name

/-- The option of that name. -/
def ofName? (name : String) : Option Flag :=
  all.find? (·.name = name)

/-- The option of one letter. -/
def ofLetter? : Char → Option Flag
  | 'i' => some interactive
  | 'h' => some help
  | 'V' => some version
  | _ => none

/-- The option that somebody may have meant by a name: the one with the most similar name, if
any is similar enough. Of equally similar ones it is the last. -/
def meant? (name : String) : Option Flag :=
  let consider (best : Option (Float × Flag)) (f : Flag) : Option (Float × Flag) :=
    let s := similarity name.toList f.name.toList
    match best with
    | some (t, g) => if s < t then some (t, g) else some (s, f)
    | none => if 0.7 < s then some (s, f) else none
  (all.foldl consider none).map (·.2)

end Flag

/-- A pattern of a command line: the options that are part of it, and whether a file is. -/
structure Usage where
  flags : List Flag
  file : Bool
deriving DecidableEq

namespace Usage

/-- The pattern that says nothing about a particular command line. -/
def general : Usage :=
  ⟨[], false⟩

/-- The pattern with one more option, unless it has that option already. -/
def adding (u : Usage) (f : Flag) : Usage :=
  if f ∈ u.flags then u else ⟨u.flags ++ [f], u.file⟩

/-- A pattern as text. Options and files that may be there stand in brackets. -/
def text (u : Usage) : String :=
  if u = general then "Usage: peng [OPTIONS] [FILE]"
  else
    "Usage: peng" ++ String.join (u.flags.map (" " ++ ·.written))
      ++ (if u.file then " <FILE>" else " [FILE]")

end Usage

/-- What is wrong with the arguments. -/
inductive Misuse where
  /-- A name that no option has, the option that may have been meant by it, and the pattern to
  show. -/
  | unknownName (name : String) (meant : Option Flag) (usage : Usage)
  | unknownLetter (letter : Char)
  /-- An argument behind the one that names the file. -/
  | extraArgument (argument : String)
  | repeatedFlag (flag : Flag)
  /-- A value for an option that takes none, and the pattern to show. -/
  | unwantedValue (flag : Flag) (value : String) (usage : Usage)

/-- What the arguments ask for. -/
inductive Request where
  | help
  | version
  | misuse (misuse : Misuse)
  | script (path : String) (style : ReportStyle)
  | interactive (style : ReportStyle)

/-- What was read from an argument. -/
inductive Setting where
  | flag (flag : Flag)
  | file (path : String)
deriving DecidableEq

/-- What was read from the arguments so far, the last first. -/
abbrev Options := List Setting

namespace Options

/-- The options in the order in which they were read. -/
def flags (o : Options) : List Flag :=
  o.reverse.filterMap fun
    | .flag f => some f
    | .file _ => none

/-- The file that was read. -/
def file? (o : Options) : Option String :=
  o.findSome? fun
    | .flag _ => none
    | .file path => some path

/-- The pattern of all that was read. -/
def usage (o : Options) : Usage :=
  ⟨o.flags, o.file?.isSome⟩

/-- The pattern of all that was read and followed by something else: a file that was read last
still waits to be part of it. -/
def usageSoFar : Options → Usage
  | .file _ :: o => usage o
  | o => usage o

/-- Takes an option, which can be given once. Help and the version are asked for at once. -/
def takeFlag (o : Options) : Flag → Except Request Options
  | .help => .error .help
  | .version => .error .version
  | f => if .flag f ∈ o then .error (.misuse (.repeatedFlag f)) else .ok (.flag f :: o)

/-- Takes an argument as the file, of which there can be one. -/
def takeFile (o : Options) (argument : String) : Except Request Options :=
  match o.file? with
  | some _ => .error (.misuse (.extraArgument argument))
  | none => .ok (.file argument :: o)

/-- Reads an option of one letter; several may stand behind one dash. -/
def readLetter (o : Options) (letter : Char) : Except Request Options :=
  match Flag.ofLetter? letter with
  | some f => o.takeFlag f
  | none => .error (.misuse (.unknownLetter letter))

/-- Reads an option of that name, with the value that an equals sign gives it. -/
def readName (o : Options) (name : String) (value : Option String) : Except Request Options :=
  match Flag.ofName? name, value with
  | some f, none => o.takeFlag f
  | some f, some value =>
    .error (.misuse (.unwantedValue f value (o.usageSoFar.adding f)))
  | none, _ =>
    match Flag.meant? name with
    | some f => .error (.misuse (.unknownName name (some f) (o.usage.adding f)))
    | none => .error (.misuse (.unknownName name none o.usage))

/-- Reads one argument that may be an option. A lone dash names a file. -/
def readArgument (o : Options) (argument : String) : Except Request Options :=
  match argument.toList with
  | '-' :: '-' :: rest =>
    let name := String.ofList (rest.takeWhile (· ≠ '='))
    match rest.dropWhile (· ≠ '=') with
    | [] => o.readName name none
    | _ :: value => o.readName name (some (String.ofList value))
  | '-' :: letter :: letters => (letter :: letters).foldlM readLetter o
  | _ => o.takeFile argument

/-- Reads arguments from left to right; all behind a double dash name files. -/
def readAll (o : Options) : List String → Except Request Options
  | [] => .ok o
  | "--" :: rest => rest.foldlM takeFile o
  | argument :: rest =>
    match o.readArgument argument with
    | .ok o => o.readAll rest
    | .error request => .error request

/-- What the options ask for: without a file to run, or when asked to, the prompt. -/
def request (o : Options) : Request :=
  let style := if .flag .fancy ∈ o then .fancy else .plain
  match o.file? with
  | some path => if .flag .interactive ∈ o then .interactive style else .script path style
  | none => .interactive style

end Options

/-- What a list of arguments asks for. -/
def Request.ofArguments (arguments : List String) : Request :=
  match Options.readAll [] arguments with
  | .ok options => options.request
  | .error request => request

/-! ## Texts -/

/-- The version of the program. -/
def programVersion : String := "0.1.0"

/-- The answer to a request for the version. -/
def versionText : String :=
  s!"peng {programVersion}\n"

/-- The answer to a request for help. -/
def helpText : String :=
  "An interpreter for PENG, programming in plain English\n\n"
    ++ Usage.general.text ++ "\n\n"
    ++ "Arguments:\n"
    ++ "  [FILE]  The script file to execute, or '-' to read it from stdin\n\n"
    ++ "Options:\n"
    ++ "  -i, --interactive  Start in interactive REPL mode\n"
    ++ "      --fancy        Show errors with an annotated source excerpt\n"
    ++ "  -h, --help         Print help\n"
    ++ "  -V, --version      Print version\n"

namespace Misuse

/-- What is wrong, in one line. -/
def message : Misuse → String
  | unknownName name _ _ => s!"unexpected argument '--{name}' found"
  | unknownLetter letter => s!"unexpected argument '-{letter}' found"
  | extraArgument argument => s!"unexpected argument '{argument}' found"
  | repeatedFlag flag => s!"the argument '{flag.written}' cannot be used multiple times"
  | unwantedValue flag value _ =>
    s!"unexpected value '{value}' for '{flag.written}' found; no more were expected"

/-- How an argument that looks like an option can be given as a file after all. -/
def valueTip (argument : String) : String :=
  s!"to pass '{argument}' as a value, use '-- {argument}'"

/-- Advice that goes with a misuse. -/
def tip? : Misuse → Option String
  | unknownName _ (some flag) _ => some s!"a similar argument exists: '{flag.written}'"
  | unknownName name none _ => some (valueTip ("--" ++ name))
  | unknownLetter letter => some (valueTip (String.ofList ['-', letter]))
  | _ => none

/-- The pattern of a command line that is shown with a misuse. -/
def usage : Misuse → Usage
  | unknownName _ _ usage | unwantedValue _ _ usage => usage
  | _ => .general

/-- All that is said about a misuse. -/
def text (m : Misuse) : String :=
  let tip := match m.tip? with
    | some tip => s!"  tip: {tip}\n\n"
    | none => ""
  s!"error: {m.message}\n\n{tip}{m.usage.text}\n\nFor more information, try '--help'.\n"

end Misuse

end Peng
