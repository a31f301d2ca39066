import Peng.Diagnostic.Basic
import Peng.Text.Blank
import Peng.Text.Paint
import Peng.Text.Width

/-!
# Source excerpts

A diagnostic drawn with the line of source that it is about: the stretch in question is
coloured, underlined, and tied to the message by a small arrow.

## Shape of an excerpt

* a heading with the kind and the message,
* a frame that opens with the place,
* the line itself, numbered,
* the underline, which turns down in the middle of the stretch, and the arrow to the message,
* a note, if there is one, and the end of the frame.

Excerpts have their own notion of a line: all of Unicode's line ends count. Offsets are counts
of characters; columns on the screen differ from them, for a tab reaches to the next multiple
of four and other characters have a terminal width of zero to two.
-/

namespace Peng

/-! ## Lines -/

/-- The characters that end a line of an excerpt. -/
def isLineEnd (c : Char) : Bool :=
  let n := c.toNat
  (0x0A ≤ n && n ≤ 0x0D) || n == 0x85 || n == 0x2028 || n == 0x2029

/-- The lines of a text, each with its end. A carriage return and a newline are one end, and
there is no empty line behind the last end. -/
def splitLines : List Char → List (List Char)
  | [] => []
  | '\r' :: '\n' :: rest => ['\r', '\n'] :: splitLines rest
  | c :: rest =>
    if isLineEnd c then [c] :: splitLines rest
    else
      match splitLines rest with
      | [] => [[c]]
      | line :: lines => (c :: line) :: lines

/-- A numbered line; `start` is the offset of its first character. -/
structure ExcerptLine where
  number : Nat
  start : Nat
  text : List Char

/-- The last of the lines that starts at or before an offset. The first line has the given
number and start. -/
def lineOf (offset number start : Nat) : List (List Char) → ExcerptLine
  | [] => ⟨number, start, []⟩
  | [line] => ⟨number, start, line⟩
  | line :: more =>
    if start + line.length ≤ offset then lineOf offset (number + 1) (start + line.length) more
    else ⟨number, start, line⟩

/-! ## Cells -/

/-- The columns that the character with index `i` of a line takes on the screen. -/
def cellWidth (i : Nat) (c : Char) : Nat :=
  if c = '\t' then 4 - i % 4
  else if isWhiteSpace c then 1
  else terminalWidth c

/-- `piece` written `n` times. -/
def repeated (n : Nat) (piece : String) : String :=
  String.join (List.replicate n piece)

/-- The character with index `i` of a line as it is shown: white space as spaces. -/
def shownCharacter (colour : Colour) (i : Nat) (c : Char) : String :=
  if isWhiteSpace c then repeated (cellWidth i c) (colour.paint " ")
  else colour.paint c.toString

/-- A row of `count` cells below a line of text. Each cell is as wide as the character above
it, and shows its first piece once and its second piece for the rest of its width. -/
def cellRow (text : List Char) (count : Nat) (cell : Nat → String × String) : String :=
  String.join <| (List.range count).map fun i =>
    let width := match text[i]? with
      | some c => cellWidth i c
      | none => 1
    let (head, tail) := cell i
    if width = 0 then "" else head ++ repeated (width - 1) tail

namespace Diagnostic

/-- The colour of a kind of fault. -/
def colour (d : Diagnostic) : Colour :=
  match d.kind with
  | .unknownCharacter | .invalidCharacter => .red
  | .invalidSyntax => .yellow
  | .invalidOperation | .divisionByZero | .undefinedIdentifier => .magenta

/-- The offset of the first character to underline. -/
def labelStart (d : Diagnostic) : Nat :=
  d.span.start.offset

/-- The offset behind the last character to underline; an empty stretch underlines one. -/
def labelEnd (d : Diagnostic) : Nat :=
  max d.span.finish.offset (d.labelStart + 1)

/-- Whether the underlined stretch lies in a source of that length. The place behind the last
character counts as part of it. -/
def HasExcerpt (d : Diagnostic) (length : Nat) : Prop :=
  length ≠ 0 ∧ d.labelStart ≤ length ∧ d.labelEnd ≤ length + 1

instance (d : Diagnostic) (length : Nat) : Decidable (d.HasExcerpt length) :=
  inferInstanceAs (Decidable (_ ∧ _ ∧ _))

/-- The heading. -/
def heading (d : Diagnostic) : String :=
  Colour.red.paint "Error:" ++ " " ++ d.colour.paint d.kind.title ++ ": " ++ d.message ++ "\n"

/-- The line with the stretch in colour, the underline and the arrow to the message; `blank` is
the frame beside a row without a line number. -/
def drawnLine (d : Diagnostic) (line : ExcerptLine) (blank : String) : String :=
  let text := trimEnd line.text
  let inLabel (i : Nat) : Bool :=
    d.labelStart ≤ line.start + i && line.start + i < d.labelEnd
  let count := d.labelEnd - line.start + 2
  let middle := (d.labelStart + d.labelEnd) / 2 - line.start
  let paint := d.colour.paint
  let shown := String.join <| text.mapIdx fun i c =>
    shownCharacter (if inLabel i then d.colour else .plainText) i c
  let underline := cellRow text count fun i =>
    if i = middle then (paint "┬", paint "─")
    else if inLabel i then (paint "─", paint "─")
    else (" ", " ")
  let arrow := cellRow text count fun i =>
    if i = middle then (paint "╰", paint "─")
    else if middle < i then (paint "─", paint "─")
    else (" ", " ")
  " " ++ Colour.margin.paint (toString line.number ++ " │") ++ " " ++ shown ++ "\n"
    ++ blank ++ underline ++ "\n"
    ++ blank ++ arrow ++ " " ++ d.message ++ "\n"

/-- The frame with the line that the diagnostic is about. A stretch that goes on behind the
end of its line, as that at the end of the input does, is not drawn. -/
def frame (d : Diagnostic) (line : ExcerptLine) : String :=
  let number := toString line.number
  let indent := repeated (number.length + 2) " "
  let blank :=
    " " ++ Colour.skippedMargin.paint (repeated (number.length + 1) " " ++ "│") ++ " "
  let place :=
    s!"{d.span.start.source}:{number}:{d.labelStart - line.start + 1}"
  let note := match d.scope with
    | none => ""
    | some scope =>
      blank ++ "\n" ++ blank ++ Colour.note.paint "Note" ++ ": resolved in scope " ++ scope
        ++ "\n"
  indent ++ Colour.margin.paint "╭" ++ Colour.margin.paint "─" ++ Colour.margin.paint "["
    ++ place ++ Colour.margin.paint "]" ++ "\n"
    ++ indent ++ Colour.margin.paint "│" ++ "\n"
    ++ (if line.start + line.text.length < d.labelEnd then blank ++ "\n"
        else d.drawnLine line blank)
    ++ note
    ++ Colour.margin.paint (repeated (number.length + 2) "─" ++ "╯") ++ "\n"

/-- The diagnostic with an excerpt from the source, or its heading alone if it is not about a
place in that source. -/
def excerpt (d : Diagnostic) (source : String) : String :=
  let text := source.toList
  if d.HasExcerpt text.length then
    d.heading ++ d.frame (lineOf d.labelStart 1 0 (splitLines text))
  else d.heading

end Diagnostic

end Peng
