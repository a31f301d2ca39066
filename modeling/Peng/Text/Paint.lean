/-!
# Coloured text

Colours as terminals understand them: a code between `ESC [` and `m` switches one on, and
`ESC [ 0 m` switches it off again.
-/

namespace Peng

/-- The colours of a report. -/
inductive Colour where
  | red
  | yellow
  | magenta
  /-- Line numbers and the frame around an excerpt. -/
  | margin
  /-- The frame beside rows that show no source. -/
  | skippedMargin
  /-- Source text outside the stretch in question. -/
  | plainText
  | note
deriving DecidableEq

/-- The terminal code of a colour. -/
def Colour.code : Colour → String
  | .red => "31"
  | .yellow => "33"
  | .magenta => "35"
  | .margin => "38;5;246"
  | .skippedMargin => "38;5;240"
  | .plainText => "38;5;249"
  | .note => "38;5;115"

/-- One piece of text in a colour, which ends with the piece. -/
def Colour.paint (colour : Colour) (text : String) : String :=
  "\x1b[" ++ colour.code ++ "m" ++ text ++ "\x1b[0m"

end Peng
