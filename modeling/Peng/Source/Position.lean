/-!
# Places in a source

A `Position` is a place between two characters of a named source, and a `Span` is a pair of
them. Only a newline ends a line here; every other character, tabs and carriage returns
included, takes one column.
-/

namespace Peng

/-- A place in a named source. `offset` counts the characters before it; lines and columns
count from 1. -/
structure Position where
  source : String
  offset : Nat
  line : Nat
  column : Nat
deriving DecidableEq

namespace Position

/-- The place before the first character. -/
def start (source : String) : Position :=
  ⟨source, 0, 1, 1⟩

/-- The place after the character `c` that stands at `p`. -/
def advance (p : Position) (c : Char) : Position :=
  if c = '\n' then ⟨p.source, p.offset + 1, p.line + 1, 1⟩
  else ⟨p.source, p.offset + 1, p.line, p.column + 1⟩

/-- The place after all of `text`. -/
def advanceOver (p : Position) (text : List Char) : Position :=
  text.foldl advance p

/-- The words that name a place to the user. -/
def describe (p : Position) : String :=
  s!"In {p.source}, line {p.line}, column {p.column}"

@[simp] theorem advance_source (p : Position) (c : Char) : (p.advance c).source = p.source := by
  unfold advance; split <;> rfl

@[simp] theorem advance_offset (p : Position) (c : Char) :
    (p.advance c).offset = p.offset + 1 := by
  unfold advance; split <;> rfl

@[simp] theorem advanceOver_nil (p : Position) : p.advanceOver [] = p := rfl

@[simp] theorem advanceOver_cons (p : Position) (c : Char) (text : List Char) :
    p.advanceOver (c :: text) = (p.advance c).advanceOver text := rfl

@[simp] theorem advanceOver_append (p : Position) (s t : List Char) :
    p.advanceOver (s ++ t) = (p.advanceOver s).advanceOver t :=
  List.foldl_append

@[simp] theorem advanceOver_source (p : Position) (text : List Char) :
    (p.advanceOver text).source = p.source := by
  induction text generalizing p with
  | nil => rfl
  | cons c text ih => simp [ih]

@[simp] theorem advanceOver_offset (p : Position) (text : List Char) :
    (p.advanceOver text).offset = p.offset + text.length := by
  induction text generalizing p with
  | nil => rfl
  | cons c text ih => simp [ih]; omega

end Position

/-- The stretch of a source between two places. The two ends are taken as they come: nothing
here asks them to be in order. -/
structure Span where
  start : Position
  finish : Position
deriving DecidableEq

namespace Span

/-- The empty stretch at `p`. -/
def empty (p : Position) : Span :=
  ⟨p, p⟩

/-- The stretch that `text` covers when it stands at `p`. -/
def covering (p : Position) (text : List Char) : Span :=
  ⟨p, p.advanceOver text⟩

/-- The stretch of the single character `c` at `p`. -/
def single (p : Position) (c : Char) : Span :=
  covering p [c]

/-- From the start of `s` to the end of `t`. -/
def upTo (s t : Span) : Span :=
  ⟨s.start, t.finish⟩

end Span

/-- A cause together with the stretch of source that it is blamed on. -/
structure Located (ε : Type) where
  cause : ε
  span : Span
deriving DecidableEq

/-- The same place, with the cause seen as another type of cause. -/
def Located.map {ε δ : Type} (f : ε → δ) (l : Located ε) : Located δ :=
  ⟨f l.cause, l.span⟩

end Peng
