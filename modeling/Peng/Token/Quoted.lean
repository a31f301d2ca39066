/-!
# Quoted text

Text in a source stands between double quotes, on one line. A backslash takes the character
after it along, whatever that is, so a quote that follows one does not close the text.

`Quoted.split?` finds the closing quote; `Quoted.decode` says what the text between the quotes
denotes. The main statement is `Quoted.eq_of_split?`: splitting loses nothing.
-/

namespace Peng.Quoted

/-- What stands before the closing quote, and what stands after it. There is no closing quote
if the line ends first; a backslash at its end does not continue the line. -/
def split? : List Char → Option (List Char × List Char)
  | [] => none
  | '"' :: rest => some ([], rest)
  | '\n' :: _ => none
  | '\\' :: [] => none
  | '\\' :: '\n' :: _ => none
  | '\\' :: c :: rest =>
    match split? rest with
    | some (inside, after) => some ('\\' :: c :: inside, after)
    | none => none
  | c :: rest =>
    match split? rest with
    | some (inside, after) => some (c :: inside, after)
    | none => none

/-- The character that a backslash and `c` stand for. -/
def escape? : Char → Option Char
  | '\\' => some '\\'
  | '"' => some '"'
  | 't' => some '\t'
  | 'n' => some '\n'
  | 'r' => some '\r'
  | 'v' => some '\x0b'
  | 'f' => some '\x0c'
  | _ => none

/-- The text that is denoted by what stands between the quotes. A backslash before a character
that it has no meaning for stands for itself, and so does that character. -/
def decode : List Char → List Char
  | [] => []
  | '\\' :: c :: rest =>
    match escape? c with
    | some d => d :: decode rest
    | none => '\\' :: c :: decode rest
  | c :: rest => c :: decode rest

theorem eq_of_split? {cs inside after : List Char} (h : split? cs = some (inside, after)) :
    inside ++ '"' :: after = cs := by
  fun_induction split? cs generalizing inside with
  | case1 | case3 | case4 | case5 => simp at h
  | case2 rest => simp_all
  | case6 c rest _ inside' after' hrest ih | case8 c rest _ _ _ _ _ inside' after' hrest ih =>
    simp only [Option.some.injEq, Prod.mk.injEq] at h
    obtain ⟨rfl, rfl⟩ := h
    simp [ih hrest]
  | case7 | case9 => simp at h

end Peng.Quoted
