import Peng.Token.Lexeme

/-!
# Scanning

A source as a list of tokens. Spaces and tabs part lexemes and are otherwise skipped; the list
ends with a token for the end of the input. Scanning stops at the first place where no lexeme
can be read.
-/

namespace Peng

/-- The blanks between lexemes. -/
def isBlank (c : Char) : Bool :=
  c == ' ' || c == '\t'

/-- A lexeme that stands at `p`, as a token. -/
def Lexeme.token {cs : List Char} (l : Lexeme cs) (p : Position) : Token :=
  ⟨l.kind, String.ofList l.text, l.literal, .covering p l.text⟩

/-- The stretch to blame for a halt that was met when reading from `p` on. -/
def Halt.located (h : Halt) (p : Position) : Located ScanFault :=
  ⟨h.cause, .covering (p.advanceOver h.passed) h.blamed⟩

/-- The tokens of `cs`, which stands at `p`. -/
def scanFrom (p : Position) (cs : List Char) : Except (Located ScanFault) (List Token) :=
  match cs with
  | [] => .ok [.atEnd p]
  | c :: cs =>
    if isBlank c then scanFrom (p.advance c) cs
    else
      match Lexeme.read c cs with
      | .error halt => .error (halt.located p)
      | .ok lexeme =>
        match scanFrom (p.advanceOver lexeme.text) lexeme.rest with
        | .ok tokens => .ok (lexeme.token p :: tokens)
        | .error fault => .error fault
termination_by cs.length
decreasing_by
  · simp
  · exact lexeme.rest_length_lt

/-- The tokens of a source; `name` is what its places are called by. -/
def scan (name source : String) : Except (Located ScanFault) (List Token) :=
  scanFrom (.start name) source.toList

end Peng
