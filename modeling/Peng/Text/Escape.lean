/-!
# Characters spelled out

How a single character is shown inside a message, so that it can be told apart whatever the
terminal makes of it.
-/

namespace Peng

/-- Hexadecimal digits of `n`, lowercase and without padding. -/
def hexadecimal (n : Nat) : String :=
  String.ofList (Nat.toDigits 16 n)

/-- The spelling of `c` in a message: tab, carriage return, newline, quotes and the backslash
are escaped by a backslash, printable ASCII stands for itself, and anything else is given by
its code point. -/
def spelledOut (c : Char) : String :=
  match c with
  | '\t' => "\\t"
  | '\r' => "\\r"
  | '\n' => "\\n"
  | '\x27' => "\\'"
  | '"' => "\\\""
  | '\\' => "\\\\"
  | c =>
    if ' ' ≤ c ∧ c ≤ '~' then c.toString
    else "\\u\x7b" ++ hexadecimal c.toNat ++ "\x7d"

end Peng
