/-!
# White space

The characters of the Unicode property `White_Space`, and what is left of a text when they are
taken off its ends. The language itself skips only spaces and tabs; the whole property counts
at the prompt, where lines are trimmed, and in source excerpts.
-/

namespace Peng

/-- The code points with the Unicode property `White_Space`. -/
def isWhiteSpace (c : Char) : Bool :=
  let n := c.toNat
  (0x09 ≤ n && n ≤ 0x0D) || n == 0x20 || n == 0x85 || n == 0xA0 || n == 0x1680
    || (0x2000 ≤ n && n ≤ 0x200A) || n == 0x2028 || n == 0x2029 || n == 0x202F
    || n == 0x205F || n == 0x3000

/-- The text without the white space at its end. -/
def trimEnd (text : List Char) : List Char :=
  (text.reverse.dropWhile isWhiteSpace).reverse

/-- The text without the white space at either end. -/
def trim (text : List Char) : List Char :=
  trimEnd (text.dropWhile isWhiteSpace)

end Peng
