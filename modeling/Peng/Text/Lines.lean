/-!
# Lines of bytes

Input arrives as bytes and is taken line by line; a line is looked at as text only once it is
complete.
-/

namespace Peng

/-- The lines of a list of bytes, without the newlines that end them. There is no line behind
the last newline. -/
def splitAtNewlines : List UInt8 → List (List UInt8)
  | [] => []
  | b :: rest =>
    if b = 10 then [] :: splitAtNewlines rest
    else
      match splitAtNewlines rest with
      | [] => [[b]]
      | line :: lines => (b :: line) :: lines

/-- The lines of some input. -/
def inputLines (input : ByteArray) : List ByteArray :=
  (splitAtNewlines input.toList).map fun line => ⟨line.toArray⟩

end Peng
