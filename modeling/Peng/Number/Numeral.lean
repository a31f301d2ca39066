import Peng.Number.Shortest

/-!
# Numerals

How numbers are written in decimal and read again. Numbers are always written out in full,
without an exponent and without a point when there is nothing behind it.
-/

namespace Peng

/-- The value of a decimal digit. -/
def digitValue (c : Char) : Nat :=
  c.toNat - '0'.toNat

/-- The natural number that a run of digits denotes; the empty run denotes zero. -/
def digitsValue (digits : List Char) : Nat :=
  digits.foldl (fun n c => 10 * n + digitValue c) 0

/-- The number nearest to what digits around a decimal point denote. -/
def readNumeral (whole fraction : List Char) : Float :=
  nearest (digitsValue (whole ++ fraction)) (Nat.pow 10 fraction.length)

/-- A decimal written out in full: with zeros behind its digits, or with a point inside or in
front of them. -/
def Decimal.layout (d : Decimal) : List Char :=
  let digits := Nat.toDigits 10 d.digits
  if 0 ≤ d.exponent then digits ++ List.replicate d.exponent.toNat '0'
  else
    let places := (-d.exponent).toNat
    if places < digits.length then
      digits.take (digits.length - places) ++ '.' :: digits.drop (digits.length - places)
    else '0' :: '.' :: List.replicate (places - digits.length) '0' ++ digits

/-- A number as text: the fewest digits that read back as the same number. -/
def numeral (x : Float) : String :=
  match Binary.ofFloat? x with
  | some b =>
    let size := if b.mantissa = 0 then ['0'] else (Window.ofBinary b).shortest.layout
    String.ofList (if b.negative then '-' :: size else size)
  | none => if x.isNaN then "NaN" else if x < 0 then "-inf" else "inf"

end Peng
