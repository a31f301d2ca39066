/-!
# Binary numbers, exactly

A finite 64-bit number is a whole mantissa times a power of two. This module takes a number
apart into the two, and finds the number nearest to a quotient of natural numbers, all in
exact integer arithmetic.

## Shape of `nearestBits`

* `unitExponent` finds the spacing of the numbers around the quotient,
* `roundHalfEven` counts the spacings in it, and
* the count and the spacing together are the bits of the result: bit patterns of positive
  numbers are numbered in the order of their values, so a count that reaches the next power
  of two carries into the exponent by itself.
-/

namespace Peng

/-- The value `± mantissa · 2 ^ exponent`. -/
structure Binary where
  negative : Bool
  mantissa : Nat
  exponent : Int
deriving DecidableEq

namespace Binary

/-- The exponent of the smallest positive number, `2 ^ (-1074)`. -/
def leastExponent : Int := -1074

/-- The value of a bit pattern; those of infinities and NaN have none. Numbers below the
normal range share the least exponent and have a mantissa below `2 ^ 52`. -/
def ofBits? (bits : Nat) : Option Binary :=
  let negative := Nat.pow 2 63 ≤ bits
  let field := bits / Nat.pow 2 52 % Nat.pow 2 11
  let fraction := bits % Nat.pow 2 52
  if field = 2047 then none
  else if field = 0 then some ⟨negative, fraction, leastExponent⟩
  else some ⟨negative, Nat.pow 2 52 + fraction, leastExponent + (field - 1 : Nat)⟩

/-- A finite number taken apart. -/
def ofFloat? (x : Float) : Option Binary :=
  ofBits? x.toBits.toNat

/-- The whole number that the value is, if it is one. -/
def whole? (b : Binary) : Option Int :=
  let signed (n : Nat) : Int := if b.negative then -n else n
  if 0 ≤ b.exponent then some (signed (b.mantissa * Nat.pow 2 b.exponent.toNat))
  else
    let divisor := Nat.pow 2 (-b.exponent).toNat
    if b.mantissa % divisor = 0 then some (signed (b.mantissa / divisor)) else none

end Binary

/-- The quotient `num / den` as a whole number, a half going to the even neighbour. -/
def roundHalfEven (num den : Nat) : Nat :=
  let low := num / den
  let twice := 2 * (num % den)
  if twice < den then low
  else if den < twice then low + 1
  else low + low % 2

/-- The quotient `num / den` divided by `2 ^ q`, again as a quotient. -/
def scaleDown (num den : Nat) (q : Int) : Nat × Nat :=
  if 0 ≤ q then (num, den * Nat.pow 2 q.toNat) else (num * Nat.pow 2 (-q).toNat, den)

/-- The least exponent `q`, from that of the smallest number on, for which the positive
quotient `num / den` is below `2 ^ (q + 53)`. The quotient lies between the powers of two
next to `2 ^ (log₂ num - log₂ den)`, so one comparison with that power decides. -/
def unitExponent (num den : Nat) : Int :=
  let middle : Int := Nat.log2 num - Nat.log2 den
  let (n, d) := scaleDown num den middle
  max Binary.leastExponent (if n < d then middle - 53 else middle - 52)

/-- The bits of positive infinity, which are next to those of the largest finite number. -/
def infinityBits : Nat := 2047 * Nat.pow 2 52

/-- The bits of the number nearest to the quotient `num / den`; of two equally near ones that
with the even mantissa, and infinity from half a spacing above the largest finite number
on. -/
def nearestBits (num den : Nat) : Nat :=
  if num = 0 then 0
  else
    let q := unitExponent num den
    let (n, d) := scaleDown num den q
    min ((q - Binary.leastExponent).toNat * Nat.pow 2 52 + roundHalfEven n d) infinityBits

/-- The number nearest to the quotient `num / den`. -/
def nearest (num den : Nat) : Float :=
  Float.ofBits (nearestBits num den).toUInt64

/-- The number nearest to a whole number. -/
def nearestWhole (v : Int) : Float :=
  if v < 0 then -nearest v.natAbs 1 else nearest v.natAbs 1

end Peng
