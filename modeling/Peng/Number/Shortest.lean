import Peng.Number.Binary

/-!
# Shortest decimals

The decimal with the fewest digits among those that read back as a given number.

The decimals that read back as a number fill a window around it: up to half the distance to
the number above, down to half the distance to the number below, the two ends included when
the mantissa is even, because a half rounds to the even neighbour. Every finite number is a
whole multiple of a power of ten, so the window has whole ends once it is measured in a small
enough power of ten, and everything here is arithmetic of natural numbers.

A decimal with few digits is a point of a coarse grid, one of the multiples of a large power of
ten. `Window.shortest` tries the grids from coarse to fine and keeps the first point it finds.
-/

namespace Peng

/-- The value `digits · 10 ^ exponent`. -/
structure Decimal where
  digits : Nat
  exponent : Int
deriving DecidableEq

/-- A positive value with the stretch of values around it that round to it, all counted in
units of `10 ^ unit`. -/
structure Window where
  value : Nat
  below : Nat
  above : Nat
  closed : Bool
  unit : Int

namespace Window

/-- The window of a positive number. A power of two has its lower neighbour at half the usual
distance, unless it is so small that the spacing no longer halves. -/
def ofBinary (b : Binary) : Window :=
  let scale :=
    if 0 ≤ b.exponent then Nat.pow 2 b.exponent.toNat else Nat.pow 5 (-b.exponent).toNat
  let narrow := b.mantissa = Nat.pow 2 52 ∧ Binary.leastExponent < b.exponent
  { value := 100 * b.mantissa * scale
    below := (if narrow then 25 else 50) * scale
    above := 50 * scale
    closed := b.mantissa % 2 = 0
    unit := min b.exponent 0 - 2 }

/-- Whether `n` units lie in the window. -/
def contains (w : Window) (n : Nat) : Bool :=
  if w.closed then w.value ≤ n + w.below && n ≤ w.value + w.above
  else w.value < n + w.below && n < w.value + w.above

/-- The point of the grid of multiples of `10 ^ j` that lies in the window, if there is one:
only the two around the value can. Of both the nearer is taken, and the upper one when they
are equally near. -/
def point? (w : Window) (j : Nat) : Option Nat :=
  let step := Nat.pow 10 j
  let low := w.value / step
  let high := low + 1
  if w.contains (low * step) then
    if w.contains (high * step) ∧ high * step - w.value ≤ w.value - low * step then some high
    else some low
  else if w.contains (high * step) then some high
  else none

/-- The point of the coarsest grid with a point in the window, of the grids of multiples of
`10 ^ j` and finer. -/
def shortestFrom (w : Window) : Nat → Decimal
  | 0 => ⟨w.value, w.unit⟩
  | j + 1 =>
    match w.point? (j + 1) with
    | some digits => ⟨digits, w.unit + (j + 1 : Nat)⟩
    | none => w.shortestFrom j

/-- The shortest decimal in the window. The first grid tried is coarser than the window is
high: `10 ^ (n / 3 + 1)` exceeds every number of `n + 1` binary digits. -/
def shortest (w : Window) : Decimal :=
  w.shortestFrom (Nat.log2 (w.value + w.above) / 3 + 1)

end Window

end Peng
