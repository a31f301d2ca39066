import Peng.Run.Fault

/-!
# Operations on values

The tables of the binary operators and the signs. Numbers follow 64-bit binary floating-point
arithmetic; texts can be joined, and repeated by a number on either side.
-/

namespace Peng

/-- The largest text, in bytes, that a repetition may produce. -/
def largestRepetition : Float := 4294967295

/-- `text` written `count` times over. A count below one gives the empty text, and so does
repeating the empty text, however often; but the count has to be a whole number all the same.
The size of the result is estimated in floating point. -/
def repeatText (text : String) (count : Float) : Except RunFault String :=
  match (Binary.ofFloat? count).bind Binary.whole? with
  | none => .error (.repetitionCount count)
  | some n =>
    if n ≤ 0 ∨ text = "" then .ok ""
    else if largestRepetition < nearest text.utf8ByteSize 1 * count then
      .error .repetitionTooLarge
    else .ok (n.toNat.repeat (· ++ text) "")

/-- The value of an operator between two values. -/
def BinaryOp.apply (op : BinaryOp) (left right : Value) : Except RunFault Value :=
  match op, left, right with
  | .add, .number l, .number r => .ok (.number (l + r))
  | .add, .string l, .string r => .ok (.string (l ++ r))
  | .subtract, .number l, .number r => .ok (.number (l - r))
  | .multiply, .number l, .number r => .ok (.number (l * r))
  | .multiply, .string s, .number n => (repeatText s n).map .string
  | .multiply, .number n, .string s => (repeatText s n).map .string
  | .divide, .number l, .number r =>
    if r == 0 then .error .divisionByZero else .ok (.number (l / r))
  | op, l, r => .error (.binaryKinds op l.kind r.kind)

/-- The value of a sign before a value. -/
def Sign.apply (sign : Sign) (operand : Value) : Except RunFault Value :=
  match sign, operand with
  | .plus, .number x => .ok (.number x)
  | .minus, .number x => .ok (.number (-x))
  | sign, v => .error (.signedKind sign v.kind)

end Peng
