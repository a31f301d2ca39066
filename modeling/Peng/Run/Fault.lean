import Peng.Run.Value
import Peng.Syntax.Tree

/-!
# Faults of a running program

Why an expression has no value.
-/

namespace Peng

/-- Why an expression has no value. -/
inductive RunFault where
  /-- An operator between kinds of value that it is not defined for. -/
  | binaryKinds (op : BinaryOp) (left right : Value.Kind)
  /-- A sign before a kind of value that has none. -/
  | signedKind (sign : Sign) (operand : Value.Kind)
  /-- A text can be repeated a whole number of times only. -/
  | repetitionCount (count : Float)
  | repetitionTooLarge
  | divisionByZero
  /-- A name that has no value in the scope of that name. -/
  | undefinedName (name scope : String)

namespace RunFault

/-- The message for operands of the wrong kinds. A text on the left is blamed for an operator
that texts do not have at all. -/
def kindsMessage (op : BinaryOp) (left right : Value.Kind) : String :=
  match op, left with
  | .add, .string => s!"Can't concatenate String with {right.name}"
  | .add, .number => s!"Can't add {left.name} and {right.name}"
  | .subtract, .string => "'-' is not supported for type String"
  | .subtract, .number => s!"Can't subtract {right.name} from {left.name}"
  | .multiply, _ => s!"Can't multiply {left.name} with {right.name}"
  | .divide, .string => "'/' is not supported for type String"
  | .divide, .number => s!"Can't divide {left.name} by {right.name}"

/-- The words for a fault. -/
def message : RunFault → String
  | binaryKinds op left right => kindsMessage op left right
  | signedKind sign operand =>
    s!"Unary '{sign.symbol}' is not supported for type {operand.name}"
  | repetitionCount count => s!"Can't repeat a String {numeral count} times"
  | repetitionTooLarge => "Repeated String is too large"
  | divisionByZero => "Division by zero"
  | undefinedName name _ => s!"Identifier '{name}' is not defined"

/-- The scope that a name was looked up in. -/
def scope? : RunFault → Option String
  | undefinedName _ scope => some scope
  | _ => none

end RunFault

end Peng
