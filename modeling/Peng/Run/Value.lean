import Peng.Number.Numeral

/-!
# Values

What expressions evaluate to. Whole and fractional literals give one kind of number.
-/

namespace Peng

/-- What an expression evaluates to. -/
inductive Value where
  | number (value : Float)
  | string (value : String)

namespace Value

/-- The kinds of value. -/
inductive Kind where
  | number
  | string
deriving DecidableEq

/-- The name of a kind in messages. -/
def Kind.name : Kind → String
  | .number => "Number"
  | .string => "String"

/-- The kind of a value. -/
def kind : Value → Kind
  | .number _ => .number
  | .string _ => .string

/-- What printing the value writes. Both zeros are written alike. -/
def text : Value → String
  | .number x => if x == 0 then "0" else numeral x
  | .string s => s

end Value

end Peng
