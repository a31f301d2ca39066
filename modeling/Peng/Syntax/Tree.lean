import Peng.Source.Position

/-!
# Programs

A program is a list of statements, and a statement prints values or gives one a name. Every
node keeps the stretch of source it was read from.
-/

namespace Peng

/-- The operators between two values. -/
inductive BinaryOp where
  | add
  | subtract
  | multiply
  | divide
deriving DecidableEq

/-- The signs that may stand before a value. -/
inductive Sign where
  | plus
  | minus
deriving DecidableEq

/-- A sign as it is written. -/
def Sign.symbol : Sign → String
  | .plus => "+"
  | .minus => "-"

/-- Expressions. Parentheses shape the tree and leave no node of their own. -/
inductive Expr where
  | number (value : Float) (span : Span)
  | text (value : String) (span : Span)
  | variable (name : String) (span : Span)
  | binary (op : BinaryOp) (left right : Expr) (span : Span)
  | signed (sign : Sign) (operand : Expr) (span : Span)

/-- The stretch of source that an expression was read from. -/
def Expr.span : Expr → Span
  | .number _ s | .text _ s | .variable _ s | .binary _ _ _ s | .signed _ _ s => s

/-- Statements. -/
inductive Statement where
  /-- Writes the values on one line. -/
  | print (values : List Expr) (span : Span)
  /-- Gives the value a name. -/
  | assign (name : String) (value : Expr) (span : Span)

/-- The stretch of source that a statement was read from. -/
def Statement.span : Statement → Span
  | .print _ s | .assign _ _ s => s

/-- A whole program; its stretch goes from the first statement to the last one. -/
structure Program where
  statements : List Statement
  span : Span

end Peng
