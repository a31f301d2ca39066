import Peng.Run.Operation
import Peng.Run.Scope
import Peng.Source.Position

/-!
# Evaluation

The value of an expression in a scope. Operands are evaluated from left to right and before
their operator, and the first node without a value decides the fault; evaluating changes
nothing.
-/

namespace Peng

/-- Blames what an operation refuses on the node that asked for it. -/
def blame {α : Type} (span : Span) : Except RunFault α → Except (Located RunFault) α
  | .ok a => .ok a
  | .error fault => .error ⟨fault, span⟩

/-- The value of an expression in a scope. -/
def Expr.value (scope : Scope) : Expr → Except (Located RunFault) Value
  | .number x _ => .ok (.number x)
  | .text s _ => .ok (.string s)
  | .variable name span =>
    match scope.get? name with
    | some v => .ok v
    | none => .error ⟨.undefinedName name scope.name, span⟩
  | .binary op left right span =>
    match left.value scope with
    | .error fault => .error fault
    | .ok l =>
      match right.value scope with
      | .error fault => .error fault
      | .ok r => blame span (op.apply l r)
  | .signed sign operand span =>
    match operand.value scope with
    | .error fault => .error fault
    | .ok v => blame span (sign.apply v)

/-- The values of expressions in order, up to the first that has none. -/
def Expr.values (scope : Scope) : List Expr → Except (Located RunFault) (List Value)
  | [] => .ok []
  | e :: es =>
    match e.value scope with
    | .error fault => .error fault
    | .ok v =>
      match Expr.values scope es with
      | .error fault => .error fault
      | .ok vs => .ok (v :: vs)

end Peng
