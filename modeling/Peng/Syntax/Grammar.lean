import Peng.Number.Binary
import Peng.Syntax.Expectation
import Peng.Syntax.Tree

/-!
# The grammar

One function per rule, each reading from the front of the tokens that are left before the end
of the input:

* statement: `say` and a list of values, or a name, `is` and a value; then a newline or the end
* expression: terms joined by `+` and `-`
* term: signed atoms joined by `*` and `/`
* unary: an atom, with or without a sign
* atom: a number, a text, a name, or an expression in parentheses

Both levels of binary operators group to the left.

## Shape of a reply

A rule either reads something, which takes at least one token, or is stuck in front of a token
that it has no use for. A `Reply` carries the proof of that, and the recursion ends because of
it: what is left for an inner expression, or for the next turn of a loop, is always shorter.
-/

namespace Peng

/-- What a rule makes of the tokens it is given; `n` bounds what it may leave. -/
inductive Reply (α : Type) (n : Nat) where
  | read (value : α) (rest : List Token) (shorter : rest.length < n)
  | stuck (wanted : Wanted) (rest : List Token) (within : rest.length ≤ n)

namespace Reply

variable {α : Type} {m n : Nat}

/-- The same reply under a weaker bound. -/
def widen (h : m ≤ n) : Reply α m → Reply α n
  | .read value rest shorter => .read value rest (Nat.lt_of_lt_of_le shorter h)
  | .stuck wanted rest within => .stuck wanted rest (Nat.le_trans within h)

/-- The reply of an operand that must follow what is written `before`. If the operand did not
even begin, that is what it is missing behind. -/
def following (before : String) : Reply α n → Reply α n
  | .read value rest shorter => .read value rest shorter
  | .stuck wanted rest within =>
    .stuck (if rest.length = n then .operandAfter before else wanted) rest within

end Reply

namespace Token

/-- The operator that joins two terms. -/
def Kind.sum? : Kind → Option BinaryOp
  | .plus => some .add
  | .minus => some .subtract
  | _ => none

/-- The operator that joins two factors. -/
def Kind.product? : Kind → Option BinaryOp
  | .star => some .multiply
  | .slash => some .divide
  | _ => none

/-- The sign that may stand before an atom. -/
def Kind.sign? : Kind → Option Sign
  | .plus => some .plus
  | .minus => some .minus
  | _ => none

/-- The expression that a token is by itself. A literal counts only on a token of its kind; an
integer too large for a whole literal has a nearest number instead. -/
def leaf? (t : Token) : Option Expr :=
  match t.kind, t.literal with
  | .integer, some (.int v) => some (.number (nearestWhole v) t.span)
  | .integer, some (.float v) => some (.number v t.span)
  | .float, some (.float v) => some (.number v t.span)
  | .string, some (.text s) => some (.text s t.span)
  | .identifier, _ => some (.variable t.lexeme t.span)
  | _, _ => none

end Token

/-- A binary node reaches from its left operand to its right one. -/
def Expr.join (op : BinaryOp) (left right : Expr) : Expr :=
  .binary op left right (left.span.upTo right.span)

namespace Grammar

/-! ## Expressions -/

mutual

/-- Terms joined by `+` and `-`. -/
def expression (ts : List Token) : Reply Expr ts.length :=
  match term ts with
  | .read left rest h => (moreTerms left rest).widen (by omega)
  | .stuck wanted rest h => .stuck wanted rest h
termination_by 4 * ts.length + 3

/-- What `+` and `-` add to the left operand. -/
def moreTerms (left : Expr) (ts : List Token) : Reply Expr (ts.length + 1) :=
  match ts with
  | [] => .read left [] (by simp)
  | t :: ts =>
    match t.kind.sum? with
    | none => .read left (t :: ts) (by simp)
    | some op =>
      match (term ts).following t.lexeme with
      | .read right rest h =>
        (moreTerms (left.join op right) rest).widen (by simp only [List.length_cons]; omega)
      | .stuck wanted rest h => .stuck wanted rest (by simp only [List.length_cons]; omega)
termination_by 4 * ts.length

/-- Signed atoms joined by `*` and `/`. -/
def term (ts : List Token) : Reply Expr ts.length :=
  match unary ts with
  | .read left rest h => (moreFactors left rest).widen (by omega)
  | .stuck wanted rest h => .stuck wanted rest h
termination_by 4 * ts.length + 2

/-- What `*` and `/` add to the left operand. -/
def moreFactors (left : Expr) (ts : List Token) : Reply Expr (ts.length + 1) :=
  match ts with
  | [] => .read left [] (by simp)
  | t :: ts =>
    match t.kind.product? with
    | none => .read left (t :: ts) (by simp)
    | some op =>
      match (unary ts).following t.lexeme with
      | .read right rest h =>
        (moreFactors (left.join op right) rest).widen (by simp only [List.length_cons]; omega)
      | .stuck wanted rest h => .stuck wanted rest (by simp only [List.length_cons]; omega)
termination_by 4 * ts.length

/-- At most one sign stands before an atom. -/
def unary (ts : List Token) : Reply Expr ts.length :=
  match ts with
  | [] => atom []
  | t :: ts =>
    match t.kind.sign? with
    | none => atom (t :: ts)
    | some sign =>
      match (atom ts).following t.lexeme with
      | .read operand rest h =>
        .read (.signed sign operand (t.span.upTo operand.span)) rest
          (by simp only [List.length_cons]; omega)
      | .stuck wanted rest h => .stuck wanted rest (by simp only [List.length_cons]; omega)
termination_by 4 * ts.length + 1

/-- A single operand, or an expression in parentheses. -/
def atom (ts : List Token) : Reply Expr ts.length :=
  match ts with
  | [] => .stuck .operand [] (by simp)
  | t :: ts =>
    if t.kind = .leftParen then
      match (expression ts).following "(" with
      | .read inner [] h => .stuck .closingParen [] (by simp)
      | .read inner (close :: rest) h =>
        if close.kind = .rightParen then
          .read inner rest (by simp only [List.length_cons] at h ⊢; omega)
        else .stuck .closingParen (close :: rest) (by simp only [List.length_cons] at h ⊢; omega)
      | .stuck wanted rest h => .stuck wanted rest (by simp only [List.length_cons]; omega)
    else
      match t.leaf? with
      | some leaf => .read leaf ts (by simp)
      | none => .stuck .operand (t :: ts) (by simp)
termination_by 4 * ts.length

end

/-! ## Statements -/

/-- The values behind the first one, each after a comma. -/
def moreValues (ts : List Token) : Reply (List Expr) (ts.length + 1) :=
  match ts with
  | [] => .read [] [] (by simp)
  | t :: ts =>
    if t.kind = .comma then
      match (expression ts).following "," with
      | .read value rest h =>
        match moreValues rest with
        | .read values rest' h' =>
          .read (value :: values) rest' (by simp only [List.length_cons]; omega)
        | .stuck wanted rest' h' =>
          .stuck wanted rest' (by simp only [List.length_cons]; omega)
      | .stuck wanted rest h => .stuck wanted rest (by simp only [List.length_cons]; omega)
    else .read [] (t :: ts) (by simp)
termination_by ts.length

/-- A statement ends with a newline, which it takes along, or with the input. -/
def ending (wanted : Wanted) (ts : List Token) : Reply Unit (ts.length + 1) :=
  match ts with
  | [] => .read () [] (by simp)
  | t :: ts =>
    if t.kind = .newline then .read () ts (by simp only [List.length_cons]; omega)
    else .stuck wanted (t :: ts) (by simp)

/-- A print of one or more values reaches from the first to the last of them. -/
def printOf (first : Expr) (more : List Expr) : Statement :=
  .print (first :: more) (first.span.upTo (more.getLastD first).span)

/-- The print statement whose `say` stands before `ts`. -/
def print (ts : List Token) : Reply Statement (ts.length + 1) :=
  match (expression ts).following "say" with
  | .stuck wanted rest h => .stuck wanted rest (by omega)
  | .read first rest h =>
    match moreValues rest with
    | .stuck wanted rest' h' => .stuck wanted rest' (by omega)
    | .read more rest' h' =>
      match ending .endOfPrint rest' with
      | .stuck wanted rest'' h'' => .stuck wanted rest'' (by omega)
      | .read _ rest'' h'' => .read (printOf first more) rest'' (by omega)

/-- The assignment that begins with the token `name`. -/
def assignment (name : Token) (ts : List Token) : Reply Statement (ts.length + 1) :=
  match ts with
  | [] => .stuck .assignment [] (by simp)
  | t :: ts =>
    if t.kind = .is then
      match (expression ts).following "is" with
      | .stuck wanted rest h => .stuck wanted rest (by simp only [List.length_cons]; omega)
      | .read value rest h =>
        match ending .endOfAssignment rest with
        | .stuck wanted rest' h' =>
          .stuck wanted rest' (by simp only [List.length_cons]; omega)
        | .read _ rest' h' =>
          .read (.assign name.lexeme value (name.span.upTo value.span)) rest'
            (by simp only [List.length_cons]; omega)
    else .stuck .assignment (t :: ts) (by simp)

/-- The statement that begins with the token `t`. -/
def statement (t : Token) (ts : List Token) : Reply Statement (ts.length + 1) :=
  match t.kind with
  | .say => print ts
  | .identifier => assignment t ts
  | _ => .stuck .statement (t :: ts) (by simp)

/-- All statements up to the end of the input. Newlines may stand between them. A failure
comes with the tokens that it left. -/
def statements (ts : List Token) : Except (Wanted × List Token) (List Statement) :=
  match ts with
  | [] => .ok []
  | t :: ts =>
    if t.kind = .newline then statements ts
    else
      match statement t ts with
      | .stuck wanted rest _ => .error (wanted, rest)
      | .read first rest _ =>
        match statements rest with
        | .ok more => .ok (first :: more)
        | .error failure => .error failure
termination_by ts.length

end Grammar

end Peng
