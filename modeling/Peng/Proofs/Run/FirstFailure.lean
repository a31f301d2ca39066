import Mathlib.Data.List.Forall2
import Peng.Proofs.Run.Failure
import Peng.Proofs.Run.Kinds
import Peng.Proofs.Run.Repetition
import Peng.Proofs.Syntax.Extent
import Peng.Diagnostic.Basic
import Peng.Run.Step

/-!
# The first node that fails

Several nodes of an expression may have no value, and only the order of evaluation settles which of
them is told of. `evaluation_tells_first_failure`: it is the first one, operands before what is made
of them and left before right, that fails *on the values of its operands*.

## Shape of the proof

`Expr.HasValue` and `Expr.Fails` say what a node is worth and why it fails by rules that know of no
order. Beside them `Expr.refusal?` computes what a node by itself refuses, and evaluating is the
search for the first refusal among `Expr.nodes` (`Expr.value_eq_error_iff`). What is left is that
a node refuses what it fails for (`Expr.fails_iff`), one operator at a time.
-/

namespace Peng

/-! ## Rules without an order -/

/-- The value of an expression where the names have the values of `scope`. -/
inductive Expr.HasValue (scope : Scope) : Expr → Value → Prop where
  | number (x : Float) (span : Span) : HasValue scope (.number x span) (.number x)
  | text (s : String) (span : Span) : HasValue scope (.text s span) (.string s)
  | name {name : String} {v : Value} (h : scope.get? name = some v) (span : Span) :
      HasValue scope (.variable name span) v
  | binary {op : BinaryOp} {left right : Expr} {l r v : Value} (hleft : HasValue scope left l)
      (hright : HasValue scope right r) (h : op.apply l r = .ok v) (span : Span) :
      HasValue scope (.binary op left right span) v
  | signed {sign : Sign} {operand : Expr} {x v : Value} (hoperand : HasValue scope operand x)
      (h : sign.apply x = .ok v) (span : Span) : HasValue scope (.signed sign operand span) v

/-- A text is not repeated: the count is no whole number, or the result would be too large. The
message says which. -/
inductive RefusesRepetition (text : String) (count : Float) : String → Prop where
  | notWhole (h : ∀ k, ¬IsWhole count k) :
      RefusesRepetition text count ("Can't repeat a String " ++ numeral count ++ " times")
  | tooLarge {k : ℕ} (hcount : IsWhole count k) (hpos : 0 < k) (htext : text ≠ "")
      (hsize : 2 ^ 32 - 1 < text.utf8ByteSize * k) :
      RefusesRepetition text count "Repeated String is too large"

/-- Two values that an operator does not take, with the kind of the fault and its message. -/
inductive BinaryOp.Refuses : BinaryOp → Value → Value → FaultKind → String → Prop where
  /-- The kinds are outside of the table of the operator. -/
  | kinds {op : BinaryOp} {l r : Value} (h : op.kind? l.kind r.kind = none) :
      Refuses op l r .invalidOperation (RunFault.kindsMessage op l.kind r.kind)
  /-- The divisor is a zero of either sign. -/
  | zero (x : Float) {y : Float} (hy : y = 0 ∨ y = -0) :
      Refuses .divide (.number x) (.number y) .divisionByZero "Division by zero"
  /-- The number may stand on either side of the text. -/
  | repetition {s : String} {count : Float} {message : String} {l r : Value}
      (h : RefusesRepetition s count message)
      (hvalues : l = .string s ∧ r = .number count ∨ l = .number count ∧ r = .string s) :
      Refuses .multiply l r .invalidOperation message

/-- A node that fails on the values of its operands, and how that is told. Only a missing name is
told with the scope. -/
inductive Expr.Fails (scope : Scope) : Expr → Diagnostic → Prop where
  | undefined {name : String} (h : scope.get? name = none) (span : Span) :
      Fails scope (.variable name span)
        ⟨.undefinedIdentifier, "Identifier '" ++ name ++ "' is not defined", span,
          some scope.name⟩
  | binary {op : BinaryOp} {left right : Expr} {l r : Value} {kind : FaultKind} {message : String}
      (hleft : HasValue scope left l) (hright : HasValue scope right r)
      (h : op.Refuses l r kind message) (span : Span) :
      Fails scope (.binary op left right span) ⟨kind, message, span, none⟩
  | signed {operand : Expr} {s : String} (sign : Sign)
      (hoperand : HasValue scope operand (.string s)) (span : Span) :
      Fails scope (.signed sign operand span)
        ⟨.invalidOperation, "Unary '" ++ sign.symbol ++ "' is not supported for type String", span,
          none⟩

/-! ## Values -/

section Values

variable {scope : Scope} {e : Expr} {v : Value}

theorem Expr.hasValue_of_value (h : e.value scope = .ok v) : e.HasValue scope v := by
  induction e generalizing v with
  | number x span =>
    cases h
    exact .number x span
  | text s span =>
    cases h
    exact .text s span
  | «variable» name span =>
    rw [value] at h
    split at h <;> cases h
    exact .name ‹_› span
  | binary op left right span ihleft ihright =>
    rw [value] at h
    split at h
    case h_1 => cases h
    case h_2 l hleft =>
      split at h
      case h_1 => cases h
      case h_2 r hright =>
        refine .binary (ihleft hleft) (ihright hright) ?_ span
        revert h
        cases op.apply l r with
        | error fault => rintro ⟨⟩
        | ok v' =>
          rintro ⟨⟩
          rfl
  | signed sign operand span ih =>
    rw [value] at h
    split at h
    case h_1 => cases h
    case h_2 x hoperand =>
      refine .signed (ih hoperand) ?_ span
      revert h
      cases sign.apply x with
      | error fault => rintro ⟨⟩
      | ok v' =>
        rintro ⟨⟩
        rfl

theorem Expr.HasValue.value_eq (h : e.HasValue scope v) : e.value scope = .ok v := by
  induction h with
  | number x span => rfl
  | text s span => rfl
  | name h span => rw [value, h]
  | binary hleft hright h span ihleft ihright =>
    rw [value, ihleft, ihright]
    dsimp only
    rw [h]
    rfl
  | signed hoperand h span ih =>
    rw [value, ih]
    dsimp only
    rw [h]
    rfl

/-- Evaluating succeeds with the value that the rules give. -/
theorem Expr.value_eq_ok_iff : e.value scope = .ok v ↔ e.HasValue scope v :=
  ⟨hasValue_of_value, HasValue.value_eq⟩

end Values

/-! ## Refusals -/

/-- What an operation refuses, blamed on the node that asked for it. -/
def refusalOf (span : Span) : Except RunFault Value → Option (Located RunFault)
  | .ok _ => none
  | .error fault => some ⟨fault, span⟩

/-- What a node by itself refuses, if its operands have values. -/
def Expr.refusal? (scope : Scope) : Expr → Option (Located RunFault)
  | .number _ _ | .text _ _ => none
  | .variable name span =>
    match scope.get? name with
    | some _ => none
    | none => some ⟨.undefinedName name scope.name, span⟩
  | .binary op left right span =>
    match left.value scope, right.value scope with
    | .ok l, .ok r => refusalOf span (op.apply l r)
    | _, _ => none
  | .signed sign operand span =>
    match operand.value scope with
    | .ok v => refusalOf span (sign.apply v)
    | .error _ => none

/-- The fault of an evaluation. -/
def fault? {α : Type} : Except (Located RunFault) α → Option (Located RunFault)
  | .ok _ => none
  | .error fault => some fault

theorem fault?_blame (span : Span) (outcome : Except RunFault Value) :
    fault? (blame span outcome) = refusalOf span outcome := by
  cases outcome <;> rfl

/-- Evaluating searches the nodes for the first refusal. -/
theorem Expr.findSome?_refusal? (scope : Scope) (e : Expr) :
    e.nodes.findSome? (refusal? scope) = fault? (e.value scope) := by
  induction e with
  | number x span => rfl
  | text s span => rfl
  | «variable» name span =>
    simp only [nodes, List.findSome?_singleton, refusal?, value]
    cases scope.get? name <;> rfl
  | binary op left right span ihleft ihright =>
    simp only [nodes, List.findSome?_append, List.findSome?_singleton, ihleft, ihright, refusal?,
      value]
    -- a fault on the left hides all that the nodes behind it refuse
    cases left.value scope with
    | error fault => rfl
    | ok l =>
      cases right.value scope with
      | error fault => rfl
      | ok r => exact (fault?_blame span (op.apply l r)).symm
  | signed sign operand span ih =>
    simp only [nodes, List.findSome?_append, List.findSome?_singleton, ih, refusal?, value]
    cases operand.value scope with
    | error fault => rfl
    | ok v => exact (fault?_blame span (sign.apply v)).symm

theorem Expr.value_eq_error_iff {scope : Scope} {e : Expr} {fault : Located RunFault} :
    e.value scope = .error fault ↔ ∃ before node after, e.nodes = before ++ node :: after ∧
      node.refusal? scope = some fault ∧ ∀ n ∈ before, n.refusal? scope = none := by
  rw [← List.findSome?_eq_some_iff, findSome?_refusal?]
  cases e.value scope <;> simp [fault?]

/-! ## What operators refuse -/

theorem beq_zero_iff_eq (x : Float) : (x == 0) = true ↔ x = 0 ∨ x = -0 := by
  constructor
  · intro h
    obtain hle | hlt := le_or_gt (magnitude x) infinityBits
    · have hmagnitude := (beq_zero_iff hle).mp h
      cases hnegative : isNegative x with
      | false =>
        have hzero : isNegative 0 = false ∧ magnitude 0 = 0 := by decide +kernel
        exact .inl (eq_of_magnitude_eq (hnegative.trans hzero.1.symm)
          (hmagnitude.trans hzero.2.symm))
      | true =>
        have hzero : isNegative (-0) = true ∧ magnitude (-0) = 0 := by decide +kernel
        exact .inr (eq_of_magnitude_eq (hnegative.trans hzero.1.symm)
          (hmagnitude.trans hzero.2.symm))
    · -- what is no number equals nothing
      have h : (x.toModel.unpack.compare (0 : Float).toModel.unpack == some .eq) = true := h
      rw [unpack_of_lt_magnitude hlt] at h
      cases h
  · rintro (rfl | rfl)
    · decide +kernel
    · decide +kernel

section Operators

variable {text : String} {count : Float} {message : String} {kind : FaultKind}

theorem refusesRepetition_iff : RefusesRepetition text count message ↔
    ∃ fault, repeatText text count = .error fault ∧ fault.message = message := by
  constructor
  · rintro (h | ⟨hcount, hpos, htext, hsize⟩)
    · exact ⟨_, repeatText_of_not_isWhole h, rfl⟩
    · refine ⟨.repetitionTooLarge, ?_, rfl⟩
      rw [repeatText_of_isWhole hcount, if_neg (by simp [htext]; omega),
        if_pos (limit_lt_of_lt hcount hpos hsize)]
  · rintro ⟨fault, h, rfl⟩
    by_cases hwhole : ∃ k, IsWhole count k
    · obtain ⟨k, hcount⟩ := hwhole
      rw [repeatText_of_isWhole hcount] at h
      split at h
      case isTrue => cases h
      case isFalse hnothing =>
        obtain ⟨hpos, htext⟩ := not_or.mp hnothing
        obtain ⟨n, rfl⟩ := Int.eq_ofNat_of_zero_le (Int.le_of_not_le hpos)
        have hpos : 0 < n := by omega
        split at h <;> cases h
        exact .tooLarge hcount hpos htext
          ((limit_lt_iff hcount hpos (utf8ByteSize_pos htext)).mp ‹_›)
    · rw [repeatText_of_not_isWhole (not_exists.mp hwhole)] at h
      cases h
      exact .notWhole (not_exists.mp hwhole)

theorem kind_of_repeatText {fault : RunFault} (h : repeatText text count = .error fault) :
    fault.kind = .invalidOperation := by
  unfold repeatText at h
  split at h
  · cases h
    rfl
  · split at h
    · cases h
    · split at h <;> cases h
      rfl

namespace BinaryOp

variable {op : BinaryOp} {l r : Value} {fault : RunFault}

theorem apply_of_kind?_eq_none (h : op.kind? l.kind r.kind = none) :
    op.apply l r = .error (.binaryKinds op l.kind r.kind) := by
  cases op <;> cases l <;> cases r <;> first | rfl | cases h

theorem apply_divide_eq_error_iff {x y : Float} :
    divide.apply (.number x) (.number y) = .error fault ↔
      (y = 0 ∨ y = -0) ∧ fault = .divisionByZero := by
  rw [← beq_zero_iff_eq, apply]
  split
  case isTrue hzero =>
    rw [Except.error.injEq, and_iff_right hzero]
    exact eq_comm
  case isFalse hzero => exact iff_of_false (by rintro ⟨⟩) fun h => hzero h.1

theorem apply_multiply_eq_error_iff
    (h : l = .string text ∧ r = .number count ∨ l = .number count ∧ r = .string text) :
    multiply.apply l r = .error fault ↔ repeatText text count = .error fault := by
  have happly : multiply.apply l r = (repeatText text count).map .string := by
    obtain ⟨rfl, rfl⟩ | ⟨rfl, rfl⟩ := h <;> rfl
  rw [happly]
  cases repeatText text count <;> simp [Except.map]

theorem Refuses.of_repeatText (h : repeatText text count = .error fault)
    (hvalues : l = .string text ∧ r = .number count ∨ l = .number count ∧ r = .string text) :
    multiply.Refuses l r fault.kind fault.message := by
  rw [kind_of_repeatText h]
  exact .repetition (refusesRepetition_iff.mpr ⟨fault, h, rfl⟩) hvalues

/-- An operator refuses what it has no value for. -/
theorem refuses_iff : op.Refuses l r kind message ↔
    ∃ fault, op.apply l r = .error fault ∧ fault.kind = kind ∧ fault.message = message := by
  constructor
  · rintro (h | ⟨x, hy⟩ | ⟨h, hvalues⟩)
    · exact ⟨_, apply_of_kind?_eq_none h, rfl, rfl⟩
    · exact ⟨_, apply_divide_eq_error_iff.mpr ⟨hy, rfl⟩, rfl, rfl⟩
    · obtain ⟨fault, hfault, hmessage⟩ := refusesRepetition_iff.mp h
      exact ⟨fault, (apply_multiply_eq_error_iff hvalues).mpr hfault, kind_of_repeatText hfault,
        hmessage⟩
  · rintro ⟨fault, h, rfl, rfl⟩
    cases op <;> cases l <;> cases r
    case divide.number.number x y =>
      obtain ⟨hy, rfl⟩ := apply_divide_eq_error_iff.mp h
      exact .zero x hy
    case multiply.string.number s x =>
      have h := (apply_multiply_eq_error_iff (.inl ⟨rfl, rfl⟩)).mp h
      exact .of_repeatText h (.inl ⟨rfl, rfl⟩)
    case multiply.number.string x s =>
      have h := (apply_multiply_eq_error_iff (.inr ⟨rfl, rfl⟩)).mp h
      exact .of_repeatText h (.inr ⟨rfl, rfl⟩)
    -- every other cell has a value, or is outside of the table
    all_goals cases h <;> exact .kinds rfl

theorem Refuses.kind_ne (h : op.Refuses l r kind message) : kind ≠ .undefinedIdentifier := by
  rintro rfl
  cases h

end BinaryOp

end Operators

/-! ## Failing nodes -/

theorem RunFault.scope?_eq_none {fault : RunFault} (h : fault.kind ≠ .undefinedIdentifier) :
    fault.scope? = none := by
  cases fault <;> first | rfl | exact absurd rfl h

theorem refusalOf_eq_some_iff {span : Span} {outcome : Except RunFault Value}
    {fault : Located RunFault} :
    refusalOf span outcome = some fault ↔ outcome = .error fault.cause ∧ fault.span = span := by
  obtain ⟨cause, span'⟩ := fault
  cases outcome <;> simp [refusalOf, eq_comm]

/-- How a fault of a running program is told. -/
def Located.told (fault : Located RunFault) : Diagnostic :=
  .ofFault (fault.map .running)

theorem Located.told_signedKind (sign : Sign) (span : Span) :
    Located.told ⟨.signedKind sign .string, span⟩ =
      ⟨.invalidOperation, "Unary '" ++ sign.symbol ++ "' is not supported for type String", span,
        none⟩ := by
  cases sign <;> rfl

/-- A sign refuses texts only. -/
theorem Sign.apply_eq_error_iff {sign : Sign} {v : Value} {fault : RunFault} :
    sign.apply v = .error fault ↔ (∃ s, v = .string s) ∧ fault = .signedKind sign .string := by
  cases sign <;> cases v <;> simp [apply, Value.kind, eq_comm]

/-- A node fails for what it refuses. -/
theorem Expr.fails_iff {scope : Scope} {node : Expr} {d : Diagnostic} :
    node.Fails scope d ↔ ∃ fault, node.refusal? scope = some fault ∧ fault.told = d := by
  constructor
  · rintro (⟨h, span⟩ | ⟨hleft, hright, h, span⟩ | ⟨sign, hoperand, span⟩)
    · refine ⟨⟨.undefinedName _ scope.name, span⟩, ?_, rfl⟩
      rw [refusal?, h]
    · obtain ⟨fault, hfault, rfl, rfl⟩ := BinaryOp.refuses_iff.mp h
      refine ⟨⟨fault, span⟩, ?_, ?_⟩
      · rw [refusal?, hleft.value_eq, hright.value_eq]
        exact refusalOf_eq_some_iff.mpr ⟨hfault, rfl⟩
      · have hscope := RunFault.scope?_eq_none h.kind_ne
        exact congrArg (Diagnostic.mk fault.kind fault.message span) hscope
    · refine ⟨⟨.signedKind sign .string, span⟩, ?_, Located.told_signedKind sign span⟩
      rw [refusal?, hoperand.value_eq]
      exact refusalOf_eq_some_iff.mpr ⟨Sign.apply_eq_error_iff.mpr ⟨⟨_, rfl⟩, rfl⟩, rfl⟩
  · rintro ⟨fault, h, rfl⟩
    cases node with
    | number x span => cases h
    | text s span => cases h
    | «variable» name span =>
      rw [refusal?] at h
      split at h <;> cases h
      exact .undefined ‹_› span
    | binary op left right span =>
      rw [refusal?] at h
      split at h
      case h_1 l r hleft hright =>
        obtain ⟨hfault, rfl⟩ := refusalOf_eq_some_iff.mp h
        have hrefuses := BinaryOp.refuses_iff.mpr ⟨fault.cause, hfault, rfl, rfl⟩
        have hfails := Fails.binary (hasValue_of_value hleft) (hasValue_of_value hright) hrefuses
          fault.span
        rwa [← RunFault.scope?_eq_none hrefuses.kind_ne] at hfails
      case h_2 => cases h
    | signed sign operand span =>
      rw [refusal?] at h
      split at h
      case h_1 v hoperand =>
        obtain ⟨hfault, rfl⟩ := refusalOf_eq_some_iff.mp h
        obtain ⟨⟨s, rfl⟩, hcause⟩ := Sign.apply_eq_error_iff.mp hfault
        have hfails := Fails.signed sign (hasValue_of_value hoperand) fault.span
        rwa [← Located.told_signedKind, ← hcause] at hfails
      case h_2 => cases h

theorem Expr.refusal?_eq_none_iff {scope : Scope} {node : Expr} :
    node.refusal? scope = none ↔ ∀ d, ¬node.Fails scope d := by
  simp only [fails_iff, Option.eq_none_iff_forall_ne_some]
  constructor
  · rintro h d ⟨fault, hfault, -⟩
    exact h fault hfault
  · exact fun h fault hfault => h fault.told ⟨fault, hfault, rfl⟩

section Classification

variable {scope : Scope} {e node left right : Expr} {d : Diagnostic}

theorem Expr.HasValue.unique {v v' : Value} (h : e.HasValue scope v) (h' : e.HasValue scope v') :
    v = v' :=
  Except.ok.inj (h.value_eq.symm.trans h'.value_eq)

/-- The node is a division of two numbers, and the divisor is a zero of either sign. -/
def Expr.DividesByZero (scope : Scope) (node : Expr) : Prop :=
  ∃ left right span x y, node = .binary .divide left right span ∧
    left.HasValue scope (.number x) ∧ right.HasValue scope (.number y) ∧ (y = 0 ∨ y = -0)

/-- The operands of the node have values of kinds that are outside of its table. -/
inductive Expr.IsOutsideTable (scope : Scope) : Expr → Prop where
  | binary {op : BinaryOp} {left right : Expr} {l r : Value} (hleft : HasValue scope left l)
      (hright : HasValue scope right r) (h : op.kind? l.kind r.kind = none) (span : Span) :
      IsOutsideTable scope (.binary op left right span)
  | signed {operand : Expr} {v : Value} (sign : Sign) (hoperand : HasValue scope operand v)
      (h : v.kind ≠ .number) (span : Span) : IsOutsideTable scope (.signed sign operand span)

/-- The node asks for a repetition that is refused. -/
def Expr.IsRefusedRepetition (scope : Scope) (node : Expr) : Prop :=
  ∃ left right span s count message, node = .binary .multiply left right span ∧
    (left.HasValue scope (.string s) ∧ right.HasValue scope (.number count) ∨
      left.HasValue scope (.number count) ∧ right.HasValue scope (.string s)) ∧
    RefusesRepetition s count message

/-- What the diagnostic of a failing node says of the node. -/
structure Expr.IsToldBy (scope : Scope) (node : Expr) (d : Diagnostic) : Prop where
  span_eq : d.span = node.span
  undefined_iff : d.kind = .undefinedIdentifier ↔
    ∃ name span, node = .variable name span ∧ scope.get? name = none
  message_of_undefined : ∀ name span, node = .variable name span →
    d.message = "Identifier '" ++ name ++ "' is not defined"
  divisionByZero_iff : d.kind = .divisionByZero ↔ node.DividesByZero scope
  invalidOperation_iff :
    d.kind = .invalidOperation ↔ node.IsOutsideTable scope ∨ node.IsRefusedRepetition scope
  scope_eq : d.scope = if d.kind = .undefinedIdentifier then some scope.name else none

theorem BinaryOp.Refuses.isToldBy {op : BinaryOp} {l r : Value} {kind : FaultKind}
    {message : String} (hleft : left.HasValue scope l) (hright : right.HasValue scope r)
    (h : op.Refuses l r kind message) (span : Span) :
    (Expr.binary op left right span).IsToldBy scope ⟨kind, message, span, none⟩ where
  span_eq := rfl
  undefined_iff := iff_of_false h.kind_ne nofun
  message_of_undefined := nofun
  divisionByZero_iff := by
    constructor
    · rintro rfl
      cases h with
      | zero x hy => exact ⟨left, right, span, x, _, rfl, hleft, hright, hy⟩
    · rintro ⟨_, _, _, x, y, ⟨⟩, hleft', hright', hy⟩
      obtain rfl := hleft.unique hleft'
      obtain rfl := hright.unique hright'
      cases h with
      | kinds h => cases h
      | zero x hy => rfl
  invalidOperation_iff := by
    constructor
    · rintro rfl
      cases h with
      | kinds h => exact .inl (.binary hleft hright h span)
      | repetition h hvalues =>
        refine .inr ⟨left, right, span, _, _, message, rfl, ?_, h⟩
        obtain ⟨rfl, rfl⟩ | ⟨rfl, rfl⟩ := hvalues
        · exact .inl ⟨hleft, hright⟩
        · exact .inr ⟨hleft, hright⟩
    · cases h with
      | kinds h => exact fun _ => rfl
      | zero x hy =>
        rintro (⟨hleft', hright', h, -⟩ | ⟨_, _, _, _, _, _, ⟨⟩, -⟩)
        obtain rfl := hleft.unique hleft'
        obtain rfl := hright.unique hright'
        cases h
      | repetition h hvalues => exact fun _ => rfl
  scope_eq := (if_neg h.kind_ne).symm

/-- The diagnostic of a failing node is of the kind that its failure is of. -/
theorem Expr.Fails.isToldBy (h : node.Fails scope d) : node.IsToldBy scope d := by
  cases h with
  | @undefined name h span =>
    exact {
      span_eq := rfl
      undefined_iff := iff_of_true rfl ⟨name, span, rfl, h⟩
      message_of_undefined := by
        rintro _ _ ⟨⟩
        rfl
      divisionByZero_iff := iff_of_false nofun nofun
      invalidOperation_iff := by
        refine iff_of_false nofun ?_
        rintro (houtside | ⟨_, _, _, _, _, _, ⟨⟩, -⟩)
        cases houtside
      scope_eq := rfl }
  | binary hleft hright h span => exact h.isToldBy hleft hright span
  | signed sign hoperand span =>
    exact {
      span_eq := rfl
      undefined_iff := iff_of_false nofun nofun
      message_of_undefined := nofun
      divisionByZero_iff := iff_of_false nofun nofun
      invalidOperation_iff := iff_of_true rfl (.inl (.signed sign hoperand nofun span))
      scope_eq := rfl }

end Classification

/-! ## Values in order -/

section Print

variable {scope : Scope} {e : Expr} {es before : List Expr} {fault : Located RunFault}

theorem Expr.values_eq_ok {vs : List Value} (h : List.Forall₂ (HasValue scope) es vs) :
    Expr.values scope es = .ok vs := by
  induction h with
  | nil => rfl
  | cons h hmore ih => rw [values, h.value_eq, ih]

theorem Expr.values_eq_error (hbefore : ∀ e' ∈ before, ∃ v, e'.HasValue scope v)
    (h : e.value scope = .error fault) (after : List Expr) :
    Expr.values scope (before ++ e :: after) = .error fault := by
  induction before with
  | nil => rw [List.nil_append, values, h]
  | cons first before ih =>
    obtain ⟨⟨v, hfirst⟩, hbefore⟩ := List.forall_mem_cons.mp hbefore
    rw [List.cons_append, values, hfirst.value_eq, ih hbefore]

/-- All values are there, or there is a first one that is not. -/
theorem Expr.exists_values_or_first (scope : Scope) (es : List Expr) :
    (∃ vs, List.Forall₂ (HasValue scope) es vs) ∨
      ∃ before e after fault, es = before ++ e :: after ∧
        (∀ e' ∈ before, ∃ v, e'.HasValue scope v) ∧ e.value scope = .error fault := by
  induction es with
  | nil => exact .inl ⟨[], .nil⟩
  | cons e es ih =>
    cases he : e.value scope with
    | error fault => exact .inr ⟨[], e, es, fault, rfl, by simp, he⟩
    | ok v =>
      have hv := hasValue_of_value he
      obtain ⟨vs, hvs⟩ | ⟨before, e', after, fault, rfl, hbefore, he'⟩ := ih
      · exact .inl ⟨v :: vs, .cons hv hvs⟩
      · exact .inr ⟨e :: before, e', after, fault, rfl,
          List.forall_mem_cons.mpr ⟨⟨v, hv⟩, hbefore⟩, he'⟩

end Print

/-! ## Evaluating and printing -/

/-- What evaluating an expression in a session gives. -/
structure Session.EvaluatesInOrder (s : Session) (e : Expr) : Prop where
  ok_iff : ∀ v, e.value s.scope = .ok v ↔ e.HasValue s.scope v
  /-- It fails iff some node does. -/
  error_iff : (∃ fault, e.value s.scope = .error fault) ↔
    ∃ node ∈ e.nodes, ∃ d, node.Fails s.scope d
  /-- What is told is the failure of the first node that fails. -/
  told_iff : ∀ d, (∃ fault, e.value s.scope = .error fault ∧ fault.told = d) ↔
    ∃ before node after, e.nodes = before ++ node :: after ∧
      (∀ n ∈ before, ∀ d', ¬n.Fails s.scope d') ∧ node.Fails s.scope d
  isToldBy : ∀ (node : Expr) (d : Diagnostic), node.Fails s.scope d → node.IsToldBy s.scope d
  /-- The session stays as it was. -/
  unchanged : ∀ name, s.take name (.evaluate e) = (.value (e.value s.scope), s)

/-- What printing values in a session does. -/
structure Session.PrintsInOrder (s : Session) (values : List Expr) (span : Span) : Prop where
  /-- The first value that fails decides. The session stays as it was, whatever values the
  expressions before it have. -/
  fails : ∀ before e after fault, values = before ++ e :: after →
    (∀ e' ∈ before, ∃ v, e'.HasValue s.scope v) → e.value s.scope = .error fault →
    s.runStatement (.print values span) = ⟨s, some (.fault (fault.map .running))⟩
  /-- If none fails, the texts of the values go to the sink, with single blanks between them and a
  newline behind. -/
  prints : ∀ vs, List.Forall₂ (Expr.HasValue s.scope) values vs →
    let line := " ".intercalate (vs.map Value.text) ++ "\n"
    s.runStatement (.print values span) = s.write line ∧
      (s.sink.limit = none → s.runStatement (.print values span) =
        ⟨⟨s.scope, ⟨none, s.sink.written ++ line.toUTF8⟩⟩, none⟩)
  /-- One of the two is the case. -/
  exhaustive : (∃ vs, List.Forall₂ (Expr.HasValue s.scope) values vs) ∨
    ∃ before e after fault, values = before ++ e :: after ∧
      (∀ e' ∈ before, ∃ v, e'.HasValue s.scope v) ∧ e.value s.scope = .error fault

namespace Session

variable (s : Session)

theorem evaluatesInOrder (e : Expr) : s.EvaluatesInOrder e where
  ok_iff v := Expr.value_eq_ok_iff
  error_iff := by
    have hsearch := e.findSome?_refusal? s.scope
    constructor
    · rintro ⟨fault, h⟩
      rw [h] at hsearch
      obtain ⟨node, hnode, hfault⟩ := List.exists_of_findSome?_eq_some hsearch
      exact ⟨node, hnode, _, Expr.fails_iff.mpr ⟨fault, hfault, rfl⟩⟩
    · rintro ⟨node, hnode, d, hfails⟩
      obtain ⟨fault, hfault, -⟩ := Expr.fails_iff.mp hfails
      cases h : e.value s.scope with
      | error fault => exact ⟨fault, rfl⟩
      | ok v =>
        rw [h] at hsearch
        rw [List.findSome?_eq_none_iff.mp hsearch node hnode] at hfault
        cases hfault
  told_iff d := by
    simp only [Expr.value_eq_error_iff, ← Expr.refusal?_eq_none_iff]
    constructor
    · rintro ⟨fault, ⟨before, node, after, hnodes, hfault, hbefore⟩, rfl⟩
      exact ⟨before, node, after, hnodes, hbefore, Expr.fails_iff.mpr ⟨fault, hfault, rfl⟩⟩
    · rintro ⟨before, node, after, hnodes, hbefore, hfails⟩
      obtain ⟨fault, hfault, rfl⟩ := Expr.fails_iff.mp hfails
      exact ⟨fault, ⟨before, node, after, hnodes, hfault, hbefore⟩, rfl⟩
  isToldBy node d h := h.isToldBy
  unchanged name := rfl

theorem printsInOrder (values : List Expr) (span : Span) : s.PrintsInOrder values span where
  fails before e after fault hvalues hbefore he := by
    rw [runStatement, hvalues, Expr.values_eq_error hbefore he]
    rfl
  prints vs hvs := by
    have hrun : s.runStatement (.print values span) = s.write (printedLine vs) := by
      rw [runStatement, Expr.values_eq_ok hvs]
    exact ⟨hrun, fun hlimit => hrun.trans (write_of_limit_eq_none hlimit _)⟩
  exhaustive := Expr.exists_values_or_first s.scope values

end Session

/-- The fault of an expression is that of the first node that fails on the values of its operands,
and a print writes all of its values or nothing. -/
theorem evaluation_tells_first_failure (s : Session) :
    (∀ e, s.EvaluatesInOrder e) ∧ ∀ values span, s.PrintsInOrder values span :=
  ⟨s.evaluatesInOrder, s.printsInOrder⟩

end Peng
