import Peng.Run.Session

/-!
# Kinds ahead of the run

Whether a program asks an operator for something that it is not defined for, or uses a name
that has no value, can be told from the kinds of the names in scope, without running it. An
assignment changes the kind of its name for the statements behind it.

The rules are `BinaryOp.kind?`, `Expr.kind?` and `Statement.kindsAfter?`. They are exact
(`runStatements_of_kinds`): a program that follows them can only fail because of a value (a
division by zero, a count that is not whole, a text that grows too large), and one that does not
follow them never succeeds.
-/

namespace Peng

/-- The kinds of the names that have a value. -/
abbrev Kinds := String → Option Value.Kind

namespace Kinds

/-- Gives a name a kind, in place of the one it had. -/
def assign (kinds : Kinds) (name : String) (k : Value.Kind) : Kinds :=
  fun other => if other = name then some k else kinds other

end Kinds

/-- The kinds of the values in a scope. -/
def Scope.kinds (s : Scope) : Kinds :=
  fun name => (s.get? name).map Value.kind

/-! ## The rules -/

/-- The kind of what an operator gives. All operators take two numbers; texts can be joined, and
repeated by a number on either side. -/
def BinaryOp.kind? : BinaryOp → Value.Kind → Value.Kind → Option Value.Kind
  | _, .number, .number => some .number
  | .add, .string, .string => some .string
  | .multiply, .string, .number | .multiply, .number, .string => some .string
  | _, _, _ => none

/-- The kind of an expression, if it has one. A sign takes a number. -/
def Expr.kind? (kinds : Kinds) : Expr → Option Value.Kind
  | .number _ _ => some .number
  | .text _ _ => some .string
  | .variable name _ => kinds name
  | .binary op left right _ =>
    match left.kind? kinds, right.kind? kinds with
    | some k, some k' => op.kind? k k'
    | _, _ => none
  | .signed _ operand _ =>
    match operand.kind? kinds with
    | some .number => some .number
    | _ => none

/-- The kinds behind a statement, if all its expressions have one. -/
def Statement.kindsAfter? (kinds : Kinds) : Statement → Option Kinds
  | .print values _ => if ∀ e ∈ values, (e.kind? kinds).isSome then some kinds else none
  | .assign name e _ => (e.kind? kinds).map (kinds.assign name)

/-- The kinds behind a list of statements. -/
def kindsAfter? (kinds : Kinds) (ss : List Statement) : Option Kinds :=
  ss.foldlM Statement.kindsAfter? kinds

/-- The faults that come from a value and not from its kind. -/
inductive RunFault.IsOfValues : RunFault → Prop where
  | divisionByZero : IsOfValues .divisionByZero
  | repetitionCount (count : Float) (hcount : (Binary.ofFloat? count).bind Binary.whole? = none) :
      IsOfValues (.repetitionCount count)
  | repetitionTooLarge : IsOfValues .repetitionTooLarge

/-! ## Expressions -/

/-- A value has the kind that was expected, and where a kind was expected, only a value can
have been at fault. -/
def Agrees (kind? : Option Value.Kind) : Except (Located RunFault) Value → Prop
  | .ok v => kind? = some v.kind
  | .error fault => kind?.isSome → fault.cause.IsOfValues

theorem repeatText_agrees (text : String) (count : Float) (span : Span) :
    Agrees (some .string) (blame span ((repeatText text count).map .string)) := by
  unfold repeatText
  split
  case h_1 hcount => exact fun _ => .repetitionCount count hcount
  case h_2 n _ =>
    split
    case isTrue => rfl
    case isFalse =>
      split
      case isTrue => exact fun _ => .repetitionTooLarge
      case isFalse => rfl

/-- Every cell of the operator tables agrees with its rule. -/
theorem BinaryOp.apply_agrees (op : BinaryOp) (left right : Value) (span : Span) :
    Agrees (op.kind? left.kind right.kind) (blame span (op.apply left right)) := by
  cases op <;> cases left <;> cases right
  case multiply.number.string n s => exact repeatText_agrees s n span
  case multiply.string.number s n => exact repeatText_agrees s n span
  case divide.number.number l r =>
    simp only [apply]
    split
    · exact fun _ => .divisionByZero
    · rfl
  -- every other cell has its kind by computation, or no kind
  all_goals first | rfl | exact nofun

/-- The operands of an expression that has a kind have one. -/
theorem Expr.isSome_of_kind?_binary {kinds : Kinds} {op : BinaryOp} {left right : Expr}
    {span : Span} (h : ((Expr.binary op left right span).kind? kinds).isSome) :
    (left.kind? kinds).isSome ∧ (right.kind? kinds).isSome := by
  rw [kind?] at h
  revert h
  cases left.kind? kinds <;> cases right.kind? kinds <;> simp

theorem Expr.isSome_of_kind?_signed {kinds : Kinds} {sign : Sign} {operand : Expr} {span : Span}
    (h : ((Expr.signed sign operand span).kind? kinds).isSome) :
    (operand.kind? kinds).isSome := by
  rw [kind?] at h
  revert h
  cases operand.kind? kinds <;> simp

/-- The value of an expression, and why it has none, agree with its kind. -/
theorem Expr.value_agrees (scope : Scope) (e : Expr) :
    Agrees (e.kind? scope.kinds) (e.value scope) := by
  induction e with
  | number x span => rfl
  | text s span => rfl
  | «variable» name span =>
    simp only [kind?, value, Scope.kinds]
    cases scope.get? name with
    | none => exact nofun
    | some v => rfl
  | binary op left right span ihleft ihright =>
    simp only [value]
    revert ihleft ihright
    -- the left operand is evaluated first, so its fault wins over one on the right
    cases left.value scope with
    | error fault => exact fun ihleft _ hkind => ihleft (isSome_of_kind?_binary hkind).1
    | ok l =>
      rintro (hleft : left.kind? scope.kinds = some l.kind) ihright
      revert ihright
      cases right.value scope with
      | error fault => exact fun ihright hkind => ihright (isSome_of_kind?_binary hkind).2
      | ok r =>
        rintro (hright : right.kind? scope.kinds = some r.kind)
        rw [kind?, hleft, hright]
        exact op.apply_agrees l r span
  | signed sign operand span ih =>
    simp only [value]
    revert ih
    cases operand.value scope with
    | error fault => exact fun ih hkind => ih (isSome_of_kind?_signed hkind)
    | ok v =>
      rintro (hoperand : operand.kind? scope.kinds = some v.kind)
      rw [kind?, hoperand]
      cases sign <;> cases v <;> first | rfl | exact nofun

/-- Values in order have no other fault than one of them by itself. -/
theorem Expr.values_agree (scope : Scope) (es : List Expr) :
    match Expr.values scope es with
    | .ok _ => ∀ e ∈ es, (e.kind? scope.kinds).isSome
    | .error fault => (∀ e ∈ es, (e.kind? scope.kinds).isSome) → fault.cause.IsOfValues := by
  induction es with
  | nil => exact nofun
  | cons e es ih =>
    have hfirst := e.value_agrees scope
    simp only [values]
    revert hfirst ih
    cases e.value scope with
    | error fault => exact fun _ hfirst hes => hfirst (hes e List.mem_cons_self)
    | ok v =>
      cases Expr.values scope es with
      | error fault => exact fun ih _ hes => ih fun e' he' => hes e' (List.mem_cons_of_mem e he')
      | ok vs =>
        rintro ih (hfirst : e.kind? scope.kinds = some v.kind) e' he'
        cases he' with
        | head => rw [hfirst]; rfl
        | tail _ he' => exact ih e' he'

/-! ## Statements -/

theorem Scope.kinds_assign (s : Scope) (name : String) (v : Value) :
    (s.assign name v).kinds = s.kinds.assign name v.kind := by
  funext other
  by_cases h : other = name
  · subst h
    simp [kinds, Kinds.assign]
  · simp [kinds, Kinds.assign, h, s.get?_assign_of_ne h v]

/-- The sink took no more, or a value was at fault. -/
inductive Stop.IsOfValues : Stop → Prop where
  | sinkFull : IsOfValues .sinkFull
  | fault {fault : Located RunFault} (h : fault.cause.IsOfValues) :
      IsOfValues (.fault (fault.map .running))

/-- What a statement leaves behind against the kinds that were expected: a statement that ends
the run leaves the scope as it was, and one that does not has the kinds of its rule. -/
def Outcome.Agrees (before : Scope) (kinds? : Option Kinds) (o : Outcome) : Prop :=
  match o.stop with
  | none => kinds? = some o.session.scope.kinds
  | some stop => o.session.scope = before ∧ (kinds?.isSome → stop.IsOfValues)

theorem Session.runStatement_agrees (s : Session) (statement : Statement) :
    (s.runStatement statement).Agrees s.scope (statement.kindsAfter? s.scope.kinds) := by
  cases statement with
  | print values span =>
    have hvalues := Expr.values_agree s.scope values
    simp only [runStatement, Statement.kindsAfter?]
    revert hvalues
    cases Expr.values s.scope values with
    | error fault =>
      intro hvalues
      exact ⟨rfl, fun hkinds => .fault (hvalues (by simpa using hkinds))⟩
    | ok vs =>
      intro hvalues
      rw [if_pos hvalues]
      dsimp only [write, Outcome.Agrees]
      cases (s.sink.write (printedLine vs).toUTF8).2 with
      | true => rfl
      | false => exact ⟨rfl, fun _ => .sinkFull⟩
  | assign name e span =>
    have hvalue := e.value_agrees s.scope
    simp only [runStatement, assign, Statement.kindsAfter?]
    revert hvalue
    cases e.value s.scope with
    | error fault =>
      intro hvalue
      exact ⟨rfl, fun hkinds => .fault (hvalue (by simpa using hkinds))⟩
    | ok v =>
      rintro (hvalue : e.kind? s.scope.kinds = some v.kind)
      rw [hvalue]
      exact congrArg some (s.scope.kinds_assign name v).symm

theorem kindsAfter?_cons (kinds : Kinds) (first : Statement) (more : List Statement) :
    kindsAfter? kinds (first :: more) =
      (first.kindsAfter? kinds).bind fun kinds => kindsAfter? kinds more :=
  List.foldlM_cons

namespace Session

/-- The run of `ss` ended early, behind the statements `done`, and left a scope of these
kinds. -/
def EndsBehind (s : Session) (ss done : List Statement) (kinds? : Option Kinds) : Prop :=
  (∃ next rest, done ++ next :: rest = ss) ∧ (s.runStatements done).stop = none ∧
    (s.runStatements done).session.scope = (s.runStatements ss).session.scope ∧
    kinds? = some (s.runStatements ss).session.scope.kinds

/-- A run that goes through leaves the kinds of the rules; one that does not has gone through
the statements before the one that ended it. -/
theorem runStatements_agrees (s : Session) (ss : List Statement) :
    match (s.runStatements ss).stop with
    | none => kindsAfter? s.scope.kinds ss = some (s.runStatements ss).session.scope.kinds
    | some stop => ((kindsAfter? s.scope.kinds ss).isSome → stop.IsOfValues) ∧
      ∃ done, s.EndsBehind ss done (kindsAfter? s.scope.kinds done) := by
  induction ss generalizing s with
  | nil => rfl
  | cons first more ih =>
    have hfirst := s.runStatement_agrees first
    simp only [EndsBehind, kindsAfter?_cons, runStatements]
    cases hrun : s.runStatement first with | mk s' stop =>
    rw [hrun] at hfirst
    cases stop with
    | none =>
      have hkinds : first.kindsAfter? s.scope.kinds = some s'.scope.kinds := hfirst
      have hmore := ih s'
      rw [hkinds, Option.bind_some]
      dsimp only
      revert hmore
      cases (s'.runStatements more).stop with
      | none => exact id
      | some stop =>
        rintro ⟨hstop, done, ⟨next, rest, rfl⟩, hdone, hscope, hkindsDone⟩
        refine ⟨hstop, first :: done, ⟨next, rest, rfl⟩, ?_, ?_, ?_⟩
        · rwa [runStatements, hrun]
        · rwa [runStatements, hrun]
        · rwa [kindsAfter?_cons, hkinds]
    | some stop =>
      obtain ⟨hscope, hstop⟩ := hfirst
      refine ⟨fun hkinds => hstop ?_, [], ⟨first, more, rfl⟩, rfl, hscope.symm, ?_⟩
      · obtain ⟨kinds, hkinds⟩ := Option.isSome_iff_exists.mp hkinds
        obtain ⟨kinds', hfirst, -⟩ := Option.bind_eq_some_iff.mp hkinds
        rw [hfirst]
        rfl
      · exact congrArg some (congrArg Scope.kinds hscope.symm)

/-- The kinds decide, ahead of any run: if all statements have them, only a value can be at
fault and every name has the kind that the rules give it; otherwise the run does not succeed. -/
theorem runStatements_of_kinds (s : Session) (ss : List Statement) :
    match kindsAfter? s.scope.kinds ss with
    | none => (s.runStatements ss).stop ≠ none
    | some kinds =>
      match (s.runStatements ss).stop with
      | none => (s.runStatements ss).session.scope.kinds = kinds
      | some stop => stop.IsOfValues ∧
        ∃ done, s.EndsBehind ss done (kindsAfter? s.scope.kinds done) := by
  have h := s.runStatements_agrees ss
  revert h
  cases (s.runStatements ss).stop with
  | none =>
    intro h
    have hkinds : kindsAfter? s.scope.kinds ss = some _ := h
    rw [hkinds]
  | some stop =>
    rintro ⟨hstop, hends⟩
    cases hkinds : kindsAfter? s.scope.kinds ss with
    | none => exact nofun
    | some kinds => exact ⟨hstop (by rw [hkinds]; rfl), hends⟩

end Session

end Peng
