import Peng.Proofs.Syntax.Acceptance
import Peng.Run.Session

/-!
# Programs at another place

No stage looks at where a token or a node stands, except to say so. A function on positions can
therefore be applied before or after scanning, parsing and running alike:

* scanning, if it commutes with reading a character (`scanFrom_relocate`),
* parsing (`Grammar.statements_relocate`),
* running (`Session.runStatements_relocate`).
-/

namespace Peng

variable {f : Position → Position}

/-- A stretch with both ends moved. -/
def Span.relocate (f : Position → Position) (s : Span) : Span :=
  ⟨f s.start, f s.finish⟩

/-- A cause blamed on the moved stretch. -/
def Located.relocate {ε : Type} (f : Position → Position) (l : Located ε) : Located ε :=
  ⟨l.cause, l.span.relocate f⟩

/-- The same token somewhere else. Reducible, for a proof about the kind of a token is one about
the kind of the same token somewhere else. -/
@[reducible] def Token.relocate (f : Position → Position) (t : Token) : Token :=
  ⟨t.kind, t.lexeme, t.literal, t.span.relocate f⟩

/-- The same expression somewhere else. -/
def Expr.relocate (f : Position → Position) : Expr → Expr
  | .number x span => .number x (span.relocate f)
  | .text s span => .text s (span.relocate f)
  | .variable name span => .variable name (span.relocate f)
  | .binary op left right span =>
    .binary op (left.relocate f) (right.relocate f) (span.relocate f)
  | .signed sign operand span => .signed sign (operand.relocate f) (span.relocate f)

/-- The same statement somewhere else. -/
def Statement.relocate (f : Position → Position) : Statement → Statement
  | .print values span => .print (values.map (Expr.relocate f)) (span.relocate f)
  | .assign name e span => .assign name (e.relocate f) (span.relocate f)

/-- The same expression with every node at one place, by which expressions are compared that stand
at different places. -/
def Expr.unplaced (e : Expr) : Expr :=
  e.relocate fun _ => .start ""

/-- The same statement with every node at one place. -/
def Statement.unplaced (s : Statement) : Statement :=
  s.relocate fun _ => .start ""

/-- The same end of a run, blamed on the moved stretch. -/
def Stop.relocate (f : Position → Position) : Stop → Stop
  | .fault f' => .fault (f'.relocate f)
  | .sinkFull => .sinkFull

theorem Expr.span_relocate (e : Expr) : (e.relocate f).span = e.span.relocate f := by
  cases e <;> rfl

theorem Expr.join_relocate (op : BinaryOp) (left right : Expr) :
    (left.join op right).relocate f = (left.relocate f).join op (right.relocate f) := by
  simp only [join, relocate, span_relocate]
  rfl

theorem getLastD_map {α β : Type} (g : α → β) (l : List α) (a : α) :
    (l.map g).getLastD (g a) = g (l.getLastD a) := by
  rw [List.getLastD_eq_getLast?, List.getLastD_eq_getLast?, List.getLast?_map]
  cases l.getLast? <;> rfl

/-! ## Scanning -/

theorem Position.advanceOver_relocate (hf : ∀ p c, f (p.advance c) = (f p).advance c)
    (p : Position) (text : List Char) : f (p.advanceOver text) = (f p).advanceOver text := by
  induction text generalizing p with
  | nil => rfl
  | cons c text ih => rw [advanceOver_cons, ih, hf, advanceOver_cons]

theorem Span.covering_relocate (hf : ∀ p c, f (p.advance c) = (f p).advance c) (p : Position)
    (text : List Char) : (covering p text).relocate f = covering (f p) text := by
  simp only [covering, relocate, Position.advanceOver_relocate hf]

theorem scanFrom_relocate (hf : ∀ p c, f (p.advance c) = (f p).advance c) (p : Position)
    (cs : List Char) :
    scanFrom (f p) cs =
      match scanFrom p cs with
      | .ok ts => .ok (ts.map (Token.relocate f))
      | .error fault => .error (fault.relocate f) := by
  fun_induction scanFrom p cs with
  | case1 p => rw [scanFrom]; rfl
  | case2 p c cs hblank ih => rw [scanFrom, if_pos hblank, ← hf, ih]
  | case3 p c cs hblank halt hread =>
    rw [scanFrom, if_neg hblank, hread]
    simp only [Halt.located, Located.relocate, Span.covering_relocate hf,
      Position.advanceOver_relocate hf]
  | case4 p c cs hblank lexeme hread ts hscan ih =>
    rw [scanFrom, if_neg hblank, hread]
    rw [hscan] at ih
    simp only [← Position.advanceOver_relocate hf, ih]
    simp only [List.map_cons, Lexeme.token, Token.relocate, Span.covering_relocate hf]
  | case5 p c cs hblank lexeme hread fault hscan ih =>
    rw [scanFrom, if_neg hblank, hread]
    rw [hscan] at ih
    simp only [← Position.advanceOver_relocate hf, ih]

/-! ## Parsing -/

theorem Token.leaf?_relocate (t : Token) :
    (t.relocate f).leaf? = t.leaf?.map (Expr.relocate f) := by
  obtain ⟨kind, lexeme, literal, span⟩ := t
  cases kind <;> rcases literal with _ | ⟨_ | _ | _⟩ <;> rfl

namespace Grammar

/-- Operators with their right operands somewhere else. -/
def relocateAll (f : Position → Position) (more : List (BinaryOp × Expr)) :
    List (BinaryOp × Expr) :=
  more.map fun operand => (operand.1, operand.2.relocate f)

/-- The meaning of a rule somewhere else. -/
def Rule.relocate (f : Position → Position) : (r : Rule) → r.Meaning → r.Meaning
  | .moreTerms, more | .moreFactors, more => relocateAll f more
  | .expression, e | .term, e | .unary, e | .atom, e => Expr.relocate f e

theorem joinAll_relocate (left : Expr) (more : List (BinaryOp × Expr)) :
    (joinAll left more).relocate f = joinAll (left.relocate f) (relocateAll f more) := by
  induction more generalizing left with
  | nil => rfl
  | cons operand more ih =>
    have hjoin := ih (left.join operand.1 operand.2)
    rw [Expr.join_relocate] at hjoin
    exact hjoin

/-- Tokens that are moved have a derivation that is moved. -/
theorem Derivation.exists_relocate {r : Rule} (d : Derivation r) :
    ∃ d' : Derivation r, d'.tokens = d.tokens.map (Token.relocate f) ∧
      d'.meaning = r.relocate f d.meaning := by
  induction d with
  | sum first more ihfirst ihmore =>
    obtain ⟨first', htokens, hmeaning⟩ := ihfirst
    obtain ⟨more', htokens', hmeaning'⟩ := ihmore
    refine ⟨.sum first' more', ?_, ?_⟩
    · rw [tokens, htokens, htokens', tokens, List.map_append]
    · rw [meaning, hmeaning, hmeaning']
      exact (joinAll_relocate _ _).symm
  | noMoreTerms => exact ⟨.noMoreTerms, rfl, rfl⟩
  | nextTerm t op hop right more ihright ihmore =>
    obtain ⟨right', htokens, hmeaning⟩ := ihright
    obtain ⟨more', htokens', hmeaning'⟩ := ihmore
    refine ⟨.nextTerm (t.relocate f) op hop right' more', ?_, ?_⟩
    · rw [tokens, htokens, htokens', tokens, List.map_cons, List.map_append]
    · rw [meaning, hmeaning, hmeaning']
      rfl
  | product first more ihfirst ihmore =>
    obtain ⟨first', htokens, hmeaning⟩ := ihfirst
    obtain ⟨more', htokens', hmeaning'⟩ := ihmore
    refine ⟨.product first' more', ?_, ?_⟩
    · rw [tokens, htokens, htokens', tokens, List.map_append]
    · rw [meaning, hmeaning, hmeaning']
      exact (joinAll_relocate _ _).symm
  | noMoreFactors => exact ⟨.noMoreFactors, rfl, rfl⟩
  | nextFactor t op hop right more ihright ihmore =>
    obtain ⟨right', htokens, hmeaning⟩ := ihright
    obtain ⟨more', htokens', hmeaning'⟩ := ihmore
    refine ⟨.nextFactor (t.relocate f) op hop right' more', ?_, ?_⟩
    · rw [tokens, htokens, htokens', tokens, List.map_cons, List.map_append]
    · rw [meaning, hmeaning, hmeaning']
      rfl
  | unsigned operand ih =>
    obtain ⟨operand', htokens, hmeaning⟩ := ih
    exact ⟨.unsigned operand', htokens, hmeaning⟩
  | signed t sign hsign operand ih =>
    obtain ⟨operand', htokens, hmeaning⟩ := ih
    refine ⟨.signed (t.relocate f) sign hsign operand', ?_, ?_⟩
    · rw [tokens, htokens, tokens, List.map_cons]
    · rw [meaning, hmeaning]
      simp only [Rule.relocate, Expr.span_relocate]
      rfl
  | leaf t e hleaf =>
    have hleaf' : (t.relocate f).IsLeaf (e.relocate f) := by
      rw [isLeaf_iff, Token.leaf?_relocate, isLeaf_iff.mp hleaf]
      rfl
    exact ⟨.leaf (t.relocate f) (e.relocate f) hleaf', rfl, by rw [meaning, meaning]; rfl⟩
  | parenthesised left right hleft hright inner ih =>
    obtain ⟨inner', htokens, hmeaning⟩ := ih
    refine ⟨.parenthesised (left.relocate f) (right.relocate f) hleft hright inner', ?_, hmeaning⟩
    rw [tokens, htokens, tokens, List.map_cons, List.map_append]
    rfl

theorem NextValue.exists_relocate (more : List NextValue) :
    ∃ more' : List NextValue, tokens more' = (tokens more).map (Token.relocate f) ∧
      more'.map (fun v => v.value.meaning) =
        (more.map fun v => v.value.meaning).map (Expr.relocate f) := by
  induction more with
  | nil => exact ⟨[], rfl, rfl⟩
  | cons v more ih =>
    obtain ⟨value', htokens, hmeaning⟩ := v.value.exists_relocate (f := f)
    obtain ⟨more', htokens', hmeaning'⟩ := ih
    refine ⟨⟨v.comma.relocate f, v.hcomma, value'⟩ :: more', ?_, ?_⟩
    · simp only [tokens, List.flatMap_cons, List.map_append, List.map_cons] at htokens' ⊢
      rw [htokens, htokens']
    · rw [List.map_cons, hmeaning', hmeaning]
      rfl

theorem printOf_relocate (first : Expr) (more : List Expr) :
    (printOf first more).relocate f =
      printOf (first.relocate f) (more.map (Expr.relocate f)) := by
  simp only [printOf, Statement.relocate, getLastD_map, Expr.span_relocate]
  rfl

theorem StatementDerivation.exists_relocate (d : StatementDerivation) :
    ∃ d' : StatementDerivation, d'.tokens = d.tokens.map (Token.relocate f) ∧
      d'.meaning = d.meaning.relocate f := by
  cases d with
  | print say hsay first more =>
    obtain ⟨first', htokens, hmeaning⟩ := first.exists_relocate (f := f)
    obtain ⟨more', htokens', hmeaning'⟩ := NextValue.exists_relocate (f := f) more
    refine ⟨.print (say.relocate f) hsay first' more', ?_, ?_⟩
    · rw [tokens, htokens, htokens', tokens, List.map_cons, List.map_append]
    · rw [meaning, hmeaning, hmeaning', meaning, printOf_relocate]
      rfl
  | assign name is hname his value =>
    obtain ⟨value', htokens, hmeaning⟩ := value.exists_relocate (f := f)
    refine ⟨.assign (name.relocate f) (is.relocate f) hname his value', ?_, ?_⟩
    · rw [tokens, htokens, tokens, List.map_cons, List.map_cons]
    · rw [meaning, hmeaning]
      simp only [Rule.relocate, Expr.span_relocate, meaning, Statement.relocate]
      rfl

theorem ProgramDerivation.exists_relocate (d : ProgramDerivation) :
    ∃ d' : ProgramDerivation, d'.tokens = d.tokens.map (Token.relocate f) ∧
      d'.statements = d.statements.map (Statement.relocate f) := by
  induction d with
  | done => exact ⟨.done, rfl, rfl⟩
  | newline t ht more ih =>
    obtain ⟨more', htokens, hstatements⟩ := ih
    refine ⟨.newline (t.relocate f) ht more', ?_, hstatements⟩
    rw [tokens, htokens, tokens, List.map_cons]
  | statement first t ht more ih =>
    obtain ⟨first', htokens, hmeaning⟩ := first.exists_relocate (f := f)
    obtain ⟨more', htokens', hstatements⟩ := ih
    refine ⟨.statement first' (t.relocate f) ht more', ?_, ?_⟩
    · rw [tokens, htokens, htokens', tokens, List.map_append, List.map_cons]
    · rw [statements, hmeaning, hstatements, statements, List.map_cons]
  | last only =>
    obtain ⟨only', htokens, hmeaning⟩ := only.exists_relocate (f := f)
    refine ⟨.last only', htokens, ?_⟩
    rw [statements, hmeaning]
    rfl

namespace Place

theorem step_relocate (p : Place) (t : Token) : p.step (t.relocate f) = p.step t := by
  cases p <;> simp [step, Token.leaf?_relocate]

theorem reach_relocate (p : Place) (ts : List Token) :
    p.reach (ts.map (Token.relocate f)) = p.reach ts := by
  induction ts generalizing p with
  | nil => rfl
  | cons t ts ih =>
    rw [List.map_cons, reach_cons, reach_cons, step_relocate]
    exact congrArg _ (funext ih)

theorem Halts.relocate {p : Place} {ts rest : List Token} {missing : Wanted}
    (h : p.Halts ts missing rest) :
    p.Halts (ts.map (Token.relocate f)) missing (rest.map (Token.relocate f)) := by
  obtain ⟨pre, q, rfl, hpre, hrefuses, hmissing⟩ := h
  refine ⟨pre.map (Token.relocate f), q, List.map_append.symm, ?_, ?_, hmissing⟩
  · rw [reach_relocate, hpre]
  · cases rest with
    | nil => exact hrefuses
    | cons t rest => exact (step_relocate q t).trans hrefuses

end Place

theorem statements_relocate (ts : List Token) :
    statements (ts.map (Token.relocate f)) =
      match statements ts with
      | .ok ss => .ok (ss.map (Statement.relocate f))
      | .error (missing, rest) => .error (missing, rest.map (Token.relocate f)) := by
  -- derivations and halting places both move with the tokens, and they decide the reply
  have hsays := says_statements ts
  revert hsays
  cases statements ts with
  | ok ss =>
    rintro ⟨d, rfl, rfl⟩
    exact statements_ok_iff.mpr d.exists_relocate
  | error failure => exact fun hsays => statements_error_iff.mpr hsays.relocate

end Grammar

/-- The same program somewhere else. -/
def Program.relocate (f : Position → Position) (p : Program) : Program :=
  ⟨p.statements.map (Statement.relocate f), p.span.relocate f⟩

theorem Statement.span_relocate (s : Statement) : (s.relocate f).span = s.span.relocate f := by
  cases s <;> rfl

namespace Reader

/-- A reader of the same tokens somewhere else. -/
def relocate (f : Position → Position) (r : Reader) : Reader :=
  ⟨r.ahead.map (Token.relocate f), r.atEnd.relocate f⟩

theorem programOf_relocate (r : Reader) (ss : List Statement) :
    (r.relocate f).programOf (ss.map (Statement.relocate f)) = (r.programOf ss).relocate f := by
  cases ss with
  | nil => rfl
  | cons first more =>
    simp only [programOf, List.map_cons, getLastD_map, Statement.span_relocate]
    rfl

theorem readProgram_relocate (r : Reader) :
    (r.relocate f).readProgram.1 =
      match r.readProgram.1 with
      | .ok program => .ok (program.relocate f)
      | .error fault => .error (fault.relocate f) := by
  rw [readProgram, relocate, Grammar.statements_relocate, readProgram]
  cases Grammar.statements r.ahead with
  | ok ss => exact congrArg Except.ok (r.programOf_relocate ss)
  | error failure =>
    obtain ⟨missing, rest⟩ := failure
    cases rest <;> rfl

end Reader

/-! ## Running -/

/-- The same result, blamed on the moved stretch. -/
def relocateFault {α : Type} (f : Position → Position) :
    Except (Located RunFault) α → Except (Located RunFault) α
  | .ok a => .ok a
  | .error fault => .error (fault.relocate f)

theorem blame_relocate {α : Type} (span : Span) (r : Except RunFault α) :
    blame (span.relocate f) r = relocateFault f (blame span r) := by
  cases r <;> rfl

theorem Expr.value_relocate (scope : Scope) (e : Expr) :
    (e.relocate f).value scope = relocateFault f (e.value scope) := by
  induction e with
  | number x span => rfl
  | text s span => rfl
  | «variable» name span =>
    simp only [relocate, value]
    cases scope.get? name <;> rfl
  | binary op left right span ihleft ihright =>
    simp only [relocate, value, ihleft, ihright]
    cases left.value scope with
    | error fault => rfl
    | ok l =>
      cases right.value scope with
      | error fault => rfl
      | ok r => exact blame_relocate span (op.apply l r)
  | signed sign operand span ih =>
    simp only [relocate, value, ih]
    cases operand.value scope with
    | error fault => rfl
    | ok v => exact blame_relocate span (sign.apply v)

/-- Where an expression stands has no part in its value. -/
theorem Expr.value_eq_ok_of_unplaced_eq {e e' : Expr} (h : e.unplaced = e'.unplaced)
    {scope : Scope} {v : Value} (hv : e.value scope = .ok v) : e'.value scope = .ok v := by
  have he := e.value_relocate (f := fun _ => .start "") scope
  have he' := e'.value_relocate (f := fun _ => .start "") scope
  rw [show e.relocate (fun _ => .start "") = e'.relocate fun _ => .start "" from h, he', hv] at he
  revert he
  rcases e'.value scope with fault | v'
  · intro he
    cases he
  · intro he
    cases he
    rfl

theorem Expr.values_relocate (scope : Scope) (es : List Expr) :
    Expr.values scope (es.map (relocate f)) = relocateFault f (Expr.values scope es) := by
  induction es with
  | nil => rfl
  | cons e es ih =>
    simp only [List.map_cons, values, value_relocate, ih]
    cases e.value scope with
    | error fault => rfl
    | ok v => cases Expr.values scope es <;> rfl

/-- The same outcome, blamed on the moved stretch. -/
def Outcome.relocate (f : Position → Position) (o : Outcome) : Outcome :=
  ⟨o.session, o.stop.map (Stop.relocate f)⟩

namespace Session

theorem runStatement_relocate (s : Session) (statement : Statement) :
    s.runStatement (statement.relocate f) = (s.runStatement statement).relocate f := by
  cases statement with
  | print values span =>
    simp only [runStatement, Statement.relocate, Expr.values_relocate]
    cases Expr.values s.scope values with
    | error fault => rfl
    | ok vs =>
      simp only [relocateFault, write, Outcome.relocate]
      cases (s.sink.write (printedLine vs).toUTF8).2 <;> rfl
  | assign name e span =>
    simp only [runStatement, Statement.relocate, assign, Expr.value_relocate]
    cases e.value s.scope <;> rfl

theorem runStatements_relocate (s : Session) (ss : List Statement) :
    s.runStatements (ss.map (Statement.relocate f)) = (s.runStatements ss).relocate f := by
  induction ss generalizing s with
  | nil => rfl
  | cons first more ih =>
    simp only [List.map_cons, runStatements, runStatement_relocate]
    rcases s.runStatement first with ⟨s', _ | stop⟩
    · exact ih s'
    · rfl

end Session

end Peng
