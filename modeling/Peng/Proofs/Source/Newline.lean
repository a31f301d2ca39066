import Peng.Proofs.Syntax.Acceptance
import Peng.Run.Session

/-!
# Newlines

A newline cuts a source into two that know nothing of each other. No lexeme reaches over it,
no statement does, and running goes from one statement to the next anyway:

* scanning (`scanFrom_append_newline`),
* parsing (`Grammar.statements_append_newline`),
* running (`Session.runStatements_append`).
-/

namespace Peng

/-! ## Scanning -/

/-- A character that neither ends a text nor begins a pair is no backslash. -/
theorem Quoted.ne_backslash {c : Char} {tail : List Char} (hend : c = '\\' → tail = [] → False)
    (hmore : ∀ d rest, c = '\\' → tail = d :: rest → False) : c ≠ '\\' := by
  intro hc
  cases tail with
  | nil => exact hend hc rfl
  | cons d rest => exact hmore d rest hc rfl

theorem Quoted.split?_append_newline (cs rest : List Char) :
    split? (cs ++ '\n' :: rest) =
      (split? cs).map fun parts => (parts.1, parts.2 ++ '\n' :: rest) := by
  fun_induction split? cs with
  | case1 => rfl
  | case2 rest' => rfl
  | case3 tail => rfl
  | case4 => rfl
  | case5 tail => rfl
  | case6 c tail hc inside after hsplit ih =>
    rw [hsplit] at ih
    simp_all [split?]
  | case7 c tail hc hsplit ih => simp_all [split?]
  | case8 c tail hquote hnewline hend _ hmore inside after hsplit ih =>
    have hc := ne_backslash hend hmore
    rw [hsplit] at ih
    simp_all [split?]
  | case9 c tail hquote hnewline hend _ hmore hsplit ih =>
    have hc := ne_backslash hend hmore
    simp_all [split?]

theorem takeWhile_append_newline {p : Char → Bool} (hp : p '\n' = false) (cs rest : List Char) :
    (cs ++ '\n' :: rest).takeWhile p = cs.takeWhile p := by
  induction cs with
  | nil => simp [hp]
  | cons c cs ih => simp [List.takeWhile_cons, ih]

theorem dropWhile_append_newline {p : Char → Bool} (hp : p '\n' = false) (cs rest : List Char) :
    (cs ++ '\n' :: rest).dropWhile p = cs.dropWhile p ++ '\n' :: rest := by
  induction cs with
  | nil => simp [hp]
  | cons c cs ih =>
    simp only [List.cons_append, List.dropWhile_cons, ih]
    split <;> rfl

theorem Token.Kind.ne_endOfInput_of_ofCharacter? {c : Char} {kind : Token.Kind}
    (h : ofCharacter? c = some kind) : kind ≠ .endOfInput := by
  unfold ofCharacter? at h
  split at h <;> cases h <;> simp

theorem Token.Kind.ofWord_ne_endOfInput (word : List Char) : ofWord word ≠ .endOfInput := by
  unfold ofWord
  split
  · simp
  · split <;> simp

namespace Lexeme

/-- The same lexeme at the front of a longer text. -/
def extend {cs : List Char} (l : Lexeme cs) (more : List Char) : Lexeme (cs ++ more) where
  kind := l.kind
  literal := l.literal
  text := l.text
  rest := l.rest ++ more
  text_append_rest := by rw [← List.append_assoc, l.text_append_rest]
  text_ne_nil := l.text_ne_nil

theorem word_append_newline (letter : Char) (cs rest : List Char) :
    word letter (cs ++ '\n' :: rest) = (word letter cs).extend ('\n' :: rest) := by
  have hp : isWordCharacter '\n' = false := by decide
  simp only [word, extend, takeWhile_append_newline hp, dropWhile_append_newline hp]

theorem quoted_append_newline (quote : Char) (cs rest : List Char) :
    quoted quote (cs ++ '\n' :: rest) =
      (quoted quote cs).map fun l => l.extend ('\n' :: rest) := by
  have hsplit := Quoted.split?_append_newline cs rest
  unfold quoted
  split
  case h_1 inside after h =>
    rw [hsplit, Option.map_eq_some_iff] at h
    obtain ⟨⟨inside', after'⟩, hcs, heq⟩ := h
    cases heq
    split
    case h_1 inside'' after'' h'' =>
      cases hcs.symm.trans h''
      rfl
    case h_2 h'' => cases hcs.symm.trans h''
  case h_2 h =>
    rw [hsplit, Option.map_eq_none_iff] at h
    split
    case h_1 inside' after' h' => cases h.symm.trans h'
    case h_2 h' =>
      rw [takeWhile_append_newline (by decide)]
      rfl

variable {digit : Char} {cs behind rest : List Char}

/-- A number without a decimal point. -/
theorem number_eq_whole (h : ∀ behind, cs.dropWhile Char.isDigit ≠ '.' :: behind) :
    number digit cs = .ok {
      kind := .integer
      literal := some (integerLiteral (digit :: cs.takeWhile Char.isDigit))
      text := digit :: cs.takeWhile Char.isDigit
      rest := cs.dropWhile Char.isDigit
      text_append_rest := by simp
      text_ne_nil := by simp } := by
  unfold number
  dsimp only
  split
  case h_1 behind hpoint => exact absurd hpoint (h behind)
  case h_2 => rfl

/-- A number with one decimal point. -/
theorem number_eq_fraction (h : cs.dropWhile Char.isDigit = '.' :: behind)
    (h' : ∀ more, behind.dropWhile Char.isDigit ≠ '.' :: more) :
    number digit cs = .ok {
      kind := .float
      literal := some (.float (readNumeral (digit :: cs.takeWhile Char.isDigit)
        (behind.takeWhile Char.isDigit)))
      text := digit :: cs.takeWhile Char.isDigit ++ '.' :: behind.takeWhile Char.isDigit
      rest := behind.dropWhile Char.isDigit
      text_append_rest := by simp [← h]
      text_ne_nil := by simp } := by
  unfold number
  dsimp only
  split
  case h_1 behind' hpoint =>
    cases h.symm.trans hpoint
    split
    case h_1 more hpoint' => exact absurd hpoint' (h' more)
    case h_2 => rfl
  case h_2 hpoint => exact absurd h (hpoint behind)

/-- A decimal point behind a number that has one already. -/
theorem number_eq_secondPoint (h : cs.dropWhile Char.isDigit = '.' :: behind)
    (h' : behind.dropWhile Char.isDigit = '.' :: rest) :
    number digit cs = .error ⟨.secondPoint,
      digit :: cs.takeWhile Char.isDigit ++ '.' :: behind.takeWhile Char.isDigit, ['.']⟩ := by
  unfold number
  dsimp only
  split
  case h_1 behind' hpoint =>
    cases h.symm.trans hpoint
    split
    case h_1 => rfl
    case h_2 hpoint' => exact absurd h' (hpoint' rest)
  case h_2 hpoint => exact absurd h (hpoint behind)

/-- No newline is taken for a decimal point. -/
theorem append_newline_ne_point (h : ∀ behind, cs ≠ '.' :: behind) (rest : List Char) :
    ∀ behind, cs ++ '\n' :: rest ≠ '.' :: behind := by
  intro behind hpoint
  cases cs with
  | nil => simp at hpoint
  | cons c cs =>
    cases hpoint
    exact h cs rfl

theorem number_append_newline (digit : Char) (cs rest : List Char) :
    number digit (cs ++ '\n' :: rest) =
      (number digit cs).map fun l => l.extend ('\n' :: rest) := by
  have hp : Char.isDigit '\n' = false := by decide
  have htake (cs : List Char) := takeWhile_append_newline hp cs rest
  have hdrop (cs : List Char) := dropWhile_append_newline hp cs rest
  -- the newline ends a run of digits, and is no decimal point behind one
  by_cases h : ∃ behind, cs.dropWhile Char.isDigit = '.' :: behind
  · obtain ⟨behind, h⟩ := h
    have hbehind : (cs ++ '\n' :: rest).dropWhile Char.isDigit =
        '.' :: (behind ++ '\n' :: rest) := by
      rw [hdrop, h, List.cons_append]
    by_cases h' : ∃ more, behind.dropWhile Char.isDigit = '.' :: more
    · obtain ⟨more, h'⟩ := h'
      have hmore : (behind ++ '\n' :: rest).dropWhile Char.isDigit =
          '.' :: (more ++ '\n' :: rest) := by
        rw [hdrop, h', List.cons_append]
      rw [number_eq_secondPoint h h', number_eq_secondPoint hbehind hmore, htake, htake]
      rfl
    · have h' := not_exists.mp h'
      have hmore := append_newline_ne_point h' rest
      rw [← hdrop behind] at hmore
      rw [number_eq_fraction h h', number_eq_fraction hbehind hmore]
      simp only [htake, hdrop]
      rfl
  · have h := not_exists.mp h
    have hwhole := append_newline_ne_point h rest
    rw [← hdrop cs] at hwhole
    rw [number_eq_whole h, number_eq_whole hwhole]
    simp only [htake, hdrop]
    rfl

theorem read_append_newline (c : Char) (cs rest : List Char) :
    read c (cs ++ '\n' :: rest) = (read c cs).map fun l => l.extend ('\n' :: rest) := by
  unfold read
  split
  case h_1 kind h => rfl
  case h_2 h =>
    rw [quoted_append_newline, number_append_newline, word_append_newline]
    split
    · rfl
    · split
      · rfl
      · split <;> rfl

theorem kind_of_number {l : Lexeme (digit :: cs)} (h : number digit cs = .ok l) :
    l.kind = .integer ∨ l.kind = .float := by
  unfold number at h
  dsimp only at h
  split at h
  case h_1 =>
    split at h <;> cases h
    exact .inr rfl
  case h_2 =>
    cases h
    exact .inl rfl

/-- No lexeme passes for the end of the input. -/
theorem kind_ne_of_read {c : Char} {cs : List Char} {l : Lexeme (c :: cs)}
    (h : read c cs = .ok l) : l.kind ≠ .endOfInput := by
  unfold read at h
  split at h
  case h_1 kind hkind =>
    cases h
    exact Token.Kind.ne_endOfInput_of_ofCharacter? hkind
  case h_2 =>
    split at h
    · unfold quoted at h
      split at h <;> cases h
      simp
    · split at h
      · obtain hkind | hkind := kind_of_number h <;> simp [hkind]
      · split at h <;> cases h
        exact Token.Kind.ofWord_ne_endOfInput _

end Lexeme

/-- The token of a newline. -/
def Token.newlineAt (p : Position) : Token :=
  ⟨.newline, "\n", none, .single p '\n'⟩

/-- Scanned tokens end where the text does, and not before. -/
theorem scanFrom_ok {p : Position} {cs : List Char} {ts : List Token}
    (h : scanFrom p cs = .ok ts) :
    ∃ ahead, ts = ahead ++ [.atEnd (p.advanceOver cs)] ∧ ∀ t ∈ ahead, t.kind ≠ .endOfInput := by
  fun_induction scanFrom p cs generalizing ts with
  | case1 p => exact ⟨[], by cases h; rfl, by simp⟩
  | case2 p c cs hblank ih => exact ih h
  | case3 p c cs hblank halt hread => cases h
  | case4 p c cs hblank lexeme hread us hscan ih =>
    obtain ⟨ahead, rfl, hahead⟩ := ih hscan
    cases h
    refine ⟨lexeme.token p :: ahead, ?_, ?_⟩
    · rw [← Position.advanceOver_append, lexeme.text_append_rest, List.cons_append]
    · exact List.forall_mem_cons.mpr ⟨Lexeme.kind_ne_of_read hread, hahead⟩
  | case5 p c cs hblank lexeme hread fault hscan ih => cases h

/-- Scanning goes on behind a newline as if the text began there. -/
theorem scanFrom_append_newline (p : Position) (cs rest : List Char) :
    scanFrom p (cs ++ '\n' :: rest) =
      match scanFrom p cs, scanFrom ((p.advanceOver cs).advance '\n') rest with
      | .error fault, _ => .error fault
      | .ok _, .error fault => .error fault
      | .ok ts, .ok us => .ok (ts.dropLast ++ .newlineAt (p.advanceOver cs) :: us) := by
  fun_induction scanFrom p cs with
  | case1 p =>
    -- a newline is no blank but a lexeme by itself
    have hread : Lexeme.read '\n' rest = .ok ⟨.newline, none, ['\n'], rest, rfl, by simp⟩ := rfl
    rw [List.nil_append, scanFrom, if_neg (by decide), hread]
    simp only [Position.advanceOver_cons, Position.advanceOver_nil]
    cases scanFrom (p.advance '\n') rest <;> rfl
  | case2 p c cs hblank ih =>
    rw [List.cons_append, scanFrom, if_pos hblank, ih]
    rfl
  | case3 p c cs hblank halt hread =>
    rw [List.cons_append, scanFrom, if_neg hblank, Lexeme.read_append_newline, hread]
    rfl
  | case4 p c cs hblank lexeme hread ts hscan ih =>
    rw [List.cons_append, scanFrom, if_neg hblank, Lexeme.read_append_newline, hread]
    rw [hscan, ← Position.advanceOver_append, lexeme.text_append_rest] at ih
    simp only [Except.map, Lexeme.extend, ih]
    obtain ⟨ahead, rfl, -⟩ := scanFrom_ok hscan
    cases scanFrom ((p.advanceOver (c :: cs)).advance '\n') rest with
    | error fault => rfl
    | ok us =>
      simp only [← List.cons_append, List.dropLast_concat]
      rfl
  | case5 p c cs hblank lexeme hread fault hscan ih =>
    rw [List.cons_append, scanFrom, if_neg hblank, Lexeme.read_append_newline, hread]
    rw [hscan] at ih
    simp only [Except.map, Lexeme.extend, ih]

/-! ## Parsing -/

namespace Grammar

variable {newline : Token} {ts us : List Token}

/-- A newline fits wherever a program may end, and nowhere else. -/
theorem Place.step_newline (p : Place) (h : newline.kind = .newline) :
    p.MayEnd ∧ p.step newline = some .outside ∨ ¬ p.MayEnd ∧ p.step newline = none := by
  cases p with
  | outside => exact .inl ⟨trivial, by simp [step, h]⟩
  | named => exact .inr ⟨id, by simp [step, h]⟩
  | operand signable before f =>
    exact .inr ⟨id, by simp [step, h, Token.Kind.sign?, Token.leaf?]⟩
  | value f =>
    obtain ⟨host, depth | depth⟩ := f
    · exact .inl ⟨rfl, step_value_newline host h⟩
    · exact .inr ⟨Nat.succ_ne_zero depth, by simp [step, h, Rule.continuations]⟩

theorem Place.Halts.append_newline {p : Place} {missing : Wanted} {rest : List Token}
    (h : p.Halts ts missing rest) (hnewline : newline.kind = .newline) (us : List Token) :
    p.Halts (ts ++ newline :: us) missing (rest ++ newline :: us) := by
  obtain ⟨pre, q, rfl, hpre, hrefuses, hmissing⟩ := h
  refine ⟨pre, q, (List.append_assoc ..).symm, hpre, ?_, hmissing⟩
  cases rest with
  | nil =>
    obtain ⟨hend, -⟩ | ⟨-, hstep⟩ := q.step_newline hnewline
    · exact absurd hend hrefuses
    · exact hstep
  | cons t rest => exact hrefuses

/-- A program, a newline and a program make a program. -/
theorem ProgramDerivation.exists_append_newline (d d' : ProgramDerivation)
    (h : newline.kind = .newline) :
    ∃ both : ProgramDerivation, both.tokens = d.tokens ++ newline :: d'.tokens ∧
      both.statements = d.statements ++ d'.statements := by
  induction d with
  | done => exact ⟨.newline newline h d', rfl, rfl⟩
  | newline t ht more ih =>
    obtain ⟨both, htokens, hstatements⟩ := ih
    exact ⟨.newline t ht both, by rw [tokens, htokens]; rfl, hstatements⟩
  | statement first t ht more ih =>
    obtain ⟨both, htokens, hstatements⟩ := ih
    refine ⟨.statement first t ht both, ?_, ?_⟩
    · rw [tokens, htokens, tokens, List.append_assoc, List.cons_append]
    · rw [statements, hstatements, statements, List.cons_append]
  | last only => exact ⟨.statement only newline h d', rfl, rfl⟩

/-- Parsing goes on behind a newline as if the tokens began there. -/
theorem statements_append_newline (h : newline.kind = .newline) (ts us : List Token) :
    statements (ts ++ newline :: us) =
      match statements ts, statements us with
      | .error (missing, rest), _ => .error (missing, rest ++ newline :: us)
      | .ok _, .error failure => .error failure
      | .ok ss, .ok more => .ok (ss ++ more) := by
  cases hts : statements ts with
  | error failure =>
    exact statements_error_iff.mpr ((statements_error_iff.mp hts).append_newline h us)
  | ok ss =>
    obtain ⟨d, rfl, rfl⟩ := statements_ok_iff.mp hts
    cases hus : statements us with
    | error failure =>
      obtain ⟨q, hreach, hend⟩ := d.accepts_tokens
      obtain ⟨-, hstep⟩ | ⟨hnot, -⟩ := q.step_newline h
      · refine statements_error_iff.mpr (.append hreach ?_)
        exact (statements_error_iff.mp hus).cons hstep
      · exact absurd hend hnot
    | ok more =>
      obtain ⟨d', rfl, rfl⟩ := statements_ok_iff.mp hus
      exact statements_ok_iff.mpr (d.exists_append_newline d' h)

end Grammar

theorem Token.found_ne_endOfInput {t : Token} (h : t.kind ≠ .endOfInput) :
    t.found ≠ .endOfInput := by
  rw [found]
  split <;> simp_all

/-- A syntax error as it is told when the input goes on with a newline where it ended. -/
def Located.before (newline : Token) (fault : Located SyntaxFault) : Located SyntaxFault :=
  if fault.cause.found = .endOfInput then ⟨⟨fault.cause.wanted, .newline⟩, newline.span⟩
  else fault

namespace Reader

/-- The tokens of both readers with a newline between. -/
def appendNewline (newline : Token) (r r' : Reader) : Reader :=
  ⟨r.ahead ++ newline :: r'.ahead, r'.atEnd⟩

theorem exists_programOf_eq (r : Reader) (ss : List Statement) :
    ∃ span, r.programOf ss = ⟨ss, span⟩ := by
  cases ss <;> exact ⟨_, rfl⟩

/-- A newline parts two programs, and an error in either is an error in both together. -/
theorem readProgram_appendNewline {newline : Token} (h : newline.kind = .newline)
    {r : Reader} (hahead : ∀ t ∈ r.ahead, t.kind ≠ .endOfInput)
    (hend : r.atEnd.kind = .endOfInput) (r' : Reader) :
    match r.readProgram.1, r'.readProgram.1 with
    | .error fault, _ => (r.appendNewline newline r').readProgram.1 = .error (fault.before newline)
    | .ok _, .error fault => (r.appendNewline newline r').readProgram.1 = .error fault
    | .ok first, .ok more => ∃ span, (r.appendNewline newline r').readProgram.1 =
      .ok ⟨first.statements ++ more.statements, span⟩ := by
  simp only [readProgram, appendNewline, Grammar.statements_append_newline h]
  cases hfirst : Grammar.statements r.ahead with
  | error failure =>
    obtain ⟨missing, rest⟩ := failure
    cases rest with
    | nil =>
      have hatEnd : r.atEnd.found = .endOfInput := by rw [Token.found, hend]
      have hnewline : newline.found = .newline := by rw [Token.found, h]
      simp [Located.before, next, hatEnd, hnewline]
    | cons t rest =>
      have hmem : t ∈ r.ahead := by
        obtain ⟨pre, q, hpre, -⟩ := Grammar.statements_error_iff.mp hfirst
        simp [← hpre]
      simp [Located.before, next, Token.found_ne_endOfInput (hahead t hmem)]
  | ok ss =>
    cases Grammar.statements r'.ahead with
    | error failure => rfl
    | ok more =>
      obtain ⟨span, hspan⟩ := (r.appendNewline newline r').exists_programOf_eq (ss ++ more)
      refine ⟨span, ?_⟩
      rw [statements_programOf, statements_programOf, ← hspan]
      rfl

end Reader

/-! ## Running -/

theorem Session.runStatements_append (s : Session) (first more : List Statement) :
    s.runStatements (first ++ more) =
      match s.runStatements first with
      | ⟨s, none⟩ => s.runStatements more
      | stopped => stopped := by
  induction first generalizing s with
  | nil => rfl
  | cons statement first ih =>
    rw [List.cons_append, runStatements, runStatements]
    obtain ⟨s', stop⟩ := s.runStatement statement
    cases stop with
    | none => exact ih s'
    | some stop => rfl

end Peng
