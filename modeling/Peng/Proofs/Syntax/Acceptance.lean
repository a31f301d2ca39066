import Peng.Fault
import Peng.Diagnostic.Basic
import Peng.Proofs.Syntax.Reading
import Peng.Syntax.Reader

/-!
# What is a program

The parser accepts the tokens that the grammar derives and gives back what they stand for
(`parse_succeeds_iff_derivation`). Where it fails, it fails at the first token that no program
has there (`parse_error_at_first_misfit`): what stands before can still be completed, and
nothing that goes on with that token is a program.
-/

namespace Peng

namespace Grammar

/-! ## Accepted tokens -/

theorem statements_ok_iff {ts : List Token} {ss : List Statement} :
    statements ts = .ok ss ↔ ∃ d : ProgramDerivation, d.tokens = ts ∧ d.statements = ss := by
  have hsays := says_statements ts
  constructor
  · intro h
    rwa [h] at hsays
  · rintro ⟨d, rfl, rfl⟩
    cases hstatements : statements d.tokens with
    | ok ss =>
      rw [hstatements] at hsays
      obtain ⟨d', htokens, rfl⟩ := hsays
      rw [d'.eq_of_tokens_eq d htokens]
    | error failure =>
      rw [hstatements] at hsays
      exact absurd d.accepts_tokens hsays.not_accepts

theorem statements_error_iff {ts rest : List Token} {missing : Wanted} :
    statements ts = .error (missing, rest) ↔ Place.outside.Halts ts missing rest := by
  have hsays := says_statements ts
  constructor
  · intro h
    rwa [h] at hsays
  · intro h
    cases hstatements : statements ts with
    | ok ss =>
      rw [hstatements] at hsays
      obtain ⟨d, rfl, -⟩ := hsays
      exact absurd d.accepts_tokens h.not_accepts
    | error failure =>
      rw [hstatements] at hsays
      obtain ⟨rfl, rfl⟩ := h.unique hsays
      rfl

/-- The places lead through exactly the tokens that are derived. -/
theorem accepts_iff {ts : List Token} :
    Place.outside.Accepts ts ↔ ∃ d : ProgramDerivation, d.tokens = ts := by
  constructor
  · intro h
    have hsays := says_statements ts
    cases hstatements : statements ts with
    | ok ss =>
      rw [hstatements] at hsays
      obtain ⟨d, htokens, -⟩ := hsays
      exact ⟨d, htokens⟩
    | error failure =>
      rw [hstatements] at hsays
      exact absurd h hsays.not_accepts
  · rintro ⟨d, rfl⟩
    exact d.accepts_tokens

end Grammar

open Grammar

/-! ## Programs -/

theorem parse_eq_ok_iff {ts : List Token} {program : Program} :
    parse ts = .ok program ↔ ∃ ss, statements (Reader.ofTokens ts).ahead = .ok ss ∧
      (Reader.ofTokens ts).programOf ss = program := by
  rw [parse, Reader.readProgram]
  cases statements (Reader.ofTokens ts).ahead <;> simp

theorem parse_eq_error_iff {ts : List Token} {fault : Located SyntaxFault} :
    parse ts = .error fault ↔ ∃ missing rest,
      statements (Reader.ofTokens ts).ahead = .error (missing, rest) ∧
      ⟨⟨missing, (rest.headD (Reader.ofTokens ts).atEnd).found⟩,
        (rest.headD (Reader.ofTokens ts).atEnd).span⟩ = fault := by
  rw [parse, Reader.readProgram]
  cases statements (Reader.ofTokens ts).ahead <;> simp [Reader.next, Prod.ext_iff, and_assoc]

theorem Reader.statements_programOf (r : Reader) (ss : List Statement) :
    (r.programOf ss).statements = ss := by
  cases ss <;> rfl

theorem exists_parse_eq_ok_iff {ts : List Token} :
    (∃ program, parse ts = .ok program) ↔
      Place.outside.Accepts (Reader.ofTokens ts).ahead := by
  simp only [parse_eq_ok_iff, accepts_iff, statements_ok_iff]
  constructor
  · rintro ⟨_, _, ⟨d, htokens, -⟩, -⟩
    exact ⟨d, htokens⟩
  · rintro ⟨d, htokens⟩
    exact ⟨_, _, ⟨d, htokens, rfl⟩, rfl⟩

/-- Tokens are a program iff those before the first end of the input are derivable. The
statements are what the derivation stands for, and no tokens have two derivations. -/
theorem parse_succeeds_iff_derivation (ts : List Token) :
    ((∃ program, parse ts = .ok program) ↔
      ∃ d : ProgramDerivation, d.tokens = ts.takeWhile (·.kind ≠ .endOfInput)) ∧
    (∀ ss, (∃ span, parse ts = .ok ⟨ss, span⟩) ↔
      ∃ d : ProgramDerivation, d.tokens = ts.takeWhile (·.kind ≠ .endOfInput) ∧
        d.statements = ss) ∧
    Function.Injective ProgramDerivation.tokens := by
  refine ⟨exists_parse_eq_ok_iff.trans accepts_iff, fun ss => ?_,
    fun d d' => d.eq_of_tokens_eq d'⟩
  rw [← statements_ok_iff]
  constructor
  · rintro ⟨span, h⟩
    obtain ⟨ss', hstatements, hprogram⟩ := parse_eq_ok_iff.mp h
    have hss := congrArg Program.statements hprogram
    rw [Reader.statements_programOf] at hss
    obtain rfl : ss' = ss := hss
    exact hstatements
  · intro hstatements
    refine ⟨((Reader.ofTokens ts).programOf ss).span,
      parse_eq_ok_iff.mpr ⟨ss, hstatements, ?_⟩⟩
    cases ss <;> rfl

/-! ## The first misfit -/

/-- How a syntax error names a token. -/
def Token.named (t : Token) : String :=
  if t.kind = .endOfInput then "end of input"
  else if t.kind = .newline then "newline"
  else "'" ++ t.lexeme ++ "'"

theorem Token.describe_found (t : Token) : t.found.describe = t.named := by
  rw [found, named]
  split
  case h_1 hend =>
    rw [if_pos hend]
    rfl
  case h_2 hnewline =>
    rw [if_neg (by simp [hnewline]), if_pos hnewline]
    rfl
  case h_3 hend hnewline =>
    rw [if_neg hend, if_neg hnewline]
    rfl

/-- Reading `ts` as a program stops behind `read` and in front of `misfit`, as the diagnostic
says, and no reading could have gone further. -/
structure StopsAt (ts : List Token) (d : Diagnostic) (read : List Token) (misfit : Token) :
    Prop where
  /-- `read` was taken, no more and no less. -/
  read_append_ahead : read ++ (Reader.ofTokens ts).readProgram.2.ahead = (Reader.ofTokens ts).ahead
  /-- `misfit` stands behind it, up to and with the end of the input. -/
  stands : ∃ behind, read ++ misfit :: behind =
    (Reader.ofTokens ts).ahead ++ [(Reader.ofTokens ts).atEnd]
  /-- What was read can be completed. -/
  viable : ∃ more program, parse (read ++ more) = .ok program
  /-- With `misfit` it cannot. -/
  not_viable : ∀ more program, parse (read ++ misfit :: more) ≠ .ok program
  /-- At the end of the input, what was read is not complete by itself. -/
  not_complete : misfit.kind = .endOfInput → ∀ program, parse read ≠ .ok program
  kind_eq : d.kind = .invalidSyntax
  span_eq : d.span = misfit.span
  message_eq : ∃ expected, d.message = expected ++ "found " ++ misfit.named

theorem Reader.kind_endOf (ts : List Token) : (Reader.endOf ts).kind = .endOfInput := by
  rw [endOf]
  split
  case h_1 t ht => simpa using List.find?_some ht
  case h_2 => split <;> rfl

theorem Reader.ahead_ofTokens_append {ts : List Token} (h : ∀ t ∈ ts, t.kind ≠ .endOfInput)
    (us : List Token) : (ofTokens (ts ++ us)).ahead = ts ++ (ofTokens us).ahead :=
  List.takeWhile_append_of_pos (by simpa using h)

theorem Reader.ahead_ofTokens_of_reach {p q : Place} {ts : List Token} (h : p.reach ts = some q) :
    (ofTokens ts).ahead = ts := by
  have hahead := ahead_ofTokens_append (Place.kind_ne_of_reach h) []
  rw [List.append_nil] at hahead
  exact hahead.trans (List.append_nil _)

theorem Reader.kind_ne_of_mem_ahead {ts : List Token} {t : Token}
    (h : t ∈ (ofTokens ts).ahead) : t.kind ≠ .endOfInput := by
  simpa using List.all_eq_true.mp List.all_takeWhile t h

/-- Whatever goes on with a token that the place refuses is no program. -/
theorem parse_append_cons_ne_ok {read more : List Token} {misfit : Token} {p : Place}
    (hread : Place.outside.reach read = some p) (hmisfit : p.step misfit = none)
    (hend : misfit.kind = .endOfInput → ¬ p.MayEnd) (program : Program) :
    parse (read ++ misfit :: more) ≠ .ok program := by
  intro h
  obtain ⟨q, hreach, hq⟩ := exists_parse_eq_ok_iff.mp ⟨program, h⟩
  rw [Reader.ahead_ofTokens_append (Place.kind_ne_of_reach hread)] at hreach
  by_cases hkind : misfit.kind = .endOfInput
  · rw [Reader.ofTokens, List.takeWhile_cons_of_neg (by simpa using hkind), List.append_nil,
      hread] at hreach
    cases hreach
    exact hend hkind hq
  · rw [Reader.ofTokens, List.takeWhile_cons_of_pos (by simpa using hkind),
      Place.reach_append_of_refuses hread hmisfit] at hreach
    cases hreach

/-- Whatever was read up to a place can be completed. -/
theorem exists_parse_append_eq_ok {read : List Token} {p : Place}
    (hread : Place.outside.reach read = some p) :
    ∃ more program, parse (read ++ more) = .ok program := by
  obtain ⟨more, q, hmore, hq⟩ := p.exists_accepts
  refine ⟨more, exists_parse_eq_ok_iff.mpr ⟨q, ?_, hq⟩⟩
  have hall := (Place.reach_append_of_reach hread more).trans hmore
  rw [Reader.ahead_ofTokens_of_reach hall, hall]

/-- A syntax error is found at the first token that no program has there. -/
theorem parse_error_at_first_misfit {ts : List Token} {fault : Located SyntaxFault}
    (h : parse ts = .error fault) :
    ∃ read misfit, StopsAt ts (.ofFault (fault.map .parsing)) read misfit := by
  obtain ⟨missing, rest, hstatements, rfl⟩ := parse_eq_error_iff.mp h
  obtain ⟨read, p, hahead, hread, hrefuses, -⟩ := statements_error_iff.mp hstatements
  have hleft : (Reader.ofTokens ts).readProgram.2.ahead = rest := by
    rw [Reader.readProgram, hstatements]
  have hmessage (t : Token) : ∃ expected,
      (SyntaxFault.mk missing t.found).message = expected ++ "found " ++ t.named := by
    refine ⟨missing.message ++ ", ", ?_⟩
    rw [← Token.describe_found, @String.append_assoc missing.message]
    rfl
  cases rest with
  | nil =>
    -- all tokens were taken, and the misfit is the end of the input
    rw [List.append_nil] at hahead
    have hend := Reader.kind_endOf ts
    exact ⟨read, Reader.endOf ts, {
      read_append_ahead := by rw [hleft, hahead, List.append_nil]
      stands := ⟨[], by rw [hahead]; rfl⟩
      viable := exists_parse_append_eq_ok hread
      not_viable := fun _ =>
        parse_append_cons_ne_ok hread (p.step_endOfInput hend) fun _ => hrefuses
      not_complete := by
        intro _ program hprogram
        obtain ⟨q, hreach, hq⟩ := exists_parse_eq_ok_iff.mp ⟨program, hprogram⟩
        rw [Reader.ahead_ofTokens_of_reach hread, hread] at hreach
        cases hreach
        exact hrefuses hq
      kind_eq := rfl
      span_eq := rfl
      message_eq := hmessage _ }⟩
  | cons misfit rest =>
    have hmem : misfit ∈ (Reader.ofTokens ts).ahead := by
      rw [← hahead]
      simp
    have hkind := Reader.kind_ne_of_mem_ahead hmem
    exact ⟨read, misfit, {
      read_append_ahead := by rw [hleft, hahead]
      stands := ⟨rest ++ [(Reader.ofTokens ts).atEnd], by rw [← hahead]; simp⟩
      viable := exists_parse_append_eq_ok hread
      not_viable := fun _ =>
        parse_append_cons_ne_ok hread hrefuses fun hend => absurd hend hkind
      not_complete := fun hend => absurd hend hkind
      kind_eq := rfl
      span_eq := rfl
      message_eq := hmessage _ }⟩

/-- In `x is )` reading stops in front of the parenthesis. -/
theorem parse_error_at_rightParen :
    ∃ fault, parse [Place.someName, Place.someIs, Place.someRightParen] = .error fault ∧
      ∃ read misfit, StopsAt [Place.someName, Place.someIs, Place.someRightParen]
        (.ofFault (fault.map .parsing)) read misfit := by
  have hhalts : Place.outside.Halts [Place.someName, Place.someIs, Place.someRightParen]
      (.operandAfter "is") [Place.someRightParen] :=
    ⟨[Place.someName, Place.someIs], .operand true "is" ⟨.assignment, 0⟩, rfl, rfl, rfl, rfl⟩
  have hparse := (@parse_eq_error_iff [Place.someName, Place.someIs, Place.someRightParen] _).mpr
    ⟨_, _, statements_error_iff.mpr hhalts, rfl⟩
  exact ⟨_, hparse, parse_error_at_first_misfit hparse⟩

end Peng
