import Peng.Proofs.Run.Failure
import Peng.Proofs.Syntax.RoundTrip

/-!
# Saying one value

A source that prints the value of one expression: `say` and the words of the expression, with
nothing between them. The main statements are that it is parsed as that print (`exists_print`) and
what running it writes (`run_eq_write`).
-/

namespace Peng

/-! ## Tokens and their lexemes -/

/-- The token of a lexeme that stands at `p`. -/
structure Token.IsOf (t : Token) (p : Position) (text : List Char) : Prop where
  isLexeme : IsLexeme t.kind text
  denotes : Denotes t.kind text t.literal
  lexeme_eq : t.lexeme = .ofList text
  span_eq : t.span = .covering p text

/-- Every token is that of a lexeme, where it stands in the text, or the one at the end. -/
theorem Tokenised.exists_isOf {p : Position} {behind : Option Token.Kind} {cs : List Char}
    {r : Except (Located ScanFault) (List Token)} (h : Tokenised p behind cs r) {ts : List Token}
    (hr : r = .ok ts) {t : Token} (ht : t ∈ ts) :
    t = .atEnd (p.advanceOver cs) ∨
      ∃ before text after, cs = before ++ (text ++ after) ∧ t.IsOf (p.advanceOver before) text := by
  induction h generalizing ts with
  | done =>
    cases hr
    exact .inl (List.mem_singleton.mp ht)
  | @blank p behind c cs r hc more ih =>
    obtain hend | ⟨before, text, after, rfl, hof⟩ := ih hr ht
    · exact .inl hend
    · exact .inr ⟨c :: before, text, after, rfl, hof⟩
  | @lexeme p behind kind text rest literal r h hliteral more ih =>
    rcases r with fault | us
    · cases hr
    · cases hr
      rw [Position.advanceOver_append]
      obtain rfl | ht := List.mem_cons.mp ht
      · exact .inr ⟨[], text, rest, rfl, h.isLexeme, hliteral, rfl, rfl⟩
      · obtain hend | ⟨before, text', after, rfl, hof⟩ := ih rfl ht
        · exact .inl hend
        · refine .inr ⟨text ++ before, text', after, by rw [List.append_assoc], ?_⟩
          rwa [Position.advanceOver_append]
  | stuck => cases hr

/-! ## Words with nothing between them -/

/-- Words with nothing between them: all but the last are marks, which end wherever they are. -/
inductive Tight : List Word → List Char → Prop where
  | last (w : Word) : Tight [w] w.text
  | mark {w : Word} {words : List Word} {rest : List Char} (hmark : IsMark w.kind w.text)
      (more : Tight words rest) : Tight (w :: words) (w.text ++ rest)

theorem IsMark.isLongest {kind : Token.Kind} {text : List Char} (h : IsMark kind text)
    (rest : List Char) : IsLongest kind text rest := by
  apply (IsLexeme.mark h).isLongest_of_next
  intro c more _ kind'
  exact h.not_isLexeme_concat c

theorem Tight.exists_tokenised {words : List Word} {line : List Char} (h : Tight words line)
    (p : Position) (behind : Option Token.Kind) :
    ∃ ts, Tokenised p behind line (.ok (ts ++ [.atEnd (p.advanceOver line)])) ∧
      List.Forall₂ Word.Gives words ts := by
  induction h generalizing p behind with
  | last w =>
    obtain ⟨literal, hliteral⟩ := w.isLexeme.exists_denotes
    have hword : Tokenised p behind (w.text ++ []) _ :=
      .lexeme (w.isLexeme.isLongest_of_blank (by simp)) hliteral .done
    rw [List.append_nil] at hword
    exact ⟨[_], hword, .cons ⟨rfl, rfl, hliteral⟩ .nil⟩
  | @mark w words rest hmark more ih =>
    obtain ⟨literal, hliteral⟩ := w.isLexeme.exists_denotes
    obtain ⟨ts, hts, hgives⟩ := ih (p.advanceOver w.text) (some w.kind)
    have hword : Tokenised p behind (w.text ++ rest) _ :=
      .lexeme (hmark.isLongest rest) hliteral hts
    rw [← Position.advanceOver_append] at hword
    exact ⟨_ :: ts, hword, .cons ⟨rfl, rfl, hliteral⟩ hgives⟩

/-- A word by itself is scanned as one token. -/
theorem scan_word {w : Word} {source : String} {literal : Option Literal}
    (h : source.toList = w.text) (hliteral : Denotes w.kind w.text literal) (name : String) :
    scan name source = .ok [⟨w.kind, source, literal, .covering (.start name) w.text⟩,
      .atEnd (endOfText name source)] := by
  have hword : Tokenised (.start name) none (w.text ++ []) _ :=
    .lexeme (w.isLexeme.isLongest_of_blank (by simp)) hliteral .done
  rw [List.append_nil, ← h, String.ofList_toList] at hword
  rw [scan, ← h]
  exact scanFrom_eq_iff_tokenised.mpr hword

/-! ## The source -/

/-- `say` and what is to be said. -/
def saying (text : String) : String :=
  "say " ++ text

theorem toList_saying (text : String) :
    (saying text).toList = Word.say.text ++ ' ' :: text.toList :=
  String.toList_append

section Saying

variable {words : List Word} {text : String} {e : Expr} {n : Nat}

theorem exists_tokens_saying (h : Tight words text.toList) (name : String) :
    ∃ ts, scan name (saying text) = .ok (ts ++ [.atEnd (endOfText name (saying text))]) ∧
      List.Forall₂ Word.Gives (.say :: words) ts := by
  have hsay : ∀ c ∈ (' ' :: text.toList).head?, c = ' ' ∨ c = '\t' := by simp
  obtain ⟨ts, hts, hgives⟩ :=
    h.exists_tokenised (((Position.start name).advanceOver Word.say.text).advance ' ') none
  have hline : Tokenised (.start name) none (Word.say.text ++ ' ' :: text.toList) _ :=
    .lexeme (Word.say.isLexeme.isLongest_of_blank hsay) (IsWord.denotes .say)
      (.blank (.inl rfl) hts)
  have hgives_say : Word.say.Gives ⟨.say, .ofList Word.say.text, none,
      .covering (.start name) Word.say.text⟩ := ⟨rfl, rfl, IsWord.denotes .say⟩
  refine ⟨_ :: ts, ?_, .cons hgives_say hgives⟩
  rw [scan, toList_saying, scanFrom_eq_iff_tokenised, endOfText, toList_saying]
  rw [← Position.advanceOver_cons, ← Position.advanceOver_append] at hline
  exact hline

/-- Tokens that a program is derived from are parsed as it. -/
theorem exists_program_of_scan {name source : String} {d : Grammar.ProgramDerivation}
    (h : scan name source = .ok (d.tokens ++ [.atEnd (endOfText name source)])) :
    ∃ program, parse (d.tokens ++ [.atEnd (endOfText name source)]) = .ok program ∧
      program.statements = d.statements := by
  obtain ⟨ahead, htokens, hahead⟩ := scan_ok h
  obtain rfl := List.append_inj_left' htokens rfl
  have hreader : Reader.ofTokens (d.tokens ++ [.atEnd (endOfText name source)]) =
      ⟨d.tokens, .atEnd (endOfText name source)⟩ := Reader.ofTokens_concat hahead rfl
  refine ⟨_, parse_eq_ok_iff.mpr ⟨d.statements, ?_, rfl⟩, Reader.statements_programOf _ _⟩
  rw [hreader]
  exact Grammar.statements_ok_iff.mpr ⟨d, rfl, rfl⟩

/-- The source is parsed as a print of the expression. -/
theorem exists_print (h : e.Renders n words) (hline : Tight words text.toList) (name : String) :
    ∃ ts program e' span, scan name (saying text) = .ok ts ∧ parse ts = .ok program ∧
      program.statements = [.print [e'] span] ∧ e'.unplaced = e.unplaced := by
  obtain ⟨ts, hscan, hgives⟩ := exists_tokens_saying hline name
  obtain ⟨say, us, hsay, hus, rfl⟩ := List.forall₂_cons_left_iff.mp hgives
  obtain ⟨d, rfl, hd⟩ := (h.readsAt hus).of_le (Nat.zero_le n)
  have htokens : (Grammar.ProgramDerivation.last (.print say hsay.kind_eq d [])).tokens =
      say :: d.tokens := congrArg (say :: ·) (List.append_nil _)
  rw [← htokens] at hscan
  obtain ⟨program, hparse, hstatements⟩ := exists_program_of_scan hscan
  exact ⟨_, program, d.meaning, _, hscan, hparse, hstatements, hd⟩

end Saying

/-- What a print of one value writes. -/
theorem run_eq_write {name source : String} {ts : List Token} {program : Program} {e : Expr}
    {span : Span} {v : Value} {sink : Sink} (hscan : scan name source = .ok ts)
    (hparse : parse ts = .ok program) (hstatements : program.statements = [.print [e] span])
    (hv : e.value (Session.fresh sink).scope = .ok v) :
    run name source sink = (Session.fresh sink).write (v.text ++ "\n") := by
  rw [run, Session.runSource_of_parse_ok hscan hparse, hstatements,
    Session.runStatements_singleton, Session.runStatement, Expr.values, hv, Expr.values]
  rfl

end Peng
