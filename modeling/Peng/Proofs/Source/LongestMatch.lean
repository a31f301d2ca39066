import Peng.Fault
import Peng.Proofs.Source.FirstLexeme
import Peng.Proofs.Source.Tiling

/-!
# Longest match

Scanning takes the longest lexeme again and again, and fails where there is none. The main
statement is `scan_takes_longest_lexemes`: scanning a source gives what `Tokenised` says, which
knows lexemes by `IsLexeme` only.

## Shape of the proof

`tokenised_scanFrom` is the induction over the source, and `Tokenised.unique` gives the other
direction. How a failure comes about (`Tokenised.exists_stuck`), and that what follows has no part
in it (`Tokenised.append_of_error`), are inductions over `Tokenised`, not over the scanner.
-/

namespace Peng

/-! ## The reference -/

/-- Where a text has no lexeme and no blank in front, this is what is wrong with its first
character `c`, which stands at `p`, directly behind a lexeme of the kind `behind` if there is
one. -/
def stuckFault (p : Position) (behind : Option Token.Kind) (c : Char) (cs : List Char) :
    Located ScanFault :=
  if c = '"' then ⟨.unclosedText, .covering p (c :: cs.takeWhile (· ≠ '\n'))⟩
  else if c = '.' ∧ behind = some .float then ⟨.secondPoint, .single p c⟩
  else ⟨.unknownCharacter c, .single p c⟩

/-- No lexeme is at the front of a text. -/
def HasNoLexeme (cs : List Char) : Prop :=
  ∀ kind text rest, IsLexeme kind text → text ++ rest ≠ cs

/-- The tokens of a text, which stands at `p`, directly behind a lexeme of the kind `behind` if
there is one: blanks are skipped, and the longest lexeme is taken. -/
inductive Tokenised : Position → Option Token.Kind → List Char →
    Except (Located ScanFault) (List Token) → Prop where
  | done {p : Position} {behind : Option Token.Kind} : Tokenised p behind [] (.ok [.atEnd p])
  | blank {p : Position} {behind : Option Token.Kind} {c : Char} {cs : List Char}
      {r : Except (Located ScanFault) (List Token)} (hc : c = ' ' ∨ c = '\t')
      (more : Tokenised (p.advance c) none cs r) : Tokenised p behind (c :: cs) r
  | lexeme {p : Position} {behind : Option Token.Kind} {kind : Token.Kind}
      {text rest : List Char} {literal : Option Literal}
      {r : Except (Located ScanFault) (List Token)} (h : IsLongest kind text rest)
      (hliteral : Denotes kind text literal)
      (more : Tokenised (p.advanceOver text) (some kind) rest r) :
      Tokenised p behind (text ++ rest)
        (r.map fun ts => ⟨kind, .ofList text, literal, .covering p text⟩ :: ts)
  | stuck {p : Position} {behind : Option Token.Kind} {c : Char} {cs : List Char}
      (hc : ¬ (c = ' ' ∨ c = '\t')) (h : HasNoLexeme (c :: cs)) :
      Tokenised p behind (c :: cs) (.error (stuckFault p behind c cs))

/-- What no class of lexemes opens with is not the first character of a lexeme. -/
theorem hasNoLexeme_of_other {c : Char} (h : opening c = .other) (cs : List Char) :
    HasNoLexeme (c :: cs) := by
  intro kind text rest hlexeme heq
  have hclass := hlexeme.of_append_eq heq
  rw [h] at hclass
  exact hclass

/-- A quote that no other closes does not open a lexeme. -/
theorem hasNoLexeme_of_unclosed {cs : List Char} (h : Quoted.split? cs = none) :
    HasNoLexeme ('"' :: cs) := by
  intro kind text rest hlexeme heq
  have hquoted : IsQuoted kind text := hlexeme.of_append_eq heq
  obtain ⟨hinside⟩ := hquoted
  obtain ⟨-, rfl⟩ := List.cons.inj heq
  have hsplit := hinside.split?_append rest
  simp [hsplit] at h

theorem HasNoLexeme.split?_eq_none {cs : List Char} (h : HasNoLexeme ('"' :: cs)) :
    Quoted.split? cs = none := by
  rcases hsplit : Quoted.split? cs with _ | ⟨inside, after⟩
  · rfl
  · have hquoted : IsQuoted .string ('"' :: (inside ++ ['"'])) := .intro (.of_split? hsplit)
    have hcs : '"' :: (inside ++ ['"']) ++ after = '"' :: cs := by
      simp [Quoted.eq_of_split? hsplit]
    exact absurd hcs (h _ _ after (.quoted hquoted))

theorem HasNoLexeme.opening_eq {c : Char} {cs : List Char} (h : HasNoLexeme (c :: cs))
    (hquote : c ≠ '"') : opening c = .other := by
  by_cases hopening : opening c = .other
  · exact hopening
  · obtain ⟨kind, hlexeme⟩ := exists_isLexeme_singleton hquote hopening
    exact absurd rfl (h kind [c] cs hlexeme)

theorem IsLexeme.not_isBlank {kind : Token.Kind} {text rest cs : List Char} {c : Char}
    (h : IsLexeme kind text) (heq : text ++ rest = c :: cs) : ¬ (c = ' ' ∨ c = '\t') := by
  intro hc
  have hother : opening c = .other := by rcases hc with rfl | rfl <;> rfl
  exact hasNoLexeme_of_other hother cs kind text rest h heq

namespace Tokenised

variable {p : Position} {behind : Option Token.Kind} {cs : List Char}
  {r r' : Except (Located ScanFault) (List Token)}

/-- The reference leaves no choice. -/
theorem unique (h : Tokenised p behind cs r) (h' : Tokenised p behind cs r') : r = r' := by
  induction h generalizing r' with
  | done =>
    generalize hcs : ([] : List Char) = cs at h'
    cases h' with
    | done => rfl
    | blank => cases hcs
    | lexeme h => exact absurd (List.append_eq_nil_iff.mp hcs.symm).1 h.isLexeme.ne_nil
    | stuck => cases hcs
  | blank hc more ih =>
    generalize hcs : _ :: _ = cs at h'
    cases h' with
    | done => cases hcs
    | blank hc' more' =>
      cases hcs
      exact ih more'
    | lexeme h => exact absurd hc (h.isLexeme.not_isBlank hcs.symm)
    | stuck hc' =>
      cases hcs
      exact absurd hc hc'
  | @lexeme p behind kind text rest literal r h hliteral more ih =>
    generalize hcs : text ++ rest = cs at h'
    cases h' with
    | done => exact absurd (List.append_eq_nil_iff.mp hcs).1 h.isLexeme.ne_nil
    | blank hc' => exact absurd hc' (h.isLexeme.not_isBlank hcs)
    | @lexeme _ _ kind' text' rest' literal' r' h' hliteral' more' =>
      obtain rfl := h.text_eq h' hcs
      obtain rfl := List.append_cancel_left hcs
      obtain rfl := h.isLexeme.kind_eq h'.isLexeme
      obtain rfl := hliteral.unique hliteral'
      rw [ih more']
    | stuck _ hno => exact absurd hcs (hno kind text rest h.isLexeme)
  | stuck hc hno =>
    generalize hcs : _ :: _ = cs at h'
    cases h' with
    | done => cases hcs
    | blank hc' =>
      cases hcs
      exact absurd hc' hc
    | lexeme h => exact absurd hcs.symm (hno _ _ _ h.isLexeme)
    | stuck =>
      cases hcs
      rfl

end Tokenised

/-- Scanning gives what the reference says. The point that ends a number with a point in it is
found where the number is read, not behind it; so none may stand behind what was read before. -/
theorem tokenised_scanFrom (p : Position) (cs : List Char) (behind : Option Token.Kind)
    (h : behind = some .float → ∀ more, cs ≠ '.' :: more) :
    Tokenised p behind cs (scanFrom p cs) := by
  fun_induction scanFrom p cs generalizing behind with
  | case1 p => exact .done
  | case2 p c cs hblank ih =>
    have hc : c = ' ' ∨ c = '\t' := by simpa [isBlank] using hblank
    exact .blank hc (ih none (by simp))
  | case3 p c cs hblank halt hread =>
    have hc : ¬ (c = ' ' ∨ c = '\t') := by simpa [isBlank] using hblank
    obtain hother | ⟨rfl, hsplit⟩ | ⟨hcs, hfloat⟩ := Lexeme.isHalt_of_read hread
    · have hquote : c ≠ '"' := by
        rintro rfl
        cases hother
      have hpoint : ¬ (c = '.' ∧ behind = some .float) := fun hc => h hc.2 cs (by rw [hc.1])
      have hstuck : Tokenised p behind (c :: cs) _ := .stuck hc (hasNoLexeme_of_other hother cs)
      rw [stuckFault, if_neg hquote, if_neg hpoint] at hstuck
      exact hstuck
    · have hstuck : Tokenised p behind ('"' :: cs) _ := .stuck hc (hasNoLexeme_of_unclosed hsplit)
      rw [stuckFault, if_pos rfl] at hstuck
      exact hstuck
    · obtain ⟨literal, hliteral⟩ := hfloat.isLexeme.exists_denotes
      have hstuck : Tokenised p behind _ _ :=
        .lexeme hfloat hliteral (.stuck (by decide) (hasNoLexeme_of_other rfl _))
      rw [stuckFault, if_neg (by decide), if_pos ⟨rfl, rfl⟩, hcs] at hstuck
      exact hstuck
  | case4 p c cs hblank lexeme hread _ hscan ih | case5 p c cs hblank lexeme hread _ hscan ih =>
    have hfirst := Lexeme.isFirst_of_read hread
    have hmore := ih (some lexeme.kind) fun hkind => hfirst.rest_ne_point (Option.some.inj hkind)
    have hall : Tokenised p behind _ _ := .lexeme hfirst.isLongest hfirst.denotes hmore
    rw [hscan, lexeme.text_append_rest] at hall
    exact hall

/-- Scanning decides what the reference asks for. -/
theorem scanFrom_eq_iff_tokenised {p : Position} {cs : List Char}
    {r : Except (Located ScanFault) (List Token)} :
    scanFrom p cs = r ↔ Tokenised p none cs r := by
  have hscan : Tokenised p none cs (scanFrom p cs) := tokenised_scanFrom p cs none (by simp)
  constructor
  · rintro rfl
    exact hscan
  · exact fun h => hscan.unique h

/-! ## Failures -/

namespace Tokenised

variable {p : Position} {behind : Option Token.Kind} {cs : List Char} {fault : Located ScanFault}

/-- A text that fails is, up to the place of the failure, one that does not. -/
theorem exists_stuck {r : Except (Located ScanFault) (List Token)} (h : Tokenised p behind cs r)
    (hr : r = .error fault) :
    ∃ before behind' c after ts, cs = before ++ c :: after ∧
      Tokenised p behind before (.ok ts) ∧ ¬ (c = ' ' ∨ c = '\t') ∧ HasNoLexeme (c :: after) ∧
      fault = stuckFault (p.advanceOver before) behind' c after ∧
      (behind' = some .float → before = [] ∧ behind = some .float ∨
        ∃ front text, before = front ++ text ∧ IsLexeme .float text) := by
  induction h with
  | done => cases hr
  | @blank p behind c cs r hc more ih =>
    obtain ⟨before, behind', d, after, ts, rfl, hbefore, hd, hno, hfault, hbehind⟩ := ih hr
    refine ⟨c :: before, behind', d, after, ts, rfl, .blank hc hbefore, hd, hno, hfault, ?_⟩
    intro hfloat
    obtain ⟨-, hnone⟩ | ⟨front, text, rfl, htext⟩ := hbehind hfloat
    · cases hnone
    · exact .inr ⟨c :: front, text, rfl, htext⟩
  | @lexeme p behind kind text rest literal r h hliteral more ih =>
    rcases r with fault' | ts
    · cases hr
      obtain ⟨before, behind', d, after, ts, rfl, hbefore, hd, hno, hfault, hbehind⟩ := ih rfl
      refine ⟨text ++ before, behind', d, after, _, (List.append_assoc ..).symm,
        .lexeme h.of_append hliteral hbefore, hd, hno, ?_, ?_⟩
      · rw [hfault, Position.advanceOver_append]
      · intro hfloat
        obtain ⟨rfl, hkind⟩ | ⟨front, text', rfl, htext⟩ := hbehind hfloat
        · cases hkind
          exact .inr ⟨[], text, by simp, h.isLexeme⟩
        · exact .inr ⟨text ++ front, text', (List.append_assoc ..).symm, htext⟩
    · cases hr
  | @stuck p behind c cs hc hno =>
    cases hr
    exact ⟨[], behind, c, cs, _, rfl, .done, hc, hno, rfl, fun hfloat => .inl ⟨rfl, hfloat⟩⟩

/-- What follows cannot give a character a lexeme that has none, except that it may close a text
that is open at the end. -/
theorem stuck_append {p : Position} {c : Char} {cs : List Char} (hc : ¬ (c = ' ' ∨ c = '\t'))
    (hno : HasNoLexeme (c :: cs)) (hclosed : c = '"' → '\n' ∈ cs) (more : List Char) :
    Tokenised p behind (c :: cs ++ more) (.error (stuckFault p behind c cs)) := by
  by_cases hquote : c = '"'
  · subst hquote
    obtain ⟨line, rest, rfl⟩ := List.append_of_mem (hclosed rfl)
    have hsplit := hno.split?_eq_none
    rw [Quoted.split?_append_newline, Option.map_eq_none_iff] at hsplit
    have hmore : Quoted.split? (line ++ '\n' :: (rest ++ more)) = none := by
      rw [Quoted.split?_append_newline, hsplit]
      rfl
    have hstuck : Tokenised p behind ('"' :: (line ++ '\n' :: (rest ++ more))) _ :=
      .stuck hc (hasNoLexeme_of_unclosed hmore)
    rw [stuckFault, if_pos rfl, takeWhile_append_newline (by decide)] at hstuck
    rw [stuckFault, if_pos rfl, takeWhile_append_newline (by decide), List.cons_append,
      List.append_assoc, List.cons_append]
    exact hstuck
  · have hstuck : Tokenised p behind (c :: (cs ++ more)) _ :=
      .stuck hc (hasNoLexeme_of_other (hno.opening_eq hquote) (cs ++ more))
    rw [stuckFault, if_neg hquote] at hstuck
    rw [stuckFault, if_neg hquote]
    exact hstuck

theorem eq_ok_of_nil {r : Except (Located ScanFault) (List Token)} (h : Tokenised p behind [] r) :
    r = .ok [.atEnd p] :=
  h.unique .done

/-- A failure stands, whatever follows the text, if it is no text that is open at the end. -/
theorem append_of_error {r : Except (Located ScanFault) (List Token)} (h : Tokenised p behind cs r)
    (hr : r = .error fault)
    (hclosed : fault.cause = .unclosedText → fault.span.finish.offset < p.offset + cs.length)
    (more : List Char) : Tokenised p behind (cs ++ more) (.error fault) := by
  induction h with
  | done => cases hr
  | @blank p behind c cs r hc h ih =>
    refine .blank hc (ih hr fun hcause => ?_)
    have hlt := hclosed hcause
    rw [List.length_cons] at hlt
    rw [Position.advance_offset]
    omega
  | @lexeme p behind kind text rest literal r h hliteral h' ih =>
    rcases r with fault' | ts
    · cases hr
      obtain ⟨c, rest, rfl⟩ : ∃ c rest', rest = c :: rest' := by
        cases rest with
        | nil => cases h'.eq_ok_of_nil
        | cons c rest => exact ⟨c, rest, rfl⟩
      rw [List.append_assoc]
      refine .lexeme (h.append more) hliteral (ih rfl fun hcause => ?_)
      have hlt := hclosed hcause
      rw [List.length_append] at hlt
      rw [Position.advanceOver_offset]
      omega
    · cases hr
  | @stuck p behind c cs hc hno =>
    cases hr
    refine stuck_append hc hno (fun hquote => ?_) more
    subst hquote
    by_cases hnewline : '\n' ∈ cs
    · exact hnewline
    · -- all of the rest is to blame, up to the end of the input
      have hlt := hclosed rfl
      have hline : cs.takeWhile (· ≠ '\n') = cs := by
        refine List.takeWhile_eq_self_iff.mpr fun d hd => ?_
        simpa using ne_of_mem_of_not_mem hd hnewline
      rw [stuckFault, if_pos rfl, hline] at hlt
      simp [Span.covering] at hlt
      omega

end Tokenised

/-! ## Scanning a source -/

/-- The ways to fail at the character `c`, which stands at `p` behind the text `before` and in front
of `after`: what users are told, and the stretch that is blamed. -/
inductive FailsAt (p : Position) (before : List Char) (c : Char) (after : List Char) :
    FaultKind → String → Span → Prop where
  | unknownCharacter (hquote : c ≠ '"') :
      FailsAt p before c after .unknownCharacter s!"Unknown character '{spelledOut c}'"
        (.single p c)
  /-- A point directly behind a number that has one already. -/
  | secondPoint (hc : c = '.')
      (h : ∃ front text, before = front ++ text ∧ IsLexeme .float text) :
      FailsAt p before c after .invalidCharacter "Invalid character '.'" (.single p c)
  | unclosedText (hc : c = '"') :
      FailsAt p before c after .invalidSyntax "Expected closing '\"'"
        (.covering p (c :: after.takeWhile (· ≠ '\n')))

theorem failsAt_stuckFault {p : Position} {behind : Option Token.Kind} {before : List Char}
    {c : Char} {after : List Char} (h : behind = some .float →
      ∃ front text, before = front ++ text ∧ IsLexeme .float text) :
    FailsAt p before c after (stuckFault p behind c after).cause.kind
      (stuckFault p behind c after).cause.message (stuckFault p behind c after).span := by
  by_cases hquote : c = '"'
  · rw [stuckFault, if_pos hquote]
    exact .unclosedText hquote
  · rw [stuckFault, if_neg hquote]
    by_cases hpoint : c = '.' ∧ behind = some .float
    · rw [if_pos hpoint]
      exact .secondPoint hpoint.1 (h hpoint.2)
    · rw [if_neg hpoint]
      exact .unknownCharacter hquote

/-- The ninth character tells the messages apart from those of a number that is refused. -/
theorem ScanFault.message_ninth (fault : ScanFault) :
    fault.message.toList[8]? = some 'c' ∨ fault.message.toList[8]? = some ' ' := by
  cases fault with
  | unknownCharacter c =>
    refine .inl ?_
    show ("Unknown character '" ++ spelledOut c ++ "'").toList[8]? = _
    rw [String.append_assoc, String.toList_append, List.getElem?_append_left (by decide)]
    rfl
  | secondPoint => exact .inl rfl
  | unclosedText => exact .inr rfl

/-- No failure says that a number cannot be converted. -/
theorem ScanFault.message_ne_invalidNumber (fault : ScanFault) (text : String) :
    fault.message ≠ "Invalid float '" ++ text ∧ fault.message ≠ "Invalid integer '" ++ text := by
  have hninth := fault.message_ninth
  constructor
  · intro h
    rw [h, String.toList_append, List.getElem?_append_left (by decide)] at hninth
    revert hninth
    decide
  · intro h
    rw [h, String.toList_append, List.getElem?_append_left (by decide)] at hninth
    revert hninth
    decide

/-- Scanning the source takes the longest lexeme at each place, and fails where there is none. -/
structure TakesLongestLexemes (name source : String) : Prop where
  scan_eq_iff : ∀ r, scan name source = r ↔ Tokenised (.start name) none source.toList r
  /-- The conversions of number lexemes do not fail. -/
  exists_denotes : ∀ kind text, IsLexeme kind text → ∃ literal, Denotes kind text literal
  message_ne : ∀ fault, scan name source = .error fault → ∀ text,
    fault.cause.message ≠ "Invalid float '" ++ text ∧
    fault.cause.message ≠ "Invalid integer '" ++ text
  /-- A failure is at the first place where there is no lexeme: before it nothing fails. -/
  exists_place : ∀ fault, scan name source = .error fault →
    ∃ before c after, source.toList = before ++ c :: after ∧
      (∃ ts, scan name (.ofList before) = .ok ts) ∧ HasNoLexeme (c :: after) ∧
      FailsAt ((Position.start name).advanceOver before) before c after
        fault.cause.kind fault.cause.message fault.span
  /-- A failure stands, whatever follows, if it is no text that is open at the end. -/
  scan_append : ∀ fault, scan name source = .error fault →
    (fault.cause = .unclosedText → fault.span.finish.offset < source.length) →
    ∀ more, scan name (source ++ more) = .error fault

/-- Scanning is longest match, and fails at the first place where there is nothing to match. -/
theorem scan_takes_longest_lexemes (name source : String) : TakesLongestLexemes name source := by
  constructor
  · exact fun r => scanFrom_eq_iff_tokenised
  · exact fun kind text h => h.exists_denotes
  · exact fun fault _ => fault.cause.message_ne_invalidNumber
  · intro fault h
    obtain ⟨before, behind, c, after, ts, hsource, hbefore, -, hno, rfl, hbehind⟩ :=
      (scanFrom_eq_iff_tokenised.mp h).exists_stuck rfl
    refine ⟨before, c, after, hsource, ⟨ts, ?_⟩, hno, failsAt_stuckFault fun hfloat => ?_⟩
    · rw [scan, scanFrom_eq_iff_tokenised, String.toList_ofList]
      exact hbefore
    · exact (hbehind hfloat).resolve_left (by simp)
  · intro fault h hclosed more
    rw [scan, scanFrom_eq_iff_tokenised, String.toList_append]
    refine (scanFrom_eq_iff_tokenised.mp h).append_of_error rfl (fun hcause => ?_) more.toList
    have hlt := hclosed hcause
    rw [Position.start_offset, String.length_toList]
    omega

end Peng
