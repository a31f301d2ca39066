import Mathlib.Data.List.DropRight
import Mathlib.Data.List.TakeWhile
import Peng.Proofs.Source.Lines

/-!
# Tokens tile their source

Scanning cuts a source into tokens and the blanks between them, and says of every token where it
stands. The main statement is `scan_tiles_source`: each lexeme is the text at its span, the spans
come in order, only blanks are outside of them, and the places they name are the true ones.

## Shape of the proof

`Scanned p cs ts` is what a successful scan leaves to be known: the text `cs`, which stands at
`p`, is made of pieces, one for each token of `ts` with the blanks before it, and of the blanks
before the end. A piece says all about its token (`Token.Covers`), so that each law of the tiling
is one induction over the pieces. The laws of later modules that concern several tokens in a row
come from `Scanned.exists_stretch`.

A place is reached by walking over characters; `Position.advanceOver_start` counts instead.
-/

namespace Peng

/-! ## True places -/

/-- What stands behind the last newline of a text. -/
def lastLine (text : List Char) : List Char :=
  text.rtakeWhile (· ≠ '\n')

theorem lastLine_concat_newline (text : List Char) : lastLine (text ++ ['\n']) = [] :=
  List.rtakeWhile_concat_neg _ _ _ (by simp)

theorem lastLine_concat {c : Char} (hc : c ≠ '\n') (text : List Char) :
    lastLine (text ++ [c]) = lastLine text ++ [c] :=
  List.rtakeWhile_concat_pos _ _ _ (by simpa using hc)

/-- Walking over a text counts its newlines and what stands behind the last of them. -/
theorem Position.advanceOver_start (name : String) (text : List Char) :
    (start name).advanceOver text =
      ⟨name, text.length, 1 + text.count '\n', 1 + (lastLine text).length⟩ := by
  induction text using List.reverseRecOn with
  | nil => rfl
  | append_singleton text c ih =>
    rw [advanceOver_append, ih, advanceOver_cons, advanceOver_nil, advance]
    by_cases hc : c = '\n'
    · subst hc
      rw [if_pos rfl, lastLine_concat_newline]
      simp [Nat.add_assoc]
    · rw [if_neg hc, lastLine_concat hc, List.count_append, List.count_singleton]
      simp [hc, Nat.add_assoc]

@[simp] theorem Position.start_offset (name : String) : (start name).offset = 0 := rfl

/-- The place is where its offset says: the newlines before it give its line, and what stands
behind the last of them gives its column. -/
structure Position.IsTrueIn (p : Position) (name source : String) : Prop where
  source_eq : p.source = name
  offset_le : p.offset ≤ source.length
  line_eq : p.line = 1 + (source.toList.take p.offset).count '\n'
  column_eq : p.column = 1 + (lastLine (source.toList.take p.offset)).length

theorem Position.isTrueIn_advanceOver_start {source : String} {before after : List Char}
    (h : source.toList = before ++ after) (name : String) :
    ((start name).advanceOver before).IsTrueIn name source := by
  have hlength : source.length = before.length + after.length := by
    rw [← String.length_toList, h, List.length_append]
  rw [advanceOver_start]
  constructor
  · rfl
  · dsimp only
    omega
  · rw [h, List.take_left]
  · rw [h, List.take_left]

/-! ## Lexemes and lines -/

theorem Quoted.newline_not_mem_of_split? {cs inside after : List Char}
    (h : split? cs = some (inside, after)) : '\n' ∉ inside := by
  fun_induction split? cs generalizing inside after with
  | case1 | case3 | case4 | case5 | case7 | case9 => simp at h
  | case2 rest => simp_all
  | case6 c rest hc inside' after' hrest ih =>
    obtain ⟨rfl, rfl⟩ : '\\' :: c :: inside' = inside ∧ after' = after := by simpa using h
    have hne : '\n' ≠ c := fun h => hc h.symm
    simp [hne, ih hrest]
  | case8 c rest _ hnewline _ _ _ inside' after' hrest ih =>
    obtain ⟨rfl, rfl⟩ : c :: inside' = inside ∧ after' = after := by simpa using h
    have hne : '\n' ≠ c := fun h => hnewline h.symm
    simp [hne, ih hrest]

theorem not_mem_takeWhile {p : Char → Bool} {c : Char} (hc : p c = false) (cs : List Char) :
    c ∉ cs.takeWhile p := by
  intro hmem
  have hp := List.mem_takeWhile_imp hmem
  rw [hc] at hp
  cases hp

theorem Token.Kind.eq_newline_of_ofCharacter? {c : Char}
    (h : ofCharacter? c = some .newline) : c = '\n' := by
  unfold ofCharacter? at h
  split at h <;> cases h
  rfl

theorem Token.Kind.ne_newline_of_ofCharacter?_eq_none {c : Char}
    (h : ofCharacter? c = none) : '\n' ≠ c := by
  rintro rfl
  cases h

theorem Token.Kind.ofWord_ne_newline (word : List Char) : ofWord word ≠ .newline := by
  unfold ofWord
  split
  · simp
  · split <;> simp

/-- The text of a token of that kind keeps to one line: a newline is a token by itself, and no
other token has one in it. -/
def Token.Kind.KeepsLine (kind : Token.Kind) (text : List Char) : Prop :=
  (kind = .newline → text = ['\n']) ∧ (kind ≠ .newline → '\n' ∉ text)

theorem Token.Kind.KeepsLine.of_not_mem {kind : Token.Kind} {text : List Char}
    (hkind : kind ≠ .newline) (h : '\n' ∉ text) : kind.KeepsLine text :=
  ⟨fun hnewline => absurd hnewline hkind, fun _ => h⟩

/-- Reading halts at characters of the text, which stand on one line. -/
structure Halt.IsIn (h : Halt) (cs : List Char) : Prop where
  exists_rest : ∃ rest, h.passed ++ h.blamed ++ rest = cs
  blamed_ne_nil : h.blamed ≠ []
  newline_not_mem : '\n' ∉ h.blamed

namespace Lexeme

variable {c digit quote : Char} {cs : List Char} {halt : Halt}

theorem newline_not_mem_digits (cs : List Char) : '\n' ∉ cs.takeWhile Char.isDigit :=
  not_mem_takeWhile rfl cs

theorem keepsLine_of_number (hdigit : '\n' ≠ digit) {l : Lexeme (digit :: cs)}
    (h : number digit cs = .ok l) : l.kind.KeepsLine l.text := by
  unfold number at h
  dsimp only at h
  split at h
  case h_1 behind _ =>
    split at h <;> cases h
    exact .of_not_mem (by simp) (by simp [hdigit, newline_not_mem_digits])
  case h_2 =>
    cases h
    exact .of_not_mem (by simp) (by simp [hdigit, newline_not_mem_digits])

theorem keepsLine_of_quoted (hquote : '\n' ≠ quote) {l : Lexeme (quote :: cs)}
    (h : quoted quote cs = .ok l) : l.kind.KeepsLine l.text := by
  unfold quoted at h
  split at h <;> cases h
  have hinside := Quoted.newline_not_mem_of_split? ‹_›
  exact .of_not_mem (by simp) (by simp [hquote, hinside])

theorem keepsLine_of_read {l : Lexeme (c :: cs)} (h : read c cs = .ok l) :
    l.kind.KeepsLine l.text := by
  unfold read at h
  split at h
  case h_1 kind hkind =>
    cases h
    constructor
    · rintro rfl
      rw [Token.Kind.eq_newline_of_ofCharacter? hkind]
    · intro hne hmem
      obtain rfl := List.mem_singleton.mp hmem
      exact hne (Option.some.inj hkind).symm
  case h_2 hkind =>
    have hc := Token.Kind.ne_newline_of_ofCharacter?_eq_none hkind
    split at h
    · exact keepsLine_of_quoted hc h
    · split at h
      · exact keepsLine_of_number hc h
      · split at h <;> cases h
        have hword : '\n' ∉ cs.takeWhile isWordCharacter := not_mem_takeWhile rfl cs
        exact .of_not_mem (Token.Kind.ofWord_ne_newline _) (by simp [word, hc, hword])

theorem isIn_of_number (h : number digit cs = .error halt) : halt.IsIn (digit :: cs) := by
  unfold number at h
  dsimp only at h
  split at h
  case h_1 behind hbehind =>
    split at h
    case h_1 rest hrest =>
      cases h
      refine ⟨⟨rest, ?_⟩, by simp, by simp⟩
      have hbehind' := List.takeWhile_append_dropWhile (p := Char.isDigit) (l := behind)
      have hcs := List.takeWhile_append_dropWhile (p := Char.isDigit) (l := cs)
      rw [hrest] at hbehind'
      rw [hbehind] at hcs
      simp only [List.cons_append, List.append_assoc, List.nil_append, hbehind', hcs]
    case h_2 => cases h
  case h_2 => cases h

theorem isIn_of_quoted (hquote : '\n' ≠ quote) (h : quoted quote cs = .error halt) :
    halt.IsIn (quote :: cs) := by
  unfold quoted at h
  split at h <;> cases h
  have hline : '\n' ∉ cs.takeWhile (· ≠ '\n') := not_mem_takeWhile (by simp) cs
  refine ⟨⟨cs.dropWhile (· ≠ '\n'), ?_⟩, List.cons_ne_nil _ _, ?_⟩
  · rw [List.nil_append, List.cons_append, List.takeWhile_append_dropWhile]
  · exact List.not_mem_cons_of_ne_of_not_mem hquote hline

theorem isIn_of_read (h : read c cs = .error halt) : halt.IsIn (c :: cs) := by
  unfold read at h
  split at h
  case h_1 => cases h
  case h_2 hkind =>
    have hc := Token.Kind.ne_newline_of_ofCharacter?_eq_none hkind
    split at h
    · exact isIn_of_quoted hc h
    · split at h
      · exact isIn_of_number h
      · split at h <;> cases h
        exact ⟨⟨cs, rfl⟩, by simp, by simpa using hc⟩

end Lexeme

/-! ## Scanned texts -/

/-- The token covers the text, which stands at `p`. -/
structure Token.Covers (t : Token) (p : Position) (text : List Char) : Prop where
  lexeme_eq : t.lexeme = String.ofList text
  span_eq : t.span = .covering p text
  text_eq_nil_iff : text = [] ↔ t.kind = .endOfInput
  keepsLine : t.kind.KeepsLine text

theorem Token.covers_atEnd (p : Position) : (Token.atEnd p).Covers p [] where
  lexeme_eq := rfl
  span_eq := rfl
  text_eq_nil_iff := by simp [atEnd]
  keepsLine := .of_not_mem (by simp [atEnd]) List.not_mem_nil

theorem Lexeme.token_covers {c : Char} {cs : List Char} {l : Lexeme (c :: cs)}
    (h : read c cs = .ok l) (p : Position) : (l.token p).Covers p l.text where
  lexeme_eq := rfl
  span_eq := rfl
  text_eq_nil_iff := iff_of_false l.text_ne_nil (kind_ne_of_read h)
  keepsLine := keepsLine_of_read h

/-- The text, which stands at `p`, is made of the tokens, with blanks before each of them. -/
inductive Scanned : Position → List Char → List Token → Prop where
  | done {p : Position} {gap : List Char} (hgap : ∀ c ∈ gap, isBlank c) :
      Scanned p gap [.atEnd (p.advanceOver gap)]
  | token {p : Position} {gap text rest : List Char} {t : Token} {ts : List Token}
      (hgap : ∀ c ∈ gap, isBlank c) (ht : t.Covers (p.advanceOver gap) text)
      (htext : text ≠ []) (more : Scanned (p.advanceOver (gap ++ text)) rest ts) :
      Scanned p (gap ++ text ++ rest) (t :: ts)

namespace Scanned

variable {p : Position} {cs : List Char} {ts pre post : List Token} {t : Token}

/-- One more blank in front. -/
theorem blank {c : Char} (hc : isBlank c) (h : Scanned (p.advance c) cs ts) :
    Scanned p (c :: cs) ts := by
  cases h with
  | done hgap => exact .done (List.forall_mem_cons.mpr ⟨hc, hgap⟩)
  | @token _ gap _ _ _ _ hgap ht htext more =>
    exact @token p (c :: gap) _ _ _ _ (List.forall_mem_cons.mpr ⟨hc, hgap⟩) ht htext more

theorem of_scanFrom (h : scanFrom p cs = .ok ts) : Scanned p cs ts := by
  fun_induction scanFrom p cs generalizing ts with
  | case1 p =>
    cases h
    exact .done (by simp)
  | case2 p c cs hblank ih => exact .blank hblank (ih h)
  | case3 p c cs hblank halt hread => cases h
  | case4 p c cs hblank lexeme hread us hscan ih =>
    cases h
    have hcovers := Lexeme.token_covers hread p
    have hpiece := @token p [] _ _ _ _ (by simp) hcovers lexeme.text_ne_nil (ih hscan)
    rwa [List.nil_append, lexeme.text_append_rest] at hpiece
  | case5 p c cs hblank lexeme hread fault hscan ih => cases h

/-- What stands behind some of the tokens is made of the others. -/
theorem exists_behind (hts : ts ≠ []) (h : Scanned p cs (pre ++ ts)) :
    ∃ before rest, before ++ rest = cs ∧ Scanned (p.advanceOver before) rest ts := by
  induction pre generalizing p cs with
  | nil => exact ⟨[], cs, rfl, h⟩
  | cons t pre ih =>
    generalize hall : t :: pre ++ ts = all at h
    cases h with
    | done =>
      obtain ⟨-, hnil⟩ := List.cons.inj hall
      exact absurd (List.append_eq_nil_iff.mp hnil).2 hts
    | @token _ gap text rest _ _ hgap ht htext more =>
      obtain ⟨rfl, rfl⟩ := List.cons.inj hall
      obtain ⟨before, rest', rfl, hrest⟩ := ih more
      refine ⟨gap ++ text ++ before, rest', by simp, ?_⟩
      rwa [Position.advanceOver_append]

/-- Every token covers a piece of the text. -/
theorem exists_covers (h : Scanned p cs ts) (ht : t ∈ ts) :
    ∃ before text after, before ++ text ++ after = cs ∧
      t.Covers (p.advanceOver before) text := by
  obtain ⟨pre, post, rfl⟩ := List.append_of_mem ht
  obtain ⟨before, rest, rfl, hrest⟩ := exists_behind (List.cons_ne_nil t post) h
  cases hrest with
  | done =>
    refine ⟨before ++ rest, [], [], by simp, ?_⟩
    rw [Position.advanceOver_append]
    exact Token.covers_atEnd _
  | @token _ gap text rest' _ _ hgap ht htext more =>
    refine ⟨before ++ gap, text, rest', by simp, ?_⟩
    rwa [Position.advanceOver_append]

theorem pairwise (h : Scanned p cs ts) :
    ts.Pairwise fun t u => t.span.finish.offset ≤ u.span.start.offset := by
  induction h with
  | done => exact List.pairwise_singleton _ _
  | token hgap ht htext more ih =>
    refine List.pairwise_cons.mpr ⟨fun u hu => ?_, ih⟩
    obtain ⟨before, text, after, -, hu⟩ := more.exists_covers hu
    rw [ht.span_eq, hu.span_eq]
    simp [Span.covering]

/-- A character is a blank or under a token. -/
theorem isBlank_or_covered (h : Scanned p cs ts) {i : Nat} {c : Char} (hc : cs[i]? = some c) :
    isBlank c ∨
      ∃ t ∈ ts, t.span.start.offset ≤ p.offset + i ∧ p.offset + i < t.span.finish.offset := by
  induction h generalizing i with
  | done hgap => exact .inl (hgap c (List.mem_of_getElem? hc))
  | @token p gap text rest t ts hgap ht htext more ih =>
    by_cases hi : i < gap.length
    · rw [List.append_assoc, List.getElem?_append_left hi] at hc
      exact .inl (hgap c (List.mem_of_getElem? hc))
    · by_cases hi' : i < gap.length + text.length
      · refine .inr ⟨t, List.mem_cons_self, ?_⟩
        rw [ht.span_eq]
        simp only [Span.covering, Position.advanceOver_offset]
        omega
      · have hlength : (gap ++ text).length ≤ i := by
          rw [List.length_append]
          omega
        rw [List.getElem?_append_right hlength] at hc
        obtain hblank | ⟨u, hu, hspan⟩ := ih hc
        · exact .inl hblank
        · refine .inr ⟨u, List.mem_cons_of_mem t hu, ?_⟩
          rw [Position.advanceOver_offset] at hspan
          omega

/-- Tokens that follow each other without a newline stand on one line: from the start of the first
to the end of the last the text has no newline. -/
theorem exists_stretch {part : List Token} (h : Scanned p cs (t :: part ++ post))
    (hlines : ∀ u ∈ t :: part, u.kind ≠ .newline) :
    ∃ gap text rest, gap ++ text ++ rest = cs ∧ (∀ c ∈ gap, isBlank c) ∧ '\n' ∉ text ∧
      (text = [] → t.kind = .endOfInput) ∧ (post = [] → rest = []) ∧
      t.span.upTo (part.getLastD t).span = .covering (p.advanceOver gap) text := by
  induction part generalizing p cs t with
  | nil =>
    cases h with
    | done hgap => exact ⟨cs, [], [], by simp, hgap, by simp, fun _ => rfl, fun _ => rfl, rfl⟩
    | @token _ gap text rest _ _ hgap ht htext more =>
      have hline := ht.keepsLine.2 (hlines t List.mem_cons_self)
      refine ⟨gap, text, rest, rfl, hgap, hline, ht.text_eq_nil_iff.mp, ?_, ht.span_eq⟩
      rintro rfl
      cases more
  | cons u part ih =>
    cases h with
    | @token _ gap text rest _ _ hgap ht htext more =>
      obtain ⟨hline, hlines⟩ := List.forall_mem_cons.mp hlines
      obtain ⟨gap', text', rest', rfl, hgap', hline', -, hend, hspan⟩ := ih more hlines
      refine ⟨gap, text ++ gap' ++ text', rest', by simp, hgap, ?_, ?_, hend, ?_⟩
      · have hblank : '\n' ∉ gap' := fun hmem => absurd (hgap' _ hmem) (by decide)
        simp [ht.keepsLine.2 hline, hblank, hline']
      · intro hnil
        simp only [List.append_eq_nil_iff] at hnil
        exact absurd hnil.1.1 htext
      · have hfinish := congrArg Span.finish hspan
        rw [List.getLastD_cons]
        simp only [Span.upTo, Span.covering, ht.span_eq, Position.advanceOver_append] at hfinish ⊢
        rw [hfinish]

end Scanned

/-! ## The tiling of a source -/

/-- The tokens tile a source. -/
structure Tiles (tokens : List Token) (name source : String) : Prop where
  /-- A lexeme is the text from the start of its span to the end. -/
  lexeme_eq : ∀ t ∈ tokens, t.lexeme =
    String.ofList ((source.toList.take t.span.finish.offset).drop t.span.start.offset)
  /-- The spans come in order and do not overlap. -/
  pairwise : tokens.Pairwise fun t u => t.span.finish.offset ≤ u.span.start.offset
  /-- Only spaces and tabs are outside of all spans. -/
  blank_of_uncovered : ∀ i c, source.toList[i]? = some c →
    (∀ t ∈ tokens, ¬ (t.span.start.offset ≤ i ∧ i < t.span.finish.offset)) → c = ' ' ∨ c = '\t'
  /-- The last token, and no other, ends the input; it is empty, and the others are not. -/
  ends : ∃ ahead last, tokens = ahead ++ [last] ∧
    (∀ t ∈ ahead, t.kind ≠ .endOfInput ∧ t.lexeme ≠ "") ∧
    last.kind = .endOfInput ∧ last.lexeme = "" ∧
    last.span.start = last.span.finish ∧ last.span.start.offset = source.length
  /-- Both ends of every span are true places. -/
  true_places : ∀ t ∈ tokens,
    t.span.start.IsTrueIn name source ∧ t.span.finish.IsTrueIn name source

/-- The tokens of a source tile it, at true places. -/
theorem scan_tiles_source {name source : String} {tokens : List Token}
    (h : scan name source = .ok tokens) : Tiles tokens name source := by
  have hscanned := Scanned.of_scanFrom h
  refine ⟨fun t ht => ?_, hscanned.pairwise, fun i c hc hfree => ?_, ?_, fun t ht => ?_⟩
  · obtain ⟨before, text, after, hsource, ht⟩ := hscanned.exists_covers ht
    have hstretch :
        (before ++ text ++ after).take (before.length + text.length) = before ++ text := by
      rw [← List.length_append, List.take_left]
    rw [ht.lexeme_eq, ht.span_eq, ← hsource, Span.covering]
    simp only [Position.advanceOver_offset, Position.start_offset, Nat.zero_add]
    rw [hstretch, List.drop_left]
  · obtain hblank | ⟨t, ht, hcovered⟩ := hscanned.isBlank_or_covered hc
    · simpa [isBlank] using hblank
    · rw [Position.start_offset, Nat.zero_add] at hcovered
      exact absurd hcovered (hfree t ht)
  · obtain ⟨ahead, rfl, hahead⟩ := scan_ok h
    refine ⟨ahead, _, rfl, fun t ht => ⟨hahead t ht, fun hempty => ?_⟩, rfl, rfl, rfl, ?_⟩
    · obtain ⟨before, text, after, -, hcovers⟩ :=
        hscanned.exists_covers (List.mem_append_left _ ht)
      have hnil : text = [] := by simpa [hempty] using hcovers.lexeme_eq.symm
      exact hahead t ht (hcovers.text_eq_nil_iff.mp hnil)
    · simp [Token.atEnd, Span.empty, endOfText, String.length_toList]
  · obtain ⟨before, text, after, hsource, ht⟩ := hscanned.exists_covers ht
    rw [ht.span_eq]
    constructor
    · exact Position.isTrueIn_advanceOver_start (hsource.symm.trans (List.append_assoc ..)) name
    · rw [Span.covering, ← Position.advanceOver_append]
      exact Position.isTrueIn_advanceOver_start hsource.symm name

/-- An escaped quote, a letter of two bytes, a tab and two lines. -/
theorem scan_tiles_two_lines :
    ∃ ts, scan "a.peng" "say \"é\\\"\" - 2.5\n\tb" = .ok ts ∧
      Tiles ts "a.peng" "say \"é\\\"\" - 2.5\n\tb" := by
  have hok : (scan "a.peng" "say \"é\\\"\" - 2.5\n\tb").isOk := by decide +kernel
  cases hscan : scan "a.peng" "say \"é\\\"\" - 2.5\n\tb" with
  | ok ts => exact ⟨ts, rfl, scan_tiles_source hscan⟩
  | error fault =>
    rw [hscan] at hok
    cases hok

end Peng
