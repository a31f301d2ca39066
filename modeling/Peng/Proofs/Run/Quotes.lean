import Mathlib.Algebra.Group.Nat.Even
import Mathlib.Algebra.Ring.Parity
import Peng.Proofs.Run.Saying

/-!
# Texts in quotes

Every text can be written between quotes, and is read and printed exactly; every token of a text
ends at the first quote that an even number of backslashes stands before, and denotes what stands
between the quotes, escape by escape. The main statement is `quoted_texts_are_exact`.

## Shape of the proof

The scanner walks over a text and takes what follows a backslash along. `IsClosing` looks back from
a quote instead, and counts backslashes. Both find the same quote, for a step of the scanner leaves
it open whether the backslashes behind it are even in number (`even_backslashes_plain`,
`even_backslashes_escaped`): `isInside_iff_isClosing`.
-/

namespace Peng

/-! ## Counting backslashes -/

/-- How many backslashes there are at the end. -/
def backslashesAtEnd (cs : List Char) : ℕ :=
  (cs.reverse.takeWhile (· = '\\')).length

/-- What stands between two quotes of which the second is the first on the line, behind the other,
with an even number of backslashes directly before it. -/
structure IsClosing (inside : List Char) : Prop where
  newline_notMem : '\n' ∉ inside
  even_backslashes : Even (backslashesAtEnd inside)
  odd_backslashes : ∀ front back, inside = front ++ '"' :: back → Odd (backslashesAtEnd front)

theorem backslashesAtEnd_eq_length {cs : List Char} (h : ∀ c ∈ cs, c = '\\') :
    backslashesAtEnd cs = cs.length := by
  have hall : cs.reverse.takeWhile (· = '\\') = cs.reverse := by
    rw [List.takeWhile_eq_self_iff]
    simpa using h
  rw [backslashesAtEnd, hall, List.length_reverse]

/-- The count does not go beyond another character. -/
theorem backslashesAtEnd_append {c : Char} (hc : c ≠ '\\') (front back : List Char) :
    backslashesAtEnd (front ++ c :: back) = backslashesAtEnd back := by
  rw [backslashesAtEnd, backslashesAtEnd, List.reverse_append, List.reverse_cons,
    List.append_assoc, List.singleton_append, List.takeWhile_append]
  split
  case isTrue hall => simp [hc, hall]
  case isFalse => rfl

theorem even_backslashes_plain {c : Char} (hc : c ≠ '\\') (cs : List Char) :
    Even (backslashesAtEnd (c :: cs)) ↔ Even (backslashesAtEnd cs) := by
  rw [← List.nil_append (c :: cs), backslashesAtEnd_append hc]

/-- A backslash and what it takes along do not change whether the backslashes are even in number. -/
theorem even_backslashes_escaped (c : Char) (cs : List Char) :
    Even (backslashesAtEnd ('\\' :: c :: cs)) ↔ Even (backslashesAtEnd cs) := by
  by_cases hall : ∀ d ∈ c :: cs, d = '\\'
  · have hcs : ∀ d ∈ cs, d = '\\' := fun d hd => hall d (List.mem_cons_of_mem c hd)
    have hboth : ∀ d ∈ '\\' :: c :: cs, d = '\\' := List.forall_mem_cons.mpr ⟨rfl, hall⟩
    rw [backslashesAtEnd_eq_length hboth, backslashesAtEnd_eq_length hcs, List.length_cons,
      List.length_cons, Nat.even_add_one, Nat.even_add_one, not_not]
  · obtain rfl | hc := eq_or_ne c '\\'
    · -- the backslashes at the end are those behind another character in `cs`
      obtain ⟨d, hd, hne⟩ : ∃ d ∈ cs, d ≠ '\\' := by simpa using hall
      obtain ⟨front, back, rfl⟩ := List.append_of_mem hd
      rw [backslashesAtEnd_append hne, ← List.cons_append, ← List.cons_append,
        backslashesAtEnd_append hne]
    · rw [← List.singleton_append, backslashesAtEnd_append hc]

/-- A front with no newline and no quote of its own that could be the closing one may be left out,
if that does not change whether the backslashes are even in number. -/
theorem isClosing_append_iff {step : List Char}
    (heven : ∀ cs, Even (backslashesAtEnd (step ++ cs)) ↔ Even (backslashesAtEnd cs))
    (hnewline : '\n' ∉ step)
    (hodd : ∀ front back, step = front ++ '"' :: back → Odd (backslashesAtEnd front))
    (cs : List Char) : IsClosing (step ++ cs) ↔ IsClosing cs := by
  have hodd_iff (front : List Char) :
      Odd (backslashesAtEnd (step ++ front)) ↔ Odd (backslashesAtEnd front) := by
    rw [← Nat.not_even_iff_odd, heven, Nat.not_even_iff_odd]
  constructor
  · intro h
    refine ⟨fun hmem => h.newline_notMem (List.mem_append_right _ hmem),
      (heven cs).mp h.even_backslashes, ?_⟩
    rintro front back rfl
    exact (hodd_iff front).mp (h.odd_backslashes (step ++ front) back (by rw [List.append_assoc]))
  · intro h
    refine ⟨fun hmem => ?_, (heven cs).mpr h.even_backslashes, fun front back heq => ?_⟩
    · exact (List.mem_append.mp hmem).elim hnewline h.newline_notMem
    · -- the quote is behind the front, or in it
      obtain ⟨front', rfl, hcs⟩ | ⟨back', hstep, hback⟩ := List.append_eq_append_iff.mp heq
      · exact (hodd_iff front').mpr (h.odd_backslashes front' back hcs)
      · cases back' with
        | nil =>
          obtain rfl : front = step := by simpa using hstep.symm
          have hfirst := (hodd_iff []).mpr (h.odd_backslashes [] back (by simpa using hback.symm))
          rwa [List.append_nil] at hfirst
        | cons d back' =>
          obtain ⟨rfl, -⟩ := List.cons.inj hback
          exact hodd front back' hstep

section Closing

variable {c : Char} {cs : List Char}

theorem isClosing_nil : IsClosing [] :=
  ⟨List.not_mem_nil, by simp [backslashesAtEnd], by simp⟩

theorem isClosing_plain_iff (hquote : c ≠ '"') (hbackslash : c ≠ '\\') (hnewline : c ≠ '\n') :
    IsClosing (c :: cs) ↔ IsClosing cs := by
  have hodd : ∀ front back, [c] = front ++ '"' :: back → Odd (backslashesAtEnd front) := by
    intro front back heq
    have hmem : '"' ∈ [c] := heq ▸ List.mem_append_right _ List.mem_cons_self
    exact absurd (List.mem_singleton.mp hmem).symm hquote
  exact isClosing_append_iff (even_backslashes_plain hbackslash) (by simpa using hnewline.symm)
    hodd cs

theorem isClosing_escaped_iff (hnewline : c ≠ '\n') :
    IsClosing ('\\' :: c :: cs) ↔ IsClosing cs := by
  have hodd : ∀ front back, ['\\', c] = front ++ '"' :: back → Odd (backslashesAtEnd front) := by
    rintro (_ | ⟨d, _ | ⟨d', front⟩⟩) back heq
    · cases heq
    · -- the quote is the one that the backslash takes along
      cases heq
      exact odd_one
    · simp at heq
  exact isClosing_append_iff (even_backslashes_escaped c) (by simpa using hnewline.symm) hodd cs

theorem IsClosing.isInside : {inside : List Char} → IsClosing inside → IsInside inside
  | [], _ => .nil
  | c :: cs, h => by
    by_cases hbackslash : c = '\\'
    · subst hbackslash
      match cs, h with
      | [], h => exact absurd h.even_backslashes (by decide)
      | c :: cs, h =>
        have hnewline : c ≠ '\n' := by
          rintro rfl
          exact h.newline_notMem (by simp)
        exact .escaped hnewline ((isClosing_escaped_iff hnewline).mp h).isInside
    · have hquote : c ≠ '"' := by
        rintro rfl
        exact absurd (h.odd_backslashes [] cs rfl) (by decide)
      have hnewline : c ≠ '\n' := by
        rintro rfl
        exact h.newline_notMem (by simp)
      exact .plain hquote hbackslash hnewline
        ((isClosing_plain_iff hquote hbackslash hnewline).mp h).isInside

/-- The quote that the scanner finds is the one that counting backslashes finds. -/
theorem isInside_iff_isClosing {inside : List Char} : IsInside inside ↔ IsClosing inside := by
  refine ⟨fun h => ?_, IsClosing.isInside⟩
  induction h with
  | nil => exact isClosing_nil
  | plain hquote hbackslash hnewline _ ih =>
    exact (isClosing_plain_iff hquote hbackslash hnewline).mpr ih
  | escaped hnewline _ ih => exact (isClosing_escaped_iff hnewline).mpr ih

end Closing

/-! ## Texts that are not closed -/

/-- No quote on the rest of the line has an even number of backslashes before it. -/
def IsUnclosed (after : List Char) : Prop :=
  ∀ inside rest, after.takeWhile (· ≠ '\n') = inside ++ '"' :: rest → Odd (backslashesAtEnd inside)

/-- Of the quotes with an even number of backslashes before them there is a first one. -/
theorem exists_isClosing {inside : List Char} (hnewline : '\n' ∉ inside)
    (heven : Even (backslashesAtEnd inside)) (rest : List Char) :
    ∃ first more, IsClosing first ∧ inside ++ '"' :: rest = first ++ '"' :: more := by
  by_cases hfirst : ∀ front back, inside = front ++ '"' :: back → Odd (backslashesAtEnd front)
  · exact ⟨inside, rest, ⟨hnewline, heven, hfirst⟩, rfl⟩
  · push Not at hfirst
    obtain ⟨front, back, rfl, hfront⟩ := hfirst
    have hnewline' : '\n' ∉ front := fun hmem => hnewline (List.mem_append_left _ hmem)
    obtain ⟨first, more, hclosing, heq⟩ :=
      exists_isClosing hnewline' (Nat.not_odd_iff_even.mp hfront) (back ++ '"' :: rest)
    exact ⟨first, more, hclosing, by rw [List.append_assoc, List.cons_append, heq]⟩
termination_by inside.length

theorem split?_eq_none_iff (after : List Char) : Quoted.split? after = none ↔ IsUnclosed after := by
  constructor
  · intro hnone inside rest hline
    by_contra hodd
    have hnewline : '\n' ∉ inside := by
      intro hmem
      have hline' := List.mem_takeWhile_imp (hline ▸ List.mem_append_left _ hmem)
      simp at hline'
    obtain ⟨first, more, hclosing, heq⟩ :=
      exists_isClosing hnewline (Nat.not_odd_iff_even.mp hodd) rest
    have hafter : after = first ++ '"' :: (more ++ after.dropWhile (· ≠ '\n')) := by
      rw [← List.cons_append, ← List.append_assoc, ← heq, ← hline, List.takeWhile_append_dropWhile]
    have hsplit := hclosing.isInside.split?_append (more ++ after.dropWhile (· ≠ '\n'))
    rw [← hafter, hnone] at hsplit
    cases hsplit
  · intro hunclosed
    rcases hsplit : Quoted.split? after with _ | ⟨inside, rest⟩
    · rfl
    · have hclosing := isInside_iff_isClosing.mp (.of_split? hsplit)
      have hline : after.takeWhile (· ≠ '\n') =
          inside ++ '"' :: rest.takeWhile (· ≠ '\n') := by
        rw [← Quoted.eq_of_split? hsplit, List.takeWhile_append_of_pos]
        · simp
        · intro c hc
          simpa using ne_of_mem_of_not_mem hc hclosing.newline_notMem
      exact absurd hclosing.even_backslashes
        (Nat.not_even_iff_odd.mpr (hunclosed _ _ hline))

/-- No lexeme goes on with a quote. -/
theorem IsLongest.append_quote {kind : Token.Kind} {text rest : List Char}
    (h : IsLongest kind text rest) (after : List Char) :
    IsLongest kind text (rest ++ '"' :: after) := by
  cases rest with
  | cons c rest => exact h.append _
  | nil =>
    apply h.isLexeme.isLongest_of_next
    rintro c more heq kind'
    cases heq
    cases h.isLexeme with
    | mark h => exact h.not_isLexeme_concat '"'
    | number h => exact h.not_isLexeme_concat rfl fun _ => by decide
    | word h => exact h.not_isLexeme_concat rfl
    | quoted h => exact h.not_isLexeme_concat '"'

/-- A quote that is not closed is where scanning fails, if what stands before it can be scanned. -/
theorem Tokenised.append_unclosed {p : Position} {behind : Option Token.Kind}
    {before after : List Char} {r : Except (Located ScanFault) (List Token)} {ts : List Token}
    (h : Tokenised p behind before r) (hr : r = .ok ts) (hno : HasNoLexeme ('"' :: after)) :
    Tokenised p behind (before ++ '"' :: after) (.error ⟨.unclosedText,
      .covering (p.advanceOver before) ('"' :: after.takeWhile (· ≠ '\n'))⟩) := by
  induction h generalizing ts with
  | @done p behind =>
    have hstuck : Tokenised p behind ('"' :: after) _ := .stuck (by decide) hno
    rwa [stuckFault, if_pos rfl] at hstuck
  | @blank p behind c cs r hc more ih => exact .blank hc (ih hr)
  | @lexeme p behind kind text rest literal r h hliteral more ih =>
    rcases r with fault | us
    · cases hr
    · rw [List.append_assoc, Position.advanceOver_append]
      exact .lexeme (h.append_quote after) hliteral (ih rfl)
  | stuck => cases hr

/-- When a source has a text that is not closed. -/
theorem scan_eq_unclosedText_iff {name source : String} {span : Span} :
    scan name source = .error ⟨.unclosedText, span⟩ ↔
      ∃ before after, source.toList = before ++ '"' :: after ∧
        (∃ ts, scan name (.ofList before) = .ok ts) ∧ IsUnclosed after ∧
        span = .covering ((Position.start name).advanceOver before)
          ('"' :: after.takeWhile (· ≠ '\n')) := by
  constructor
  · intro h
    obtain ⟨before, behind, c, after, ts, hsource, hbefore, -, hno, hfault, -⟩ :=
      (scanFrom_eq_iff_tokenised.mp h).exists_stuck rfl
    rw [stuckFault] at hfault
    split_ifs at hfault with hquote hpoint
    · subst hquote
      refine ⟨before, after, hsource, ⟨ts, ?_⟩, ?_, congrArg Located.span hfault⟩
      · rw [scan, scanFrom_eq_iff_tokenised, String.toList_ofList]
        exact hbefore
      · exact (split?_eq_none_iff after).mp hno.split?_eq_none
    · cases congrArg Located.cause hfault
    · cases congrArg Located.cause hfault
  · rintro ⟨before, after, hsource, ⟨ts, hbefore⟩, hunclosed, rfl⟩
    rw [scan, scanFrom_eq_iff_tokenised, String.toList_ofList] at hbefore
    rw [scan, scanFrom_eq_iff_tokenised, hsource]
    exact hbefore.append_unclosed rfl
      (hasNoLexeme_of_unclosed ((split?_eq_none_iff after).mpr hunclosed))

/-! ## What texts denote -/

/-- What stands between quotes, read from left to right: an escape of the table stands for its
character, and another one for its own two. -/
inductive Decodes : List Char → List Char → Prop where
  | nil : Decodes [] []
  | plain {c : Char} {inside text : List Char} (h : c ≠ '\\') (more : Decodes inside text) :
      Decodes (c :: inside) (c :: text)
  | escaped {letter c : Char} {inside text : List Char} (h : (letter, c) ∈ escapes)
      (more : Decodes inside text) : Decodes ('\\' :: letter :: inside) (c :: text)
  | unknown {letter : Char} {inside text : List Char} (h : ∀ c, (letter, c) ∉ escapes)
      (more : Decodes inside text) :
      Decodes ('\\' :: letter :: inside) ('\\' :: letter :: text)

theorem mem_escapes_of_escape? {letter c : Char} (h : Quoted.escape? letter = some c) :
    (letter, c) ∈ escapes := by
  unfold Quoted.escape? at h
  split at h
  case h_8 => cases h
  all_goals
    cases h
    decide

theorem IsInside.decodes {inside : List Char} (h : IsInside inside) :
    Decodes inside (Quoted.decode inside) := by
  induction h with
  | nil => exact .nil
  | plain hquote hbackslash hnewline h ih =>
    rw [Quoted.decode]
    · exact .plain hbackslash ih
    · exact fun c rest hc _ => hbackslash hc
  | @escaped c cs hnewline h ih =>
    rw [Quoted.decode]
    split
    case h_1 d hd => exact .escaped (mem_escapes_of_escape? hd) ih
    case h_2 hnone =>
      refine .unknown (fun d hd => ?_) ih
      rw [escape?_of_mem_escapes hd] at hnone
      cases hnone

/-! ## Every text, and every source -/

/-- A text between quotes. -/
def quote (inside : List Char) : String :=
  .ofList ('"' :: (inside ++ ['"']))

theorem toList_quote (inside : List Char) : (quote inside).toList = '"' :: (inside ++ ['"']) :=
  String.toList_ofList

/-- The text can be written between quotes; and however it is written, it is read exactly, and
printed exactly. -/
structure IsWrittenExactly (name text : String) : Prop where
  exists_spells : ∃ inside, Spells inside text.toList
  scan_eq : ∀ inside, Spells inside text.toList → scan name (quote inside) =
    .ok [⟨.string, quote inside, some (.text text), .covering (.start name) (quote inside).toList⟩,
      .atEnd (endOfText name (quote inside))]
  run_eq : ∀ inside sink, Spells inside text.toList →
    run name ("say " ++ quote inside) sink = (Session.fresh sink).write (text ++ "\n")

/-- The tokens of texts in a source are what counting backslashes and decoding escapes say, and a
text that no quote closes is a failure. -/
structure HasExactTexts (name source : String) : Prop where
  exists_decodes : ∀ ts t, scan name source = .ok ts → t ∈ ts → t.kind = .string →
    ∃ before inside after text, source.toList = before ++ ('"' :: (inside ++ '"' :: after)) ∧
      IsClosing inside ∧ Decodes inside text ∧
      t = ⟨.string, quote inside, some (.text (.ofList text)),
        .covering ((Position.start name).advanceOver before) (quote inside).toList⟩
  unclosed_iff : ∀ span, scan name source = .error ⟨.unclosedText, span⟩ ↔
    ∃ before after, source.toList = before ++ '"' :: after ∧
      (∃ ts, scan name (.ofList before) = .ok ts) ∧ IsUnclosed after ∧
      span = .covering ((Position.start name).advanceOver before)
        ('"' :: after.takeWhile (· ≠ '\n'))

theorem isWrittenExactly (name text : String) : IsWrittenExactly name text where
  exists_spells := Spells.exists_spells text.toList
  scan_eq inside h := by
    have hliteral : Denotes .string ('"' :: (inside ++ ['"'])) _ := .text
    rw [h.decode_eq, String.ofList_toList] at hliteral
    rw [scan_word (w := .quoted h.isInside) (toList_quote inside) hliteral, toList_quote]
    rfl
  run_eq inside sink h := by
    have hrenders : (Expr.text text (.empty (.start name))).Renders _ _ := .text h
    have hline : Tight [.quoted h.isInside] (quote inside).toList :=
      toList_quote inside ▸ .last (.quoted h.isInside)
    obtain ⟨ts, program, e, span, hscan, hparse, hstatements, he⟩ :=
      exists_print hrenders hline name
    refine run_eq_write (v := .string text) hscan hparse hstatements ?_
    exact Expr.value_eq_ok_of_unplaced_eq he.symm rfl

theorem hasExactTexts (name source : String) : HasExactTexts name source where
  exists_decodes ts t hscan ht hkind := by
    obtain rfl | ⟨before, lexeme, after, hsource, hof⟩ :=
      (scanFrom_eq_iff_tokenised.mp hscan).exists_isOf rfl ht
    · cases hkind
    obtain ⟨kind, written, literal, place⟩ := t
    obtain rfl : kind = .string := hkind
    obtain ⟨hlexeme, hdenotes, rfl, rfl⟩ := hof
    obtain ⟨hinside⟩ := hlexeme.isQuoted
    obtain rfl := hdenotes.unique .text
    refine ⟨before, _, after, _, ?_, isInside_iff_isClosing.mp hinside, hinside.decodes, ?_⟩
    · rw [hsource]
      simp
    · rw [toList_quote]
      rfl
  unclosed_iff span := scan_eq_unclosedText_iff

/-- Texts in quotes are exact: all of them can be written, and are read as they were written; and
all that is read stands in the source. -/
theorem quoted_texts_are_exact (name : String) :
    (∀ text, IsWrittenExactly name text) ∧ ∀ source, HasExactTexts name source :=
  ⟨isWrittenExactly name, hasExactTexts name⟩

end Peng
