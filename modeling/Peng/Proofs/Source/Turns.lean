import Mathlib.Logic.Relation
import Peng.Token.Scan

/-!
# Turns of the scanner

Scanning takes turns: as long as a character is ahead, one more blank is skipped or one more lexeme
read. `Scanner.turn` is one of them, and `Scanner.Turns` counts those that a scanner takes until it
is done or fails. A turn that does not fail passes at least one character and none that is not there
(`Scanner.Step.advances`), so a source is scanned in at most as many turns as it has characters
(`scanningProgress`).
-/

namespace Peng

/-- A scanner at work: the tokens that it has found, and the characters ahead of its place. -/
structure Scanner where
  found : List Token
  place : Position
  ahead : List Char

namespace Scanner

/-- A scanner in front of a source. -/
def start (name source : String) : Scanner :=
  ⟨[], .start name, source.toList⟩

/-- One turn, in front of the character `c`, with `cs` behind it. -/
def turn (s : Scanner) (c : Char) (cs : List Char) : Except (Located ScanFault) Scanner :=
  if isBlank c then .ok ⟨s.found, s.place.advance c, cs⟩
  else
    match Lexeme.read c cs with
    | .error halt => .error (halt.located s.place)
    | .ok lexeme =>
      .ok ⟨s.found ++ [lexeme.token s.place], s.place.advanceOver lexeme.text, lexeme.rest⟩

/-- A turn that does not fail leads from the one scanner to the other. -/
def Step (s s' : Scanner) : Prop :=
  ∃ c cs, s.ahead = c :: cs ∧ s.turn c cs = .ok s'

/-- Scanning comes from the one scanner to the other. -/
abbrev Reaches : Scanner → Scanner → Prop :=
  Relation.ReflTransGen Step

/-- A scanner takes so many turns, and this comes of it. -/
inductive Turns : Nat → Scanner → Except (Located ScanFault) (List Token) → Prop where
  | done {s : Scanner} (h : s.ahead = []) : Turns 0 s (.ok (s.found ++ [.atEnd s.place]))
  | failed {s : Scanner} {c : Char} {cs : List Char} {fault : Located ScanFault}
      (h : s.ahead = c :: cs) (hturn : s.turn c cs = .error fault) : Turns 1 s (.error fault)
  | turned {n : Nat} {s s' : Scanner} {r : Except (Located ScanFault) (List Token)}
      (h : s.Step s') (more : Turns n s' r) : Turns (n + 1) s r

/-- The scanner has passed some characters, and is at the place behind them. -/
def Passes (s : Scanner) (passed : List Char) (s' : Scanner) : Prop :=
  passed ++ s'.ahead = s.ahead ∧ s'.place = s.place.advanceOver passed

variable {s s' : Scanner} {n m : Nat} {r r' : Except (Located ScanFault) (List Token)}

theorem Passes.offset_eq {passed : List Char} (h : s.Passes passed s') :
    s'.place.offset = s.place.offset + passed.length := by
  rw [h.2, Position.advanceOver_offset]

theorem Passes.length_eq {passed : List Char} (h : s.Passes passed s') :
    passed.length + s'.ahead.length = s.ahead.length := by
  rw [← h.1, List.length_append]

theorem Passes.trans {passed more : List Char} {s'' : Scanner} (h : s.Passes passed s')
    (h' : s'.Passes more s'') : s.Passes (passed ++ more) s'' := by
  obtain ⟨hahead, hplace⟩ := h
  obtain ⟨hahead', hplace'⟩ := h'
  refine ⟨?_, ?_⟩
  · rw [List.append_assoc, hahead', hahead]
  · rw [hplace', hplace, Position.advanceOver_append]

/-- A turn that does not fail passes at least one character. -/
theorem Step.advances (h : s.Step s') : ∃ passed ≠ [], s.Passes passed s' := by
  obtain ⟨c, cs, hahead, hturn⟩ := h
  rw [turn] at hturn
  split at hturn
  case isTrue hblank =>
    cases hturn
    exact ⟨[c], List.cons_ne_nil c [], hahead.symm, rfl⟩
  case isFalse hblank =>
    cases hread : Lexeme.read c cs with
    | error halt =>
      rw [hread] at hturn
      cases hturn
    | ok lexeme =>
      rw [hread] at hturn
      cases hturn
      exact ⟨lexeme.text, lexeme.text_ne_nil, lexeme.text_append_rest.trans hahead.symm, rfl⟩

/-- Any number of turns pass over what was ahead. -/
theorem Reaches.exists_passes (h : s.Reaches s') : ∃ passed, s.Passes passed s' := by
  induction h with
  | refl => exact ⟨[], rfl, rfl⟩
  | tail _ hstep ih =>
    obtain ⟨passed, hpassed⟩ := ih
    obtain ⟨more, -, hmore⟩ := hstep.advances
    exact ⟨passed ++ more, hpassed.trans hmore⟩

/-- Each turn has a character of its own. -/
theorem Turns.le_length (h : Turns n s r) : n ≤ s.ahead.length := by
  induction h with
  | done h => exact Nat.zero_le _
  | failed h hturn => simp [h]
  | turned hstep more ih =>
    obtain ⟨passed, hne, hpassed⟩ := hstep.advances
    have hlength := hpassed.length_eq
    have hpos := List.length_pos_iff.mpr hne
    omega

theorem Step.unique {s'' : Scanner} (h : s.Step s') (h' : s.Step s'') : s' = s'' := by
  obtain ⟨c, cs, hahead, hturn⟩ := h
  obtain ⟨d, ds, hahead', hturn'⟩ := h'
  cases hahead.symm.trans hahead'
  cases hturn.symm.trans hturn'
  rfl

/-- Nothing is left open by the turns, neither how many they are nor what comes of them. -/
theorem Turns.unique (h : Turns n s r) (h' : Turns m s r') : n = m ∧ r = r' := by
  -- what is ahead, and what comes of the next turn, leave one way to go on
  induction h generalizing m r' with
  | done h =>
    cases h' with
    | done => exact ⟨rfl, rfl⟩
    | failed h' => cases h.symm.trans h'
    | turned hstep =>
      obtain ⟨c, cs, h', -⟩ := hstep
      cases h.symm.trans h'
  | failed h hturn =>
    cases h' with
    | done h' => cases h.symm.trans h'
    | failed h' hturn' =>
      cases h.symm.trans h'
      cases hturn.symm.trans hturn'
      exact ⟨rfl, rfl⟩
    | turned hstep =>
      obtain ⟨c, cs, h', hturn'⟩ := hstep
      cases h.symm.trans h'
      cases hturn.symm.trans hturn'
  | turned hstep more ih =>
    cases h' with
    | done h' =>
      obtain ⟨c, cs, h, -⟩ := hstep
      cases h.symm.trans h'
    | failed h' hturn' =>
      obtain ⟨c, cs, h, hturn⟩ := hstep
      cases h.symm.trans h'
      cases hturn.symm.trans hturn'
    | turned hstep' more' =>
      cases hstep.unique hstep'
      obtain ⟨rfl, rfl⟩ := ih more'
      exact ⟨rfl, rfl⟩

section Scanning

variable (found : List Token) (p : Position)

theorem step_of_blank {c : Char} (hblank : isBlank c) (cs : List Char) :
    Step ⟨found, p, c :: cs⟩ ⟨found, p.advance c, cs⟩ :=
  ⟨c, cs, rfl, by rw [turn, if_pos hblank]⟩

theorem step_of_read {c : Char} {cs : List Char} {lexeme : Lexeme (c :: cs)}
    (hblank : ¬ isBlank c) (hread : Lexeme.read c cs = .ok lexeme) :
    Step ⟨found, p, c :: cs⟩
      ⟨found ++ [lexeme.token p], p.advanceOver lexeme.text, lexeme.rest⟩ :=
  ⟨c, cs, rfl, by rw [turn, if_neg hblank, hread]⟩

/-- Taking turns gives the tokens of what is ahead, behind those that were found before. -/
theorem exists_turns (cs : List Char) :
    ∃ n, Turns n ⟨found, p, cs⟩ ((scanFrom p cs).map (found ++ ·)) := by
  fun_induction scanFrom p cs generalizing found with
  | case1 p => exact ⟨0, .done rfl⟩
  | case2 p c cs hblank ih =>
    obtain ⟨n, hn⟩ := ih found
    exact ⟨n + 1, .turned (step_of_blank found p hblank cs) hn⟩
  | case3 p c cs hblank halt hread =>
    have hturn : turn ⟨found, p, c :: cs⟩ c cs = .error (halt.located p) := by
      rw [turn, if_neg hblank, hread]
    exact ⟨1, .failed rfl hturn⟩
  | case4 p c cs hblank lexeme hread tokens htokens ih =>
    obtain ⟨n, hn⟩ := ih (found ++ [lexeme.token p])
    refine ⟨n + 1, .turned (step_of_read found p hblank hread) ?_⟩
    simpa [htokens, Except.map] using hn
  | case5 p c cs hblank lexeme hread fault hfault ih =>
    obtain ⟨n, hn⟩ := ih (found ++ [lexeme.token p])
    rw [hfault] at hn
    exact ⟨n + 1, .turned (step_of_read found p hblank hread) hn⟩

end Scanning

end Scanner

open Scanner

/-- Scanning a source gets on with every turn, and comes to an end. -/
structure ScanningProgress (name source : String) : Prop where
  /-- Wherever scanning has come to, what is behind it and what is ahead make up the source. -/
  within_source : ∀ s, Reaches (.start name source) s →
    ∃ passed, passed ++ s.ahead = source.toList ∧ s.place = (Position.start name).advanceOver passed
  /-- A turn that does not fail goes forward, and not past the end. -/
  turn_advances : ∀ s s', Reaches (.start name source) s → s.Step s' →
    s.place.offset < s'.place.offset ∧ s'.place.offset ≤ source.length
  /-- Scanning is taking turns, one for each character at most. -/
  turns_le : ∃ n ≤ source.length, Turns n (.start name source) (scan name source)
  /-- There are no other turns to take. -/
  turns_unique : ∀ n m r r', Turns n (.start name source) r → Turns m (.start name source) r' →
    n = m ∧ r = r'

theorem scanningProgress (name source : String) : ScanningProgress name source where
  within_source s h := h.exists_passes
  turn_advances s s' h hstep := by
    obtain ⟨passed, hpassed⟩ := Reaches.exists_passes (h.tail hstep)
    obtain ⟨more, hne, hmore⟩ := hstep.advances
    have hoffset := hmore.offset_eq
    have hpos := List.length_pos_iff.mpr hne
    have hend : s'.place.offset + s'.ahead.length = source.length := by
      rw [hpassed.offset_eq, ← String.length_toList]
      have hlength := hpassed.length_eq
      simp only [start, Position.start] at hlength ⊢
      omega
    omega
  turns_le := by
    obtain ⟨n, hn⟩ := exists_turns [] (.start name) source.toList
    have hscan : (scanFrom (.start name) source.toList).map ([] ++ ·) = scan name source := by
      rw [scan]
      cases scanFrom (.start name) source.toList <;> rfl
    refine ⟨n, ?_, hscan ▸ hn⟩
    rw [← String.length_toList]
    exact hn.le_length
  turns_unique _ _ _ _ := Turns.unique

end Peng
