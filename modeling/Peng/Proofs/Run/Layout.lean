import Peng.Proofs.Run.Saying

/-!
# Layout and names

How a source is laid out, and what it is called, has no part in what it does.
`layout_and_name_are_inert`: a source whose lexemes are put between other blanks, under another
name, has the same tokens, is the same program and does the same when it runs. Only places differ,
and where the layout is the same they differ in the name of the source alone.

## Shape of the proof

A lexeme is still the longest behind other blanks, for the next character is a blank now or is the
one that it was (`Respaced.next`); so scanning finds the same lexemes (`Respaced.exists_tokenised`).
From there on nothing looks at places, and tokens that are the same apart from them lead to programs
and outcomes that are the same apart from them (`SameTokens.sameParse`, `SameParse.sameOutcome`).
-/

namespace Peng

/-! ## Other blanks between the lexemes -/

/-- Two texts with the same lexemes in the same order, and blanks between and around them. Blanks
that part two lexemes are blanks again, in any number; where there are none, there may be some.
`behind` says that a lexeme stands directly before the texts. -/
inductive Respaced : Bool → List String → List Char → List Char → Prop where
  | done {behind : Bool} {gap gap' : List Char} (hgap : IsGap gap) (hgap' : IsGap gap') :
      Respaced behind [] gap gap'
  | lexeme {behind : Bool} {w : String} {ws : List String} {gap gap' rest rest' : List Char}
      (hgap : IsGap gap) (hgap' : IsGap gap') (hparts : behind → gap ≠ [] → gap' ≠ [])
      (more : Respaced true ws rest rest') :
      Respaced behind (w :: ws) (gap ++ (w.toList ++ rest)) (gap' ++ (w.toList ++ rest'))

/-- The same token with its span at one place. -/
def Token.unplaced (t : Token) : Token :=
  t.relocate fun _ => .start ""

/-- The tokens are of the same kinds, with the same lexemes and literals. -/
def SameTokens (ts ts' : List Token) : Prop :=
  ts'.map Token.unplaced = ts.map Token.unplaced

theorem IsLongest.not_isLexeme_concat {kind kind' : Token.Kind} {text more : List Char} {c : Char}
    (h : IsLongest kind text (c :: more)) : ¬ IsLexeme kind' (text ++ [c]) := by
  intro h'
  have hlength := h.length_le kind' (text ++ [c]) more h' (by simp)
  rw [List.length_append, List.length_singleton] at hlength
  omega

/-- A lexeme is the longest as well where the next character is the same, or a blank. -/
theorem IsLongest.of_next {kind : Token.Kind} {text rest rest' : List Char}
    (h : IsLongest kind text rest)
    (hnext : ∀ c ∈ rest'.head?, (c = ' ' ∨ c = '\t') ∨ c ∈ rest.head?) :
    IsLongest kind text rest' := by
  apply h.isLexeme.isLongest_of_next
  rintro c more rfl kind'
  obtain hblank | hsame := hnext c rfl
  · have hlongest : IsLongest kind text (c :: more) :=
      h.isLexeme.isLongest_of_blank fun d hd => Option.some.inj hd ▸ hblank
    exact hlongest.not_isLexeme_concat
  · obtain ⟨others, rfl⟩ := List.head?_eq_some_iff.mp hsame
    exact h.not_isLexeme_concat

namespace Tokenised

variable {p : Position} {behind : Option Token.Kind} {r : Except (Located ScanFault) (List Token)}

/-- What is behind a gap is tokenised as the whole is. -/
theorem of_gap_append {gap cs : List Char} (hgap : IsGap gap)
    (h : Tokenised p behind (gap ++ cs) r) :
    ∃ behind', Tokenised (p.advanceOver gap) behind' cs r := by
  induction gap generalizing p behind with
  | nil => exact ⟨behind, h⟩
  | cons c gap ih =>
    obtain ⟨hc, hgap⟩ := List.forall_mem_cons.mp hgap
    generalize hcs : c :: gap ++ cs = all at h
    cases h with
    | done => cases hcs
    | blank _ more =>
      cases hcs
      exact ih hgap more
    | lexeme hlongest => exact absurd hc (hlongest.isLexeme.not_isBlank hcs.symm)
    | stuck hc' =>
      cases hcs
      exact absurd hc hc'

/-- A text that begins with the lexeme of its first token goes on with the others. -/
theorem of_lexeme_append {kind : Token.Kind} {text rest : List Char} {t : Token} {ts : List Token}
    (hlexeme : IsLexeme kind text) (htext : t.lexeme = .ofList text)
    (h : Tokenised p behind (text ++ rest) (.ok (t :: ts))) :
    IsLongest t.kind text rest ∧ Denotes t.kind text t.literal ∧
      Tokenised (p.advanceOver text) (some t.kind) rest (.ok ts) := by
  generalize hcs : text ++ rest = cs at h
  generalize hr : Except.ok (t :: ts) = r at h
  cases h with
  | done => exact absurd (List.append_eq_nil_iff.mp hcs).1 hlexeme.ne_nil
  | blank hc => exact absurd hc (hlexeme.not_isBlank hcs)
  | @lexeme _ _ kind' text' rest' literal r hlongest hliteral more =>
    rcases r with fault | us
    · cases hr
    · cases hr
      obtain rfl : text' = text := String.ofList_injective htext
      obtain rfl := List.append_cancel_left hcs
      exact ⟨hlongest, hliteral, more⟩
  | stuck => cases hr

end Tokenised

namespace Respaced

variable {behind : Bool} {ws : List String} {cs cs' : List Char}

/-- Behind a lexeme the next character is a blank or is the one that it was. -/
theorem next (h : Respaced true ws cs cs') (hws : ∀ w ∈ ws, w.toList ≠ []) :
    ∀ c ∈ cs'.head?, (c = ' ' ∨ c = '\t') ∨ c ∈ cs.head? := by
  intro c hc
  cases h with
  | done hgap hgap' => exact .inl (hgap' c (List.mem_of_mem_head? hc))
  | @lexeme _ w ws gap gap' rest rest' hgap hgap' hparts more =>
    cases gap' with
    | cons d gap' =>
      cases hc
      exact .inl (hgap' _ List.mem_cons_self)
    | nil =>
      have hnone : gap = [] := by
        by_contra hsome
        exact hparts rfl hsome rfl
      obtain ⟨d, more, hw⟩ := List.exists_cons_of_ne_nil (hws w List.mem_cons_self)
      rw [hw] at hc
      rw [hnone, hw]
      exact .inr hc

/-- Scanning finds the same lexemes between other blanks. -/
theorem exists_tokenised (h : Respaced behind ws cs cs') {p : Position} {before : Option Token.Kind}
    {ts : List Token} {last : Token} (hts : Tokenised p before cs (.ok (ts ++ [last])))
    (hlexemes : ts.map Token.lexeme = ws) (hws : ∀ w ∈ ws, ∃ kind, IsLexeme kind w.toList)
    (p' : Position) (before' : Option Token.Kind) :
    ∃ ts', Tokenised p' before' cs' (.ok ts') ∧ SameTokens (ts ++ [last]) ts' := by
  induction h generalizing p before ts p' before' with
  | @done _ gap gap' hgap hgap' =>
    have hdone := Tokenised.gap_append (p := p) hgap (fun _ => .done) before
    have hdone' := Tokenised.gap_append (p := p') hgap' (fun _ => .done) before'
    rw [List.append_nil] at hdone hdone'
    have hend := hts.unique hdone
    obtain rfl := List.map_eq_nil_iff.mp hlexemes
    cases hend
    exact ⟨_, hdone', rfl⟩
  | @lexeme _ w ws gap gap' rest rest' hgap hgap' hparts more ih =>
    obtain ⟨t, ts, rfl, rfl, hmore⟩ := List.map_eq_cons_iff.mp hlexemes
    obtain ⟨⟨kind, hkind⟩, hws⟩ := List.forall_mem_cons.mp hws
    obtain ⟨before, hts⟩ := hts.of_gap_append hgap
    obtain ⟨hlongest, hdenotes, hrest⟩ := hts.of_lexeme_append hkind String.ofList_toList.symm
    have hnext := more.next fun w hw => (hws w hw).elim fun _ h => h.ne_nil
    obtain ⟨ts', hts', hsame⟩ := ih hrest hmore hws
      ((p'.advanceOver gap').advanceOver t.lexeme.toList) (some t.kind)
    have hall := Tokenised.gap_append (p := p') hgap'
      (fun _ => .lexeme (hlongest.of_next hnext) hdenotes hts') before'
    refine ⟨_, hall, congrArg₂ List.cons ?_ hsame⟩
    rw [Token.unplaced, Token.relocate, String.ofList_toList]
    rfl

end Respaced

/-- A text that is scanned consists of its lexemes, with blanks between and around them. -/
theorem Scanned.respaced {p : Position} {cs : List Char} {ts : List Token} (h : Scanned p cs ts)
    (behind : Bool) : Respaced behind (ts.dropLast.map Token.lexeme) cs cs := by
  have isGap {gap : List Char} (hgap : ∀ c ∈ gap, isBlank c) : IsGap gap := by
    simpa [IsGap, isBlank] using hgap
  induction h generalizing behind with
  | done hgap => exact .done (isGap hgap) (isGap hgap)
  | @token p gap text rest t ts hgap ht htext more ih =>
    have hts : ts ≠ [] := by
      rintro rfl
      cases more
    have htext : t.lexeme.toList = text := by rw [ht.lexeme_eq, String.toList_ofList]
    rw [List.dropLast_cons_of_ne_nil hts, List.append_assoc, ← htext]
    exact .lexeme (isGap hgap) (isGap hgap) (fun _ => id) (ih true)

/-! ## The same program -/

/-- Both are programs of the same statements, apart from their places, or both fail for the same
reason. -/
inductive SameParse : Except (Located SyntaxFault) Program →
    Except (Located SyntaxFault) Program → Prop where
  | ok {program program' : Program}
      (h : program'.statements.map Statement.unplaced = program.statements.map Statement.unplaced) :
      SameParse (.ok program) (.ok program')
  | error {fault fault' : Located SyntaxFault} (h : fault'.cause = fault.cause) :
      SameParse (.error fault) (.error fault')

theorem Reader.sameParse {r r' : Reader}
    (h : r'.relocate (fun _ => .start "") = r.relocate fun _ => .start "") :
    SameParse r.readProgram.1 r'.readProgram.1 := by
  have hr := r.readProgram_relocate (f := fun _ => .start "")
  have hr' := r'.readProgram_relocate (f := fun _ => .start "")
  rw [h, hr] at hr'
  revert hr'
  rcases r.readProgram.1 with fault | program <;> rcases r'.readProgram.1 with fault' | program'
  · intro h
    exact .error (congrArg Located.cause (Except.error.inj h)).symm
  · rintro ⟨⟩
  · rintro ⟨⟩
  · intro h
    exact .ok (congrArg Program.statements (Except.ok.inj h)).symm

theorem SameTokens.sameParse {ts ts' : List Token} {last last' : Token}
    (h : SameTokens (ts ++ [last]) (ts' ++ [last'])) (hts : ∀ t ∈ ts, t.kind ≠ .endOfInput)
    (hlast : last.kind = .endOfInput) (hts' : ∀ t ∈ ts', t.kind ≠ .endOfInput)
    (hlast' : last'.kind = .endOfInput) :
    SameParse (parse (ts ++ [last])) (parse (ts' ++ [last'])) := by
  rw [SameTokens, List.map_append, List.map_append] at h
  obtain ⟨hahead, hend⟩ := List.append_inj' h rfl
  have hend : last'.unplaced = last.unplaced := List.singleton_inj.mp hend
  rw [parse, parse, Reader.ofTokens_concat hts hlast, Reader.ofTokens_concat hts' hlast']
  exact Reader.sameParse (congrArg₂ Reader.mk hahead hend)

/-! ## The same outcome -/

/-- What is told of the end of a run, apart from the place: the kind of the fault, the message and
the scope. -/
def Stop.told : Stop → Option (FaultKind × String × Option String)
  | .fault f => some (f.cause.kind, f.cause.message, f.cause.scope?)
  | .sinkFull => none

/-- Both runs leave the same session, and both complete or tell the same. -/
structure SameOutcome (o o' : Outcome) : Prop where
  session_eq : o'.session = o.session
  told_eq : o'.stop.map Stop.told = o.stop.map Stop.told

theorem Stop.told_relocate (f : Position → Position) (stop : Stop) :
    (stop.relocate f).told = stop.told := by
  cases stop <;> rfl

/-- Outcomes that are the same once they are moved differ in places only. -/
theorem SameOutcome.of_relocate {f : Position → Position} {o o' : Outcome}
    (h : o'.relocate f = o.relocate f) : SameOutcome o o' := by
  have told_stop (o : Outcome) : (o.relocate f).stop.map Stop.told = o.stop.map Stop.told := by
    rw [Outcome.relocate, Option.map_map]
    exact congrArg (Option.map · o.stop) (funext (Stop.told_relocate f))
  refine ⟨(Outcome.mk.inj h).1, ?_⟩
  rw [← told_stop o', h, told_stop]

theorem SameParse.sameOutcome {name name' source source' : String} {ts ts' : List Token}
    (hts : scan name source = .ok ts) (hts' : scan name' source' = .ok ts')
    (h : SameParse (parse ts) (parse ts')) (s : Session) :
    SameOutcome (s.runSource name source) (s.runSource name' source') := by
  generalize hparse : parse ts = r at h
  generalize hparse' : parse ts' = r' at h
  cases h with
  | ok h =>
    rw [Session.runSource_of_parse_ok hts hparse, Session.runSource_of_parse_ok hts' hparse']
    apply SameOutcome.of_relocate (f := fun _ => .start "")
    rw [← Session.runStatements_relocate, ← Session.runStatements_relocate]
    exact congrArg s.runStatements h
  | error h =>
    rw [Session.runSource_of_parse_error hts hparse, Session.runSource_of_parse_error hts' hparse']
    refine ⟨rfl, ?_⟩
    simp only [Session.stopFor, Option.map_some, Stop.told, Located.map, h]

/-! ## Another name -/

/-- The same place in a source of that name. -/
def Position.within (name : String) (p : Position) : Position :=
  ⟨name, p.offset, p.line, p.column⟩

theorem Position.within_advance (name : String) (p : Position) (c : Char) :
    (p.advance c).within name = (p.within name).advance c := by
  unfold advance
  split <;> rfl

theorem Reader.ofTokens_relocate {name source : String} {ts : List Token}
    (hts : scan name source = .ok ts) (f : Position → Position) :
    ofTokens (ts.map (Token.relocate f)) = (ofTokens ts).relocate f := by
  obtain ⟨ahead, rfl, hahead⟩ := scan_ok hts
  have hmoved : ∀ t ∈ ahead.map (Token.relocate f), t.kind ≠ .endOfInput := by
    intro t ht
    obtain ⟨u, hu, rfl⟩ := List.mem_map.mp ht
    exact hahead u hu
  rw [List.map_append, List.map_singleton, ofTokens_concat hahead rfl, ofTokens_concat hmoved rfl]
  rfl

/-- The places of a run are in the source of its name, and nothing else comes of the name. -/
theorem Session.runSource_rename (s : Session) (name name' source : String) :
    s.runSource name' source = (s.runSource name source).relocate (.within name') := by
  have hscan : scan name' source = _ :=
    scanFrom_relocate (Position.within_advance name') (.start name) source.toList
  rw [← scan] at hscan
  rcases hts : scan name source with fault | ts
  · rw [hts] at hscan
    rw [runSource_of_scan_error hts, runSource_of_scan_error hscan]
    rfl
  · rw [hts] at hscan
    have hparse := (Reader.ofTokens ts).readProgram_relocate (f := .within name')
    rw [← Reader.ofTokens_relocate hts, ← parse, ← parse] at hparse
    rcases hprogram : parse ts with fault | program
    · rw [hprogram] at hparse
      rw [runSource_of_parse_error hts hprogram, runSource_of_parse_error hscan hparse]
      rfl
    · rw [hprogram] at hparse
      rw [runSource_of_parse_ok hts hprogram, runSource_of_parse_ok hscan hparse]
      exact s.runStatements_relocate program.statements

/-! ## Layout and name -/

/-- The second source, under its name, is the same program as the first, and does the same. -/
structure SameButForPlaces (name source name' source' : String) : Prop where
  /-- It has the same tokens, which make up the same program or none for the same reason. -/
  exists_tokens : ∃ ts ts', scan name source = .ok ts ∧ scan name' source' = .ok ts' ∧
    SameTokens ts ts' ∧ SameParse (parse ts) (parse ts')
  /-- It writes the same, and completes or tells the same. -/
  sameOutcome : ∀ sink, SameOutcome (run name source sink) (run name' source' sink)

theorem Respaced.sameButForPlaces {name source : String} {ts : List Token} {last : Token}
    (hscan : scan name source = .ok (ts ++ [last])) {source' : String}
    (h : Respaced false (ts.map Token.lexeme) source.toList source'.toList) (name' : String) :
    SameButForPlaces name source name' source' := by
  obtain ⟨ahead, htokens, hahead⟩ := scan_ok hscan
  obtain ⟨rfl, hlast⟩ := List.append_inj' htokens rfl
  obtain rfl := List.singleton_inj.mp hlast
  have hts := scanFrom_eq_iff_tokenised.mp hscan
  have hlexemes : ∀ w ∈ ts.map Token.lexeme, ∃ kind, IsLexeme kind w.toList := by
    intro w hw
    obtain ⟨t, ht, rfl⟩ := List.mem_map.mp hw
    obtain rfl | ⟨before, text, after, -, hof⟩ := hts.exists_isOf rfl (List.mem_append_left _ ht)
    · exact absurd rfl (hahead _ ht)
    · exact ⟨t.kind, by rw [hof.lexeme_eq, String.toList_ofList]; exact hof.isLexeme⟩
  obtain ⟨ts', hts', hsame⟩ := h.exists_tokenised hts rfl hlexemes (.start name') none
  have hscan' : scan name' source' = .ok ts' := scanFrom_eq_iff_tokenised.mpr hts'
  obtain ⟨ahead', rfl, hahead'⟩ := scan_ok hscan'
  have hparse := hsame.sameParse hahead rfl hahead' rfl
  exact ⟨⟨_, _, hscan, hscan', hsame, hparse⟩, fun sink => hparse.sameOutcome hscan hscan' _⟩

/-- Neither the blanks between the lexemes of a source nor its name have a part in what it does. A
source that can be scanned consists of its lexemes and blanks, and with other blanks, under any
name, it is the same but for places. Under another name alone, and whether it can be scanned or not,
its outcome is the same but for the name in places. -/
theorem layout_and_name_are_inert (name source name' : String) :
    (∀ ts last, scan name source = .ok (ts ++ [last]) →
      Respaced false (ts.map Token.lexeme) source.toList source.toList ∧
      ∀ source', Respaced false (ts.map Token.lexeme) source.toList source'.toList →
        SameButForPlaces name source name' source') ∧
    ∀ sink, run name' source sink = (run name source sink).relocate (.within name') := by
  refine ⟨fun ts last hscan => ⟨?_, fun source' h => h.sameButForPlaces hscan name'⟩, ?_⟩
  · have hlexemes := (Scanned.of_scanFrom hscan).respaced false
    rwa [List.dropLast_concat] at hlexemes
  · exact fun sink => (Session.fresh sink).runSource_rename name name' source

/-- A sum of a number and a name without a value, on a line with more blanks. -/
theorem layout_and_name_are_inert_at_sum :
    ∃ ts last, scan "a.peng" "say 1+x\n" = .ok (ts ++ [last]) ∧
      Respaced false (ts.map Token.lexeme) "say 1+x\n".toList "\tsay  1 + x \n".toList ∧
      SameButForPlaces "a.peng" "say 1+x\n" "b.peng" "\tsay  1 + x \n" := by
  have hlexemes : ((scan "a.peng" "say 1+x\n").toOption.map fun ts =>
      ts.dropLast.map Token.lexeme) = some ["say", "1", "+", "x", "\n"] := by
    decide +kernel
  cases hscan : scan "a.peng" "say 1+x\n" with
  | error fault =>
    rw [hscan] at hlexemes
    cases hlexemes
  | ok tokens =>
    obtain ⟨ts, rfl, -⟩ := scan_ok hscan
    rw [hscan] at hlexemes
    have hlexemes : ts.map Token.lexeme = ["say", "1", "+", "x", "\n"] := by
      simpa [Except.toOption] using hlexemes
    have hrespaced : Respaced false (ts.map Token.lexeme) "say 1+x\n".toList
        "\tsay  1 + x \n".toList := by
      have blank {gap : List Char} (h : gap.all isBlank) : IsGap gap := by
        simpa [IsGap, isBlank] using h
      have hend : Respaced true ["\n"] ([] ++ ("\n".toList ++ [])) ([' '] ++ ("\n".toList ++ [])) :=
        .lexeme (blank rfl) (blank rfl) (by simp) (.done (blank rfl) (blank rfl))
      have hname : Respaced true ("x" :: _) ([] ++ ("x".toList ++ _))
          ([' '] ++ ("x".toList ++ _)) := .lexeme (blank rfl) (blank rfl) (by simp) hend
      have hplus : Respaced true ("+" :: _) ([] ++ ("+".toList ++ _))
          ([' '] ++ ("+".toList ++ _)) := .lexeme (blank rfl) (blank rfl) (by simp) hname
      have hone : Respaced true ("1" :: _) ([' '] ++ ("1".toList ++ _))
          ([' ', ' '] ++ ("1".toList ++ _)) := .lexeme (blank rfl) (blank rfl) (by simp) hplus
      have hsay : Respaced false ("say" :: _) ([] ++ ("say".toList ++ _))
          (['\t'] ++ ("say".toList ++ _)) := .lexeme (blank rfl) (blank rfl) (by simp) hone
      rw [hlexemes]
      exact hsay
    exact ⟨ts, _, rfl, hrespaced,
      ((layout_and_name_are_inert "a.peng" "say 1+x\n" "b.peng").1 ts _ hscan).2 _ hrespaced⟩

end Peng
