import Peng.Proofs.Source.Newline
import Peng.Proofs.Source.Relocation

/-!
# Sources line by line

A source is scanned and parsed as its lines are, one by one:

* it can be scanned if all of its lines can, and the fault is otherwise that of the first line
  that cannot (`scan_intercalate_error`),
* it can then be parsed if all of its lines can, and the fault is otherwise that of the first
  line that cannot (`parse_intercalate_error`).

A fault stands in the source where the lines before have moved it to (`Position.below`). One
that blames the end of its line is told of the newline there (`Located.followedBy`).
-/

namespace Peng

/-! ## Lines -/

/-- The text has no newline in it. -/
def IsLine (line : String) : Prop :=
  '\n' ∉ line.toList

/-- What stands before, between and behind the newlines of a source. -/
def sourceLines (source : String) : List String :=
  (source.toList.splitOn '\n').map String.ofList

theorem sourceLines_ne_nil (source : String) : sourceLines source ≠ [] := by
  simp [sourceLines]

theorem intercalate_sourceLines (source : String) :
    "\n".intercalate (sourceLines source) = source := by
  apply String.toList_inj.mp
  rw [String.toList_intercalate, sourceLines, List.map_map]
  have hid : String.toList ∘ String.ofList = id := funext fun _ => String.toList_ofList
  rw [hid, List.map_id]
  exact List.intercalate_splitOn '\n'

example : sourceLines "say 1\n\nsay 2" = ["say 1", "", "say 2"] := by decide

/-- No piece has the character that a list was split at. -/
theorem not_mem_of_mem_splitOn {c : Char} {cs piece : List Char} (h : piece ∈ cs.splitOn c) :
    c ∉ piece := by
  induction cs generalizing piece with
  | nil =>
    rw [List.splitOn_nil, List.mem_singleton] at h
    simp [h]
  | cons d cs ih =>
    rw [List.splitOn_cons_eq_if_modifyHead] at h
    split at h
    case isTrue =>
      obtain rfl | h := List.mem_cons.mp h
      · simp
      · exact ih h
    case isFalse hd =>
      obtain ⟨first, more, hsplit⟩ := List.exists_cons_of_ne_nil (List.splitOn_ne_nil c cs)
      rw [hsplit, List.modifyHead_cons] at h
      rw [hsplit] at ih
      obtain rfl | h := List.mem_cons.mp h
      · have hfirst := ih List.mem_cons_self
        have hne : ¬ c = d := fun hcd => hd (by simp [hcd])
        simp [hne, hfirst]
      · exact ih (List.mem_cons_of_mem _ h)

theorem isLine_of_mem_sourceLines {source line : String} (h : line ∈ sourceLines source) :
    IsLine line := by
  obtain ⟨piece, hpiece, rfl⟩ := List.mem_map.mp h
  rw [IsLine, String.toList_ofList]
  exact not_mem_of_mem_splitOn hpiece

/-! ## Places -/

namespace Position

/-- How many characters the lines take, with the newline behind each. -/
def charactersOf : List String → Nat
  | [] => 0
  | line :: lines => line.length + 1 + charactersOf lines

/-- The place that corresponds to `p` when the lines `before` are put in front. -/
def below (before : List String) (p : Position) : Position :=
  ⟨p.source, p.offset + charactersOf before, p.line + before.length, p.column⟩

theorem below_nil : below [] = id := rfl

theorem below_cons (line : String) (before : List String) :
    below (line :: before) = below [line] ∘ below before := by
  funext p
  simp only [below, Function.comp_apply, charactersOf, List.length_cons, List.length_nil,
    Position.mk.injEq, true_and, and_true]
  omega

theorem below_advance (before : List String) (p : Position) (c : Char) :
    below before (p.advance c) = (below before p).advance c := by
  unfold advance
  split <;> simp only [below, Position.mk.injEq, true_and, and_true] <;> omega

theorem advanceOver_of_not_mem {cs : List Char} (h : '\n' ∉ cs) (p : Position) :
    p.advanceOver cs = ⟨p.source, p.offset + cs.length, p.line, p.column + cs.length⟩ := by
  induction cs generalizing p with
  | nil => rfl
  | cons c cs ih =>
    have hc := (List.ne_of_not_mem_cons h).symm
    rw [advanceOver_cons, ih (List.not_mem_of_not_mem_cons h), advance, if_neg hc,
      List.length_cons]
    simp only [Position.mk.injEq, true_and]
    omega

/-- Behind the newline of a line everything is below that line. -/
theorem advance_newline {line : String} (h : IsLine line) (name : String) :
    ((start name).advanceOver line.toList).advance '\n' = below [line] (start name) := by
  rw [advanceOver_of_not_mem h, advance, if_pos rfl]
  simp [below, start, charactersOf, Nat.add_comm, String.length_toList]

end Position

section Relocation

variable {f g : Position → Position}

theorem Located.relocate_id {ε : Type} (l : Located ε) : l.relocate id = l := rfl

theorem Located.relocate_relocate {ε : Type} (l : Located ε) :
    (l.relocate g).relocate f = l.relocate (f ∘ g) := rfl

theorem Stop.relocate_id (stop : Stop) : stop.relocate id = stop := by
  cases stop <;> rfl

theorem Stop.relocate_relocate (stop : Stop) :
    (stop.relocate g).relocate f = stop.relocate (f ∘ g) := by
  cases stop <;> rfl

end Relocation

/-! ## Scanning -/

/-- The place at the end of a text that a source begins with. -/
def endOfText (name text : String) : Position :=
  (Position.start name).advanceOver text.toList

variable {name line rest : String} {before after : List String}

theorem scan_append_newline (h : IsLine line) (name rest : String) :
    scan name (line ++ "\n" ++ rest) =
      match scan name line, scan name rest with
      | .error fault, _ => .error fault
      | .ok _, .error fault => .error (fault.relocate (.below [line]))
      | .ok ts, .ok us =>
        .ok (ts.dropLast ++ .newlineAt (endOfText name line) ::
          us.map (Token.relocate (.below [line]))) := by
  have htext : (line ++ "\n" ++ rest).toList = line.toList ++ '\n' :: rest.toList := by simp
  rw [scan, htext, scanFrom_append_newline, Position.advance_newline h,
    scanFrom_relocate (Position.below_advance [line])]
  simp only [scan, endOfText]
  cases scanFrom (.start name) line.toList with
  | error fault => rfl
  | ok ts => cases scanFrom (.start name) rest.toList <;> rfl

/-- The tokens of a source that has the tokens `us` behind its first line. -/
def lineTokens (name line : String) (ts us : List Token) : List Token :=
  ts.dropLast ++ .newlineAt (endOfText name line) :: us.map (Token.relocate (.below [line]))

theorem scan_eq_lineTokens (h : IsLine line) {ts us : List Token} (hts : scan name line = .ok ts)
    (hus : scan name rest = .ok us) :
    scan name (line ++ "\n" ++ rest) = .ok (lineTokens name line ts us) := by
  rw [scan_append_newline h, hts, hus]
  rfl

/-- The lines can all be scanned. -/
def ScanAll (name : String) (lines : List String) : Prop :=
  ∀ line ∈ lines, IsLine line ∧ ∃ ts, scan name line = .ok ts

theorem exists_scan_intercalate {lines : List String} (hlines : lines ≠ [])
    (h : ScanAll name lines) : ∃ ts, scan name ("\n".intercalate lines) = .ok ts := by
  induction lines with
  | nil => exact absurd rfl hlines
  | cons line more ih =>
    obtain ⟨⟨hline, ts, hts⟩, hmore⟩ := List.forall_mem_cons.mp h
    cases more with
    | nil =>
      rw [String.intercalate_singleton]
      exact ⟨ts, hts⟩
    | cons next more =>
      obtain ⟨us, hus⟩ := ih (List.cons_ne_nil _ _) hmore
      rw [String.intercalate_cons_cons]
      exact ⟨lineTokens name line ts us, scan_eq_lineTokens hline hts hus⟩

/-- A source whose first line that cannot be scanned is `line`. -/
theorem scan_intercalate_error (hbefore : ScanAll name before) (hline : IsLine line)
    {fault : Located ScanFault} (h : scan name line = .error fault) (after : List String) :
    scan name ("\n".intercalate (before ++ line :: after)) =
      .error (fault.relocate (.below before)) := by
  induction before with
  | nil =>
    rw [Position.below_nil, Located.relocate_id, List.nil_append]
    cases after with
    | nil => rw [String.intercalate_singleton, h]
    | cons next after => rw [String.intercalate_cons_cons, scan_append_newline hline, h]
  | cons first before ih =>
    obtain ⟨⟨hfirst, ts, hts⟩, hbefore⟩ := List.forall_mem_cons.mp hbefore
    rw [List.cons_append, String.intercalate_cons_of_ne_nil (by simp),
      scan_append_newline hfirst, hts, ih hbefore]
    simp only [Located.relocate_relocate, ← Position.below_cons]

/-! ## Parsing -/

/-- Nothing behind an end of the input is looked at. -/
theorem Reader.ofTokens_append_cons {ahead : List Token} {last : Token}
    (h : ∀ t ∈ ahead, t.kind ≠ .endOfInput) (hlast : last.kind = .endOfInput)
    (behind : List Token) : ofTokens (ahead ++ last :: behind) = ⟨ahead, last⟩ := by
  have hahead : (ofTokens (ahead ++ last :: behind)).ahead = ahead := by
    rw [ahead_ofTokens_append h]
    simp [ofTokens, hlast]
  have hend : endOf (ahead ++ last :: behind) = last := by
    have hnone : ahead.find? (·.kind = .endOfInput) = none := by simpa using h
    simp [endOf, List.find?_append, hnone, hlast]
  rw [ofTokens, hend]
  exact congrArg (Reader.mk · last) hahead

theorem Reader.ofTokens_concat {ahead : List Token} {last : Token}
    (h : ∀ t ∈ ahead, t.kind ≠ .endOfInput) (hlast : last.kind = .endOfInput) :
    ofTokens (ahead ++ [last]) = ⟨ahead, last⟩ :=
  ofTokens_append_cons h hlast []

theorem scan_ok {source : String} {ts : List Token} (h : scan name source = .ok ts) :
    ∃ ahead, ts = ahead ++ [.atEnd (endOfText name source)] ∧
      ∀ t ∈ ahead, t.kind ≠ .endOfInput :=
  scanFrom_ok h

/-- A source that is a program has the tokens of a derivation, and then the end. -/
theorem exists_derivation_of_parse {source : String} {ts : List Token} {program : Program}
    (hts : scan name source = .ok ts) (h : parse ts = .ok program) :
    ∃ d : Grammar.ProgramDerivation, d.tokens ++ [.atEnd (endOfText name source)] = ts ∧
      d.statements = program.statements ∧ ∀ t ∈ d.tokens, t.kind ≠ .endOfInput := by
  obtain ⟨ahead, rfl, hahead⟩ := scan_ok hts
  obtain ⟨ss, hstatements, rfl⟩ := parse_eq_ok_iff.mp h
  rw [Reader.ofTokens_concat hahead rfl] at hstatements
  obtain ⟨d, rfl, rfl⟩ := Grammar.statements_ok_iff.mp hstatements
  exact ⟨d, rfl, (Reader.statements_programOf _ _).symm, hahead⟩

theorem Reader.ofTokens_lineTokens {ts us : List Token} (hts : scan name line = .ok ts)
    (hus : scan name rest = .ok us) :
    ofTokens (lineTokens name line ts us) = (ofTokens ts).appendNewline
      (.newlineAt (endOfText name line)) ((ofTokens us).relocate (.below [line])) := by
  obtain ⟨ahead, rfl, hahead⟩ := scan_ok hts
  obtain ⟨ahead', rfl, hahead'⟩ := scan_ok hus
  have hboth : ∀ t ∈ ahead ++ .newlineAt (endOfText name line) ::
      ahead'.map (Token.relocate (.below [line])), t.kind ≠ .endOfInput := by
    rw [List.forall_mem_append, List.forall_mem_cons, List.forall_mem_map]
    exact ⟨hahead, by simp [Token.newlineAt], hahead'⟩
  have htokens : lineTokens name line (ahead ++ [.atEnd (endOfText name line)])
      (ahead' ++ [.atEnd (endOfText name rest)]) =
      (ahead ++ .newlineAt (endOfText name line) :: ahead'.map (Token.relocate (.below [line]))) ++
        [(Token.atEnd (endOfText name rest)).relocate (.below [line])] := by
    simp [lineTokens]
  rw [htokens, ofTokens_concat hboth rfl, ofTokens_concat hahead rfl, ofTokens_concat hahead' rfl]
  rfl

theorem parse_lineTokens {ts us : List Token} (hts : scan name line = .ok ts)
    (hus : scan name rest = .ok us) :
    match parse ts, parse us with
    | .error fault, _ =>
      parse (lineTokens name line ts us) =
        .error (fault.before (.newlineAt (endOfText name line)))
    | .ok _, .error fault =>
      parse (lineTokens name line ts us) = .error (fault.relocate (.below [line]))
    | .ok first, .ok more => ∃ span, parse (lineTokens name line ts us) =
      .ok ⟨first.statements ++ more.statements.map (Statement.relocate (.below [line])), span⟩ := by
  have hnewline : (Token.newlineAt (endOfText name line)).kind = .newline := rfl
  have hboth := Reader.readProgram_appendNewline hnewline
    (fun t => Reader.kind_ne_of_mem_ahead) (Reader.kind_endOf ts)
    ((Reader.ofTokens us).relocate (.below [line]))
  rw [← Reader.ofTokens_lineTokens hts hus, Reader.readProgram_relocate] at hboth
  rw [← parse, ← parse, ← parse] at hboth
  revert hboth
  cases parse ts with
  | error fault => exact id
  | ok first => cases parse us <;> exact id

/-- The source is a program. -/
def Parses (name source : String) : Prop :=
  ∃ ts program, scan name source = .ok ts ∧ parse ts = .ok program

/-- The lines are all programs. -/
def ParseAll (name : String) (lines : List String) : Prop :=
  ∀ line ∈ lines, IsLine line ∧ Parses name line

/-- A program behind a line that is one: its statements come behind those of the line. -/
theorem exists_parse_append_newline (hline : IsLine line) {ts us : List Token}
    {first more : Program} (hts : scan name line = .ok ts) (hfirst : parse ts = .ok first)
    (hus : scan name rest = .ok us) (hmore : parse us = .ok more) :
    ∃ both program, scan name (line ++ "\n" ++ rest) = .ok both ∧ parse both = .ok program ∧
      program.statements =
        first.statements ++ more.statements.map (Statement.relocate (.below [line])) := by
  have hboth := parse_lineTokens hts hus
  rw [hfirst, hmore] at hboth
  obtain ⟨span, hboth⟩ := hboth
  exact ⟨lineTokens name line ts us, _, scan_eq_lineTokens hline hts hus, hboth, rfl⟩

theorem parses_append_newline (hline : IsLine line) (h : Parses name line)
    (h' : Parses name rest) : Parses name (line ++ "\n" ++ rest) := by
  obtain ⟨ts, first, hts, hfirst⟩ := h
  obtain ⟨us, more, hus, hmore⟩ := h'
  obtain ⟨both, program, hscan, hparse, -⟩ :=
    exists_parse_append_newline hline hts hfirst hus hmore
  exact ⟨both, program, hscan, hparse⟩

theorem parses_intercalate {lines : List String} (hlines : lines ≠ [])
    (h : ParseAll name lines) : Parses name ("\n".intercalate lines) := by
  induction lines with
  | nil => exact absurd rfl hlines
  | cons line more ih =>
    obtain ⟨⟨hline, hparses⟩, hmore⟩ := List.forall_mem_cons.mp h
    cases more with
    | nil =>
      rw [String.intercalate_singleton]
      exact hparses
    | cons next more =>
      rw [String.intercalate_cons_cons]
      exact parses_append_newline hline hparses (ih (List.cons_ne_nil _ _) hmore)

/-- A syntax error of a line as it is told when the lines `after` stand behind. -/
def Located.followedBy (name line : String) (after : List String) (fault : Located SyntaxFault) :
    Located SyntaxFault :=
  if after = [] then fault else fault.before (.newlineAt (endOfText name line))

/-- A source whose first line that is no program is `line`. -/
theorem parse_intercalate_error (hbefore : ParseAll name before) (hline : IsLine line)
    {ts : List Token} (hts : scan name line = .ok ts) {fault : Located SyntaxFault}
    (h : parse ts = .error fault) (hafter : ScanAll name after) :
    ∃ us, scan name ("\n".intercalate (before ++ line :: after)) = .ok us ∧
      parse us = .error ((fault.followedBy name line after).relocate (.below before)) := by
  induction before with
  | nil =>
    rw [Position.below_nil, Located.relocate_id, List.nil_append]
    cases after with
    | nil => exact ⟨ts, by rw [String.intercalate_singleton, hts], h⟩
    | cons next after =>
      obtain ⟨us, hus⟩ := exists_scan_intercalate (List.cons_ne_nil _ _) hafter
      have hboth := parse_lineTokens hts hus
      rw [h] at hboth
      refine ⟨lineTokens name line ts us, ?_, hboth⟩
      rw [String.intercalate_cons_cons, scan_eq_lineTokens hline hts hus]
  | cons first before ih =>
    obtain ⟨⟨hfirst, ts', program, hts', hprogram⟩, hbefore⟩ := List.forall_mem_cons.mp hbefore
    obtain ⟨us, hus, hfault⟩ := ih hbefore
    have hboth := parse_lineTokens hts' hus
    rw [hprogram, hfault] at hboth
    refine ⟨lineTokens name first ts' us, ?_, ?_⟩
    · rw [List.cons_append, String.intercalate_cons_of_ne_nil (by simp),
        scan_eq_lineTokens hfirst hts' hus]
    · rw [Position.below_cons, ← Located.relocate_relocate]
      exact hboth

/-! ## The lines of a source -/

section Source

variable {source : String}

theorem scanAll_of_subset {lines : List String} (hlines : lines ⊆ sourceLines source)
    (h : ∀ line ∈ lines, ∃ ts, scan name line = .ok ts) : ScanAll name lines :=
  fun line hline => ⟨isLine_of_mem_sourceLines (hlines hline), h line hline⟩

theorem parseAll_of_subset {lines : List String} (hlines : lines ⊆ sourceLines source)
    (h : ∀ line ∈ lines, Parses name line) : ParseAll name lines :=
  fun line hline => ⟨isLine_of_mem_sourceLines (hlines hline), h line hline⟩

theorem exists_scan_of_lines (h : ∀ line ∈ sourceLines source, ∃ ts, scan name line = .ok ts) :
    ∃ ts, scan name source = .ok ts := by
  rw [← intercalate_sourceLines source]
  exact exists_scan_intercalate (sourceLines_ne_nil source)
    (scanAll_of_subset (List.Subset.refl _) h)

theorem parses_of_lines (h : ∀ line ∈ sourceLines source, Parses name line) :
    Parses name source := by
  rw [← intercalate_sourceLines source]
  exact parses_intercalate (sourceLines_ne_nil source) (parseAll_of_subset (List.Subset.refl _) h)

theorem scan_error_of_line (hsource : sourceLines source = before ++ line :: after)
    (hbefore : ∀ first ∈ before, ∃ ts, scan name first = .ok ts) {fault : Located ScanFault}
    (h : scan name line = .error fault) :
    scan name source = .error (fault.relocate (.below before)) := by
  have hsub : before ⊆ sourceLines source := by simp [hsource]
  have hline : line ∈ sourceLines source := by simp [hsource]
  rw [← intercalate_sourceLines source, hsource]
  exact scan_intercalate_error (scanAll_of_subset hsub hbefore) (isLine_of_mem_sourceLines hline)
    h after

theorem parse_error_of_line (hscan : ∀ line ∈ sourceLines source, ∃ ts, scan name line = .ok ts)
    (hsource : sourceLines source = before ++ line :: after)
    (hbefore : ∀ first ∈ before, Parses name first) {ts : List Token}
    (hts : scan name line = .ok ts) {fault : Located SyntaxFault} (h : parse ts = .error fault) :
    ∃ us, scan name source = .ok us ∧
      parse us = .error ((fault.followedBy name line after).relocate (.below before)) := by
  have hsub : before ⊆ sourceLines source := by simp [hsource]
  have hsub' : after ⊆ sourceLines source := by
    rw [hsource]
    exact fun l hl => List.mem_append_right _ (List.mem_cons_of_mem _ hl)
  have hline : line ∈ sourceLines source := by simp [hsource]
  rw [← intercalate_sourceLines source, hsource]
  exact parse_intercalate_error (parseAll_of_subset hsub hbefore)
    (isLine_of_mem_sourceLines hline) hts h
    (scanAll_of_subset hsub' fun l hl => hscan l (hsub' hl))

end Source

end Peng
