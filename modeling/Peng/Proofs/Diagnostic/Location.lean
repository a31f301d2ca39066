import Peng.Proofs.Run.Lines
import Peng.Proofs.Source.Tiling
import Peng.Proofs.Syntax.Extent

/-!
# Where diagnostics point

Every diagnostic of a run points into its source: at true places, in order, and on one line
(`run_diagnostic_points_into_source`).

## Shape of the proof

A fault *marks* a piece of text when it is blamed on the span of that text (`Located.Marks`). Each
stage has its own lemma: a fault in the characters marks the characters where reading halts, a
syntax error marks the token that does not fit, and a fault of a running program marks what its
node was read from. Only the token at the end of the input has no text, and what stands before it
on its line is not empty: behind a newline, or behind nothing, a program may end.
-/

namespace Peng

/-! ## Faults of running programs -/

theorem Expr.exists_node_of_value {scope : Scope} {e : Expr} {fault : Located RunFault}
    (h : e.value scope = .error fault) : ∃ node ∈ e.nodes, node.span = fault.span := by
  induction e with
  | number x span => cases h
  | text s span => cases h
  | «variable» name span =>
    refine ⟨_, mem_nodes_self _, ?_⟩
    rw [value] at h
    split at h <;> cases h
    rfl
  | binary op left right span ihleft ihright =>
    rw [value] at h
    simp only [nodes, List.mem_append]
    split at h
    case h_1 f hleft =>
      cases h
      obtain ⟨node, hnode, hspan⟩ := ihleft hleft
      exact ⟨node, .inl (.inl hnode), hspan⟩
    case h_2 l hleft =>
      split at h
      case h_1 f hright =>
        cases h
        obtain ⟨node, hnode, hspan⟩ := ihright hright
        exact ⟨node, .inl (.inr hnode), hspan⟩
      case h_2 r hright =>
        refine ⟨_, .inr (List.mem_singleton_self _), ?_⟩
        cases happly : op.apply l r <;> rw [happly] at h <;> cases h
        rfl
  | signed sign operand span ih =>
    rw [value] at h
    simp only [nodes, List.mem_append]
    split at h
    case h_1 f hoperand =>
      cases h
      obtain ⟨node, hnode, hspan⟩ := ih hoperand
      exact ⟨node, .inl hnode, hspan⟩
    case h_2 v hoperand =>
      refine ⟨_, .inr (List.mem_singleton_self _), ?_⟩
      cases happly : sign.apply v <;> rw [happly] at h <;> cases h
      rfl

theorem Expr.exists_node_of_values {scope : Scope} {es : List Expr} {fault : Located RunFault}
    (h : Expr.values scope es = .error fault) :
    ∃ e ∈ es, ∃ node ∈ e.nodes, node.span = fault.span := by
  induction es with
  | nil => cases h
  | cons e es ih =>
    rw [values] at h
    split at h
    case h_1 f he =>
      cases h
      exact ⟨e, List.mem_cons_self, exists_node_of_value he⟩
    case h_2 v he =>
      split at h <;> cases h
      obtain ⟨e', he', hnode⟩ := ih ‹_›
      exact ⟨e', List.mem_cons_of_mem e he', hnode⟩

namespace Session

theorem exists_node_of_runStatement {s : Session} {statement : Statement} {fault : Located Fault}
    (h : (s.runStatement statement).stop = some (.fault fault)) :
    ∃ e ∈ statement.expressions, ∃ node ∈ e.nodes, node.span = fault.span := by
  cases statement with
  | print values span =>
    rw [runStatement] at h
    split at h
    case h_1 f hvalues =>
      cases h
      exact Expr.exists_node_of_values hvalues
    case h_2 vs hvalues =>
      simp only [write] at h
      split at h <;> cases h
  | assign name e span =>
    rw [runStatement, assign] at h
    cases he : e.value s.scope with
    | error f =>
      rw [he] at h
      cases h
      exact ⟨e, List.mem_singleton_self e, Expr.exists_node_of_value he⟩
    | ok v =>
      rw [he] at h
      cases h

/-- A fault of running statements is blamed on one of their nodes. -/
theorem exists_node_of_runStatements {s : Session} {ss : List Statement} {fault : Located Fault}
    (h : (s.runStatements ss).stop = some (.fault fault)) :
    ∃ statement ∈ ss, ∃ e ∈ statement.expressions, ∃ node ∈ e.nodes, node.span = fault.span := by
  induction ss generalizing s with
  | nil => cases h
  | cons first more ih =>
    have hfirst := @exists_node_of_runStatement s first fault
    rw [runStatements] at h
    revert h hfirst
    obtain ⟨s', stop⟩ := s.runStatement first
    rcases stop with _ | stop
    · intro h _
      obtain ⟨statement, hmem, hnode⟩ := ih h
      exact ⟨statement, List.mem_cons_of_mem first hmem, hnode⟩
    · intro h hfirst
      exact ⟨first, List.mem_cons_self, hfirst h⟩

end Session

/-! ## The end of the input -/

/-- The diagnostic is a syntax error that was found at the end of the input. -/
def Diagnostic.IsAtEndOfInput (d : Diagnostic) : Prop :=
  d.kind = .invalidSyntax ∧ ∃ expected, d.message = expected ++ ", found end of input"

theorem SyntaxFault.message_eq (f : SyntaxFault) :
    f.message = f.wanted.message ++ ", found " ++ f.found.describe := rfl

theorem SyntaxFault.getLast?_message (f : SyntaxFault) : f.message.toList.getLast? =
    some (match f.found with
      | .endOfInput => 't'
      | .newline => 'e'
      | .lexeme _ => '\'') := by
  obtain ⟨missing, found⟩ := f
  rw [message_eq]
  cases found with
  | endOfInput | newline => simp [Found.describe]
  | lexeme text =>
    have hdescribe : (Found.lexeme text).describe = "'" ++ text ++ "'" := rfl
    simp [hdescribe, List.getLast?_cons]

/-- A message that ends with another character does not tell of the end of the input. -/
theorem ne_append_found_endOfInput {message : String} {c : Char}
    (h : message.toList.getLast? = some c) (hc : c ≠ 't') (expected : String) :
    message ≠ expected ++ ", found end of input" := by
  rintro rfl
  have hlast : (expected ++ ", found end of input").toList.getLast? = some 't' := by
    simp [List.getLast?_append]
  exact hc (Option.some.inj (h.symm.trans hlast))

theorem Diagnostic.isAtEndOfInput_iff (f : Located Fault) :
    (ofFault f).IsAtEndOfInput ↔ ∃ missing, f.cause = .parsing ⟨missing, .endOfInput⟩ := by
  obtain ⟨cause, span⟩ := f
  constructor
  · rintro ⟨hkind, expected, hmessage⟩
    rcases cause with f | f | f
    · rcases f with c | _ | _
      · cases hkind
      · cases hkind
      · have hlast : ScanFault.unclosedText.message.toList.getLast? = some '\'' := by decide
        exact absurd hmessage (ne_append_found_endOfInput hlast (by decide) expected)
    · have hlast := f.getLast?_message
      obtain ⟨missing, found⟩ := f
      rcases found with _ | _ | lexeme
      · exact ⟨missing, rfl⟩
      · exact absurd hmessage (ne_append_found_endOfInput (c := 'e') hlast (by decide) expected)
      · exact absurd hmessage (ne_append_found_endOfInput (c := '\'') hlast (by decide) expected)
    · rcases f with _ | _ | _ | _ | _ | _ <;> cases hkind
  · rintro ⟨missing, rfl⟩
    refine ⟨rfl, missing.message, ?_⟩
    exact String.append_assoc

/-! ## Marked text -/

/-- A fault is blamed on the piece `text` of a source, which stands between `before` and `after`.
The text keeps to one line, though it may end with the newline of that line. Only what is missing
at the end of the input has no text, and something else stands before it on its line. -/
structure Located.Marks (f : Located Fault) (name source : String)
    (before text after : List Char) : Prop where
  source_eq : before ++ text ++ after = source.toList
  span_eq : f.span = .covering ((Position.start name).advanceOver before) text
  newline_not_mem : '\n' ∉ text.dropLast
  text_eq_nil_iff : text = [] ↔ (Diagnostic.ofFault f).IsAtEndOfInput
  of_text_eq_nil : text = [] → after = [] ∧ lastLine before ≠ []

variable {name source : String} {before text after : List Char}

/-- A fault that is not found at the end of the input marks a text of its own. -/
theorem Located.marks_of_ne_nil {f : Located Fault}
    (hsource : before ++ text ++ after = source.toList)
    (hspan : f.span = .covering ((Position.start name).advanceOver before) text)
    (hnil : text ≠ []) (hline : '\n' ∉ text.dropLast)
    (hcause : ∀ missing, f.cause ≠ .parsing ⟨missing, .endOfInput⟩) :
    f.Marks name source before text after where
  source_eq := hsource
  span_eq := hspan
  newline_not_mem := hline
  text_eq_nil_iff := by
    refine iff_of_false hnil fun hend => ?_
    obtain ⟨missing, hmissing⟩ := (Diagnostic.isAtEndOfInput_iff f).mp hend
    exact hcause missing hmissing
  of_text_eq_nil := fun h => absurd h hnil

theorem not_mem_dropLast {c : Char} (h : c ∉ text) : c ∉ text.dropLast :=
  fun hmem => h (List.dropLast_subset text hmem)

/-! ## Scanning -/

/-- Reading halts at a piece of one line of the text. -/
theorem exists_blamed_of_scanFrom {p : Position} {cs : List Char} {fault : Located ScanFault}
    (h : scanFrom p cs = .error fault) :
    ∃ before text after, before ++ text ++ after = cs ∧
      fault.span = .covering (p.advanceOver before) text ∧ text ≠ [] ∧ '\n' ∉ text := by
  fun_induction scanFrom p cs with
  | case1 p => cases h
  | case2 p c cs hblank ih =>
    obtain ⟨before, text, after, rfl, hspan, htext⟩ := ih h
    exact ⟨c :: before, text, after, rfl, hspan, htext⟩
  | case3 p c cs hblank halt hread =>
    cases h
    obtain ⟨⟨rest, hrest⟩, hblamed, hline⟩ := Lexeme.isIn_of_read hread
    exact ⟨halt.passed, halt.blamed, rest, hrest, rfl, hblamed, hline⟩
  | case4 p c cs hblank lexeme hread ts hscan ih => cases h
  | case5 p c cs hblank lexeme hread f hscan ih =>
    cases h
    obtain ⟨before, text, after, hrest, hspan, htext⟩ := ih hscan
    refine ⟨lexeme.text ++ before, text, after, ?_, ?_, htext⟩
    · have hall := lexeme.text_append_rest
      rw [← hrest] at hall
      simpa only [List.append_assoc] using hall
    · rw [hspan, Position.advanceOver_append]

theorem exists_marks_of_scan {fault : Located ScanFault} (h : scan name source = .error fault) :
    ∃ before text after, (fault.map Fault.scanning).Marks name source before text after := by
  obtain ⟨before, text, after, hsource, hspan, hnil, hline⟩ := exists_blamed_of_scanFrom h
  exact ⟨before, text, after,
    Located.marks_of_ne_nil hsource hspan hnil (not_mem_dropLast hline) fun _ => nofun⟩

/-! ## Parsing -/

/-- Where a program is cut short by the end of the input, its last token is no newline. -/
theorem Grammar.Place.Halts.exists_concat {ts : List Token} {missing : Wanted}
    (h : Place.outside.Halts ts missing []) :
    ∃ front last, ts = front ++ [last] ∧ last.kind ≠ .newline := by
  obtain ⟨pre, q, rfl, hpre, hrefuses, -⟩ := h
  rw [List.append_nil]
  rcases pre.eq_nil_or_concat with rfl | ⟨front, last, rfl⟩
  · cases hpre
    exact absurd trivial hrefuses
  · rw [List.concat_eq_append] at hpre ⊢
    refine ⟨front, last, rfl, fun hnewline => hrefuses ?_⟩
    rw [reach_append] at hpre
    obtain ⟨p, -, hlast⟩ := Option.bind_eq_some_iff.mp hpre
    rw [reach_cons] at hlast
    -- behind a newline the place is between statements
    rcases p.step_newline hnewline with ⟨-, hstep⟩ | ⟨-, hstep⟩
    · rw [hstep] at hlast
      cases hlast
      trivial
    · rw [hstep] at hlast
      cases hlast

theorem lastLine_append (h : '\n' ∉ text) (before : List Char) :
    lastLine (before ++ text) = lastLine before ++ text := by
  induction text using List.reverseRecOn with
  | nil => simp
  | append_singleton text c ih =>
    rw [List.mem_append, List.mem_singleton, not_or] at h
    rw [← List.append_assoc, lastLine_concat (Ne.symm h.2), ih h.1, List.append_assoc]

/-- What stands before the end of the input on its line is not empty if the last token is no
newline. -/
theorem Scanned.lastLine_ne_nil {p : Position} {cs : List Char} {front : List Token} {last : Token}
    {q : Position} (h : Scanned p cs (front ++ [last, .atEnd q])) (hlast : last.kind ≠ .newline)
    (hend : last.kind ≠ .endOfInput) : lastLine cs ≠ [] := by
  obtain ⟨before, rest, rfl, hrest⟩ := exists_behind (List.cons_ne_nil _ _) h
  have hrest : Scanned _ rest (last :: [.atEnd q] ++ []) := hrest
  have hlines : ∀ u ∈ [last, .atEnd q], u.kind ≠ .newline :=
    List.forall_mem_cons.mpr ⟨hlast, List.forall_mem_singleton.mpr (by simp [Token.atEnd])⟩
  obtain ⟨gap, text, behind, rfl, -, hline, hnil, hbehind, -⟩ := exists_stretch hrest hlines
  rw [hbehind rfl, List.append_nil, ← List.append_assoc, lastLine_append hline]
  intro h
  exact hend (hnil (List.append_eq_nil_iff.mp h).2)

theorem exists_marks_of_parse {ts : List Token} (hts : scan name source = .ok ts)
    {fault : Located SyntaxFault} (h : parse ts = .error fault) :
    ∃ before text after, (fault.map Fault.parsing).Marks name source before text after := by
  have hscanned := Scanned.of_scanFrom hts
  obtain ⟨ahead, rfl, hahead⟩ := scan_ok hts
  obtain ⟨missing, rest, hstatements, rfl⟩ := parse_eq_error_iff.mp h
  rw [Reader.ofTokens_concat hahead rfl] at hstatements ⊢
  have hhalts := Grammar.statements_error_iff.mp hstatements
  cases rest with
  | nil =>
    obtain ⟨front, last, rfl, hnewline⟩ := hhalts.exists_concat
    refine ⟨source.toList, [], [], {
      source_eq := by simp
      span_eq := rfl
      newline_not_mem := List.not_mem_nil
      text_eq_nil_iff :=
        iff_of_true rfl ((Diagnostic.isAtEndOfInput_iff _).mpr ⟨missing, rfl⟩)
      of_text_eq_nil := fun _ => ⟨rfl, ?_⟩ }⟩
    rw [List.append_assoc] at hscanned
    exact hscanned.lastLine_ne_nil hnewline (hahead last (by simp))
  | cons t rest =>
    obtain ⟨pre, q, rfl, -⟩ := hhalts
    have ht : t ∈ pre ++ t :: rest := by simp
    obtain ⟨before, text, after, hsource, hcovers⟩ :=
      hscanned.exists_covers (List.mem_append_left _ ht)
    have hkind := hahead t ht
    refine ⟨before, text, after, Located.marks_of_ne_nil hsource hcovers.span_eq ?_ ?_ ?_⟩
    · exact fun hnil => hkind (hcovers.text_eq_nil_iff.mp hnil)
    · by_cases hnewline : t.kind = .newline
      · rw [hcovers.keepsLine.1 hnewline]
        exact List.not_mem_nil
      · exact not_mem_dropLast (hcovers.keepsLine.2 hnewline)
    · intro missing' hcause
      simp only [Located.map, Fault.parsing.injEq, SyntaxFault.mk.injEq] at hcause
      exact Token.found_ne_endOfInput hkind hcause.2

/-! ## Running -/

/-- A span within tokens of one line covers a text of that line. -/
theorem Scanned.exists_of_within {p : Position} {cs : List Char} {ts line : List Token}
    (h : Scanned p cs ts) (hline : line <:+: ts)
    (hkinds : ∀ t ∈ line, t.kind ≠ .newline ∧ t.kind ≠ .endOfInput) {s : Span}
    (hs : s.Within line) :
    ∃ before text after, before ++ text ++ after = cs ∧
      s = .covering (p.advanceOver before) text ∧ text ≠ [] ∧ '\n' ∉ text := by
  obtain ⟨first, more, hpart, rfl⟩ := hs
  obtain ⟨pre, post, rfl⟩ := hpart.trans hline
  rw [List.append_assoc] at h
  obtain ⟨before, rest, rfl, hrest⟩ := exists_behind (by simp) h
  have hlines : ∀ t ∈ first :: more, t.kind ≠ .newline :=
    fun t ht => (hkinds t (hpart.subset ht)).1
  obtain ⟨gap, text, after, rfl, -, hline, hnil, -, hspan⟩ := exists_stretch hrest hlines
  refine ⟨before ++ gap, text, after, by simp, ?_, ?_, hline⟩
  · rw [hspan, Position.advanceOver_append]
  · exact fun h => (hkinds first (hpart.subset List.mem_cons_self)).2 (hnil h)

theorem exists_marks_of_runStatements {ts : List Token} (hts : scan name source = .ok ts)
    {program : Program} (hprogram : parse ts = .ok program) {s : Session} {fault : Located Fault}
    (h : (s.runStatements program.statements).stop = some (.fault fault)) :
    ∃ before text after, fault.Marks name source before text after := by
  have hscanned := Scanned.of_scanFrom hts
  obtain ⟨d, rfl, hstatements, hahead⟩ := exists_derivation_of_parse hts hprogram
  rw [← hstatements] at h
  obtain ⟨statement, hstatement, e, he, node, hnode, hspan⟩ :=
    Session.exists_node_of_runStatements h
  obtain ⟨line, hline, hkinds, hwithin⟩ := d.exists_line_of_mem hstatement he hnode
  obtain ⟨before, text, after, hsource, hcovering, hnil, hnewline⟩ :=
    hscanned.exists_of_within (hline.trans (List.prefix_append _ _).isInfix)
      (fun t ht => ⟨hkinds t ht, hahead t (hline.subset ht)⟩) hwithin
  obtain ⟨f, rfl⟩ := Session.runStatements_stop h
  exact ⟨before, text, after, Located.marks_of_ne_nil hsource (hspan.symm.trans hcovering) hnil
    (not_mem_dropLast hnewline) fun _ => nofun⟩

/-! ## All stages -/

/-- Every fault of a run marks a piece of the source. -/
theorem Session.exists_marks_of_runSource {s : Session} {fault : Located Fault}
    (h : (s.runSource name source).stop = some (.fault fault)) :
    ∃ before text after, fault.Marks name source before text after := by
  rw [runSource] at h
  split at h
  case h_1 f hscan =>
    cases h
    exact exists_marks_of_scan hscan
  case h_2 ts hscan =>
    split at h
    case h_1 f hparse =>
      cases h
      exact exists_marks_of_parse hscan hparse
    case h_2 program hparse => exact exists_marks_of_runStatements hscan hparse h

/-- The diagnostic points into the source. -/
structure Diagnostic.PointsInto (d : Diagnostic) (name source : String) : Prop where
  start_le_finish : d.span.start.offset ≤ d.span.finish.offset
  finish_le_length : d.span.finish.offset ≤ source.length
  start_isTrueIn : d.span.start.IsTrueIn name source
  finish_isTrueIn : d.span.finish.IsTrueIn name source
  /-- Only what is found at the end of the input has no width. -/
  start_eq_finish_iff : d.span.start = d.span.finish ↔ d.IsAtEndOfInput
  /-- A newline can only be the last character. -/
  newline_last : ∀ i, d.span.start.offset ≤ i → i + 1 < d.span.finish.offset →
    source.toList[i]? ≠ some '\n'

theorem Located.Marks.pointsInto {fault : Located Fault}
    (h : fault.Marks name source before text after) :
    (Diagnostic.ofFault fault).PointsInto name source := by
  obtain ⟨hsource, hspan, hline, hnil, -⟩ := h
  have hlength : source.length = before.length + text.length + after.length := by
    rw [← String.length_toList, ← hsource, List.length_append, List.length_append]
  have hstart : ((Position.start name).advanceOver before).IsTrueIn name source :=
    Position.isTrueIn_advanceOver_start (hsource.symm.trans (List.append_assoc ..)) name
  have hfinish : ((Position.start name).advanceOver (before ++ text)).IsTrueIn name source :=
    Position.isTrueIn_advanceOver_start hsource.symm name
  rw [Position.advanceOver_append] at hfinish
  have hspan : (Diagnostic.ofFault fault).span = _ := hspan
  refine ⟨?_, ?_, ?_, ?_, ?_, ?_⟩ <;> rw [hspan, Span.covering] <;> dsimp only
  · simp
  · rw [Position.advanceOver_offset, Position.advanceOver_offset, Position.start_offset]
    omega
  · exact hstart
  · exact hfinish
  · rw [← hnil]
    constructor
    · intro heq
      have hoffset := congrArg Position.offset heq
      simp only [Position.advanceOver_offset] at hoffset
      exact List.eq_nil_of_length_eq_zero (by omega)
    · rintro rfl
      rfl
  · intro i hi hi' hnewline
    simp only [Position.advanceOver_offset, Position.start_offset, Nat.zero_add] at hi hi'
    have hi'' : i - before.length < text.dropLast.length := by
      rw [List.length_dropLast]
      omega
    rw [← hsource, List.append_assoc, List.getElem?_append_right hi,
      List.getElem?_append_left (by omega)] at hnewline
    refine hline (List.mem_of_getElem? (i := i - before.length) ?_)
    rw [List.getElem?_dropLast, if_pos (by omega), hnewline]

/-- Every diagnostic of a run points into the source of the run. -/
theorem run_diagnostic_points_into_source {sink : Sink} {fault : Located Fault}
    (h : (run name source sink).stop = some (.fault fault)) :
    (Diagnostic.ofFault fault).PointsInto name source := by
  obtain ⟨before, text, after, hmarks⟩ := Session.exists_marks_of_runSource h
  exact hmarks.pointsInto

/-- Whether a run ends early for a fault. -/
def Stop.isFault : Stop → Bool
  | .fault _ => true
  | .sinkFull => false

theorem exists_fault_of_any {stop? : Option Stop} (h : stop?.any Stop.isFault) :
    ∃ fault, stop? = some (.fault fault) := by
  rcases stop? with _ | fault | _
  · cases h
  · exact ⟨fault, rfl⟩
  · cases h

/-- A text has no sign: the parentheses around it are not part of what is blamed. -/
theorem run_diagnostic_points_at_signed_text :
    ∃ fault, (run "a.peng" "x is \"é\"\nsay 1, -(x) + 2" (.empty none)).stop =
        some (.fault fault) ∧
      (Diagnostic.ofFault fault).PointsInto "a.peng" "x is \"é\"\nsay 1, -(x) + 2" := by
  have hany : (run "a.peng" "x is \"é\"\nsay 1, -(x) + 2" (.empty none)).stop.any Stop.isFault :=
    by decide +kernel
  obtain ⟨fault, hfault⟩ := exists_fault_of_any hany
  exact ⟨fault, hfault, run_diagnostic_points_into_source hfault⟩

end Peng
