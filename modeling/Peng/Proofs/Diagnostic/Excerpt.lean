import Peng.Diagnostic.Report
import Peng.Proofs.Diagnostic.Location

/-!
# Plain and fancy reports agree

The plain report of a diagnostic names its place by the line and column that were counted when the
source was read. The fancy report looks the place up in the source, which it cuts into lines on
its own. In a source whose lines end with newlines only, both show the same place, and the excerpt
is never missing (`run_reports_agree`).

The two ways of counting differ behind the last newline of a source, where excerpts have no further
line. No diagnostic is about that place: a stretch without a character is at the end of the input,
and something else stands before it on its line (`Located.Marks`).
-/

namespace Peng

/-! ## Lines of an excerpt -/

/-- The characters other than the newline that end a line of an excerpt: the carriage return, the
vertical tab, the form feed, the next line, and the line and the paragraph separator. -/
def otherLineEnds : List Char := ['\r', '\x0b', '\x0c', '\u0085', '\u2028', '\u2029']

/-- The lines of the text end with newlines only. -/
def HasPlainLines (text : List Char) : Prop :=
  ∀ c ∈ text, c ∉ otherLineEnds

instance (text : List Char) : Decidable (HasPlainLines text) :=
  List.decidableBAll (· ∉ otherLineEnds) text

/-- The text up to its first newline, and with it. -/
def firstLine (text : List Char) : List Char :=
  text.takeWhile (· ≠ '\n') ++ (text.dropWhile (· ≠ '\n')).take 1

theorem eq_newline_or_mem_of_isLineEnd {c : Char} (h : isLineEnd c) :
    c = '\n' ∨ c ∈ otherLineEnds := by
  simp only [isLineEnd, Bool.or_eq_true, Bool.and_eq_true, decide_eq_true_eq, beq_iff_eq] at h
  have hcode : c.toNat ∈ ('\n' :: otherLineEnds).map Char.toNat := by
    have hcodes : ('\n' :: otherLineEnds).map Char.toNat = [10, 13, 11, 12, 133, 8232, 8233] := rfl
    simp only [hcodes, List.mem_cons, List.not_mem_nil, or_false]
    omega
  obtain ⟨d, hd, hcode⟩ := List.mem_map.mp hcode
  obtain rfl := Char.toNat_inj.mp hcode
  exact List.mem_cons.mp hd

variable {line before text rest : List Char}

theorem HasPlainLines.isLineEnd_eq_false (hplain : HasPlainLines text) (h : '\n' ∉ text) {c : Char}
    (hc : c ∈ text) : isLineEnd c = false := by
  rw [Bool.eq_false_iff]
  intro hend
  rcases eq_newline_or_mem_of_isLineEnd hend with rfl | hother
  · exact h hc
  · exact hplain c hc hother

theorem splitLines_newline_cons (rest : List Char) :
    splitLines ('\n' :: rest) = ['\n'] :: splitLines rest := by
  rw [splitLines]
  · rfl
  · simp

theorem splitLines_cons {c : Char} (hc : isLineEnd c = false) (rest : List Char) :
    splitLines (c :: rest) =
      match splitLines rest with
      | [] => [[c]]
      | line :: lines => (c :: line) :: lines := by
  rw [splitLines]
  · rw [hc]
    rfl
  · rintro rest' rfl
    cases hc

/-- A line with its newline, and what stands behind it. -/
theorem splitLines_append_newline (hplain : HasPlainLines line) (hline : '\n' ∉ line)
    (rest : List Char) :
    splitLines (line ++ '\n' :: rest) = (line ++ ['\n']) :: splitLines rest := by
  induction line with
  | nil => exact splitLines_newline_cons rest
  | cons c line ih =>
    have hc := hplain.isLineEnd_eq_false hline List.mem_cons_self
    have hrest := ih (fun d hd => hplain d (List.mem_cons_of_mem c hd))
      (List.not_mem_of_not_mem_cons hline)
    rw [List.cons_append, splitLines_cons hc, hrest]
    rfl

/-- A text without line ends is one line, unless it is empty. -/
theorem splitLines_of_not_mem (hplain : HasPlainLines line) (hline : '\n' ∉ line)
    (hne : line ≠ []) : splitLines line = [line] := by
  induction line with
  | nil => exact absurd rfl hne
  | cons c line ih =>
    have hc := hplain.isLineEnd_eq_false hline List.mem_cons_self
    rw [splitLines_cons hc]
    by_cases hnil : line = []
    · subst hnil
      rfl
    · rw [ih (fun d hd => hplain d (List.mem_cons_of_mem c hd))
        (List.not_mem_of_not_mem_cons hline) hnil]

theorem firstLine_append (h : '\n' ∉ text) (rest : List Char) :
    firstLine (text ++ rest) = text ++ firstLine rest := by
  have htext : ∀ c ∈ text, decide (c ≠ '\n') = true := by
    intro c hc
    rw [decide_eq_true_eq]
    rintro rfl
    exact h hc
  simp only [firstLine, List.takeWhile_append_of_pos htext, List.dropWhile_append_of_pos htext,
    List.append_assoc]

theorem firstLine_newline_cons (rest : List Char) : firstLine ('\n' :: rest) = ['\n'] := by
  simp [firstLine]

theorem lastLine_append_newline (before text : List Char) :
    lastLine (before ++ '\n' :: text) = lastLine text := by
  induction text using List.reverseRecOn with
  | nil => exact lastLine_concat_newline before
  | append_singleton text c ih =>
    rw [← List.cons_append, ← List.append_assoc]
    by_cases hc : c = '\n'
    · subst hc
      rw [lastLine_concat_newline, lastLine_concat_newline]
    · rw [lastLine_concat hc, lastLine_concat hc, ih]

theorem length_lastLine_le (text : List Char) : (lastLine text).length ≤ text.length :=
  (List.rtakeWhile_suffix _ text).length_le

theorem lastLine_of_not_mem (h : '\n' ∉ text) : lastLine text = text :=
  lastLine_append h []

theorem lineOf_cons_of_lt {offset number start : Nat} (h : offset < start + line.length)
    (more : List (List Char)) :
    lineOf offset number start (line :: more) = ⟨number, start, line⟩ := by
  cases more with
  | nil => rfl
  | cons next more => exact if_neg (by omega)

theorem lineOf_cons_of_le {offset number start : Nat} (h : start + line.length ≤ offset)
    {more : List (List Char)} (hmore : more ≠ []) : lineOf offset number start (line :: more) =
      lineOf offset (number + 1) (start + line.length) more := by
  cases more with
  | nil => exact absurd rfl hmore
  | cons next more => exact if_pos h

theorem splitLines_ne_nil (h : text ≠ []) : splitLines text ≠ [] := by
  unfold splitLines
  split
  · exact absurd rfl h
  · simp
  · split
    · simp
    · split <;> simp

/-- An offset in the first line, which may be its end if nothing stands behind it. -/
theorem lineOf_length_of_not_mem (hplain : HasPlainLines (before ++ rest)) (hline : '\n' ∉ before)
    (hrest : before ++ rest ≠ []) (number start : Nat) :
    lineOf (start + before.length) number start (splitLines (before ++ rest)) =
      ⟨number, start, before ++ firstLine rest⟩ := by
  by_cases hnewline : '\n' ∈ rest
  · obtain ⟨line, rest, rfl, hline'⟩ := List.eq_append_cons_of_mem hnewline
    rw [← List.append_assoc] at hplain ⊢
    have hboth : '\n' ∉ before ++ line := by simp [hline, hline']
    rw [splitLines_append_newline (fun c hc => hplain c (List.mem_append_left _ hc)) hboth,
      lineOf_cons_of_lt (by simp), firstLine_append hline', firstLine_newline_cons,
      List.append_assoc]
  · have hboth : '\n' ∉ before ++ rest := by simp [hline, hnewline]
    have hfirst : firstLine rest = rest := by
      have hall := firstLine_append hnewline []
      rwa [List.append_nil, show firstLine [] = [] from rfl, List.append_nil] at hall
    rw [splitLines_of_not_mem hplain hboth hrest, hfirst]
    rfl

/-- The line of an offset: the newlines before the offset number it, and it begins behind the last
of them. Behind the last newline of a text there is no further line. -/
theorem lineOf_length (hplain : HasPlainLines (before ++ rest))
    (hrest : rest ≠ [] ∨ lastLine before ≠ []) (number start : Nat) :
    lineOf (start + before.length) number start (splitLines (before ++ rest)) =
      ⟨number + before.count '\n', start + (before.length - (lastLine before).length),
        lastLine before ++ firstLine rest⟩ := by
  induction hn : before.length using Nat.strongRecOn generalizing before number start with
  | _ n ih =>
    subst hn
    by_cases hnewline : '\n' ∈ before
    · -- the first line is passed, and the offset is looked up in what stands behind it
      obtain ⟨line, more, rfl, hline⟩ := List.eq_append_cons_of_mem hnewline
      rw [lastLine_append_newline] at hrest ⊢
      have hmore : more ++ rest ≠ [] := by
        rintro hnil
        obtain ⟨rfl, rfl⟩ := List.append_eq_nil_iff.mp hnil
        simp [lastLine] at hrest
      have hplainLine : HasPlainLines line := fun c hc => hplain c (by simp [hc])
      have hplainMore : HasPlainLines (more ++ rest) :=
        fun c hc => hplain c (by simp_all [List.mem_append])
      have hlength : (line ++ '\n' :: more).length = (line ++ ['\n']).length + more.length := by
        rw [← List.length_append, List.append_assoc, List.singleton_append]
      have hpos : 0 < (line ++ ['\n']).length := by simp
      have hlast := length_lastLine_le more
      rw [List.append_assoc, List.cons_append, splitLines_append_newline hplainLine hline,
        lineOf_cons_of_le (by omega) (splitLines_ne_nil hmore), hlength, ← Nat.add_assoc,
        ih more.length (by omega) hplainMore hrest _ _ rfl]
      have hcount : (line ++ '\n' :: more).count '\n' = 1 + more.count '\n' := by
        rw [List.count_append, List.count_eq_zero.mpr hline, List.count_cons_self]
        omega
      simp only [hcount, ExcerptLine.mk.injEq, and_true]
      omega
    · rw [lastLine_of_not_mem hnewline] at hrest ⊢
      have hne : before ++ rest ≠ [] := by
        rintro hnil
        obtain ⟨rfl, rfl⟩ := List.append_eq_nil_iff.mp hnil
        simp at hrest
      rw [lineOf_length_of_not_mem hplain hnewline hne, List.count_eq_zero.mpr hnewline]
      simp

/-! ## The place in both reports -/

/-- The row that opens the frame around an excerpt. It shows a place. -/
def placeRow (name : String) (line column : Nat) : String :=
  repeated ((toString line).length + 2) " " ++ Colour.margin.paint "╭" ++ Colour.margin.paint "─"
    ++ Colour.margin.paint "[" ++ s!"{name}:{line}:{column}" ++ Colour.margin.paint "]" ++ "\n"

/-- A plain and a fancy report of a diagnostic that show one place. -/
structure Diagnostic.ReportsShow (d : Diagnostic) (source name : String) (line column : Nat) :
    Prop where
  /-- The first place of the plain report. -/
  plain : ∃ below, d.report .plain source = d.kind.title ++ ": " ++ d.message ++ ".\n" ++
    s!"In {name}, line {line}, column {column}" ++ "\n" ++ below
  /-- The excerpt of the fancy report is there, and opens with the place. -/
  fancy : ∃ below, d.report .fancy source = d.heading ++ placeRow name line column ++ below

/-- The reports of a diagnostic about a source agree. -/
structure Diagnostic.ReportsAgree (d : Diagnostic) (source : String) : Prop where
  source_ne_empty : source ≠ ""
  labelStart_le : d.labelStart ≤ source.length
  /-- The last character of the label is in the source, or right behind it. -/
  labelEnd_le : d.labelEnd - 1 ≤ source.length
  /-- The last character of the label is on the line of the first. -/
  one_line : lineOf (d.labelEnd - 1) 1 0 (splitLines source.toList) =
    lineOf d.labelStart 1 0 (splitLines source.toList)
  shown : d.ReportsShow source d.span.start.source d.span.start.line d.span.start.column

theorem Diagnostic.exists_describe_eq (d : Diagnostic) (source : String) :
    ∃ below, d.report .plain source = d.kind.title ++ ": " ++ d.message ++ ".\n" ++
      s!"In {d.span.start.source}, line {d.span.start.line}, column {d.span.start.column}" ++
      "\n" ++ below := by
  refine ⟨d.span.finish.describe ++ "\n", ?_⟩
  rw [report, describe, ← String.append_assoc]
  rfl

theorem Diagnostic.exists_frame_eq (d : Diagnostic) (line : ExcerptLine) :
    ∃ below, d.frame line =
      placeRow d.span.start.source line.number (d.labelStart - line.start + 1) ++ below := by
  unfold frame placeRow
  simp only [String.append_assoc]
  exact ⟨_, rfl⟩

namespace Located.Marks

variable {fault : Located Fault} {name source : String} {before text after : List Char}

theorem start_eq (h : fault.Marks name source before text after) :
    (Diagnostic.ofFault fault).span.start =
      ⟨name, before.length, 1 + before.count '\n', 1 + (lastLine before).length⟩ := by
  have hspan : (Diagnostic.ofFault fault).span = _ := h.span_eq
  rw [hspan, Span.covering, Position.advanceOver_start]

theorem labelStart_eq (h : fault.Marks name source before text after) :
    (Diagnostic.ofFault fault).labelStart = before.length := by
  rw [Diagnostic.labelStart, h.start_eq]

theorem labelEnd_eq (h : fault.Marks name source before text after) :
    (Diagnostic.ofFault fault).labelEnd = before.length + max text.length 1 := by
  have hspan : (Diagnostic.ofFault fault).span = _ := h.span_eq
  rw [Diagnostic.labelEnd, h.labelStart_eq, hspan, Span.covering]
  simp only [Position.advanceOver_offset, Position.start_offset]
  omega

/-- The text that is marked, or what stands before it on its line, has a character. -/
theorem ne_nil_or (h : fault.Marks name source before text after) :
    text ++ after ≠ [] ∨ lastLine before ≠ [] := by
  by_cases hnil : text = []
  · exact .inr (h.of_text_eq_nil hnil).2
  · exact .inl fun hall => hnil (List.append_eq_nil_iff.mp hall).1

/-- The line of the label. -/
theorem lineOf_labelStart (h : fault.Marks name source before text after)
    (hplain : HasPlainLines source.toList) :
    lineOf (Diagnostic.ofFault fault).labelStart 1 0 (splitLines source.toList) =
      ⟨1 + before.count '\n', before.length - (lastLine before).length,
        lastLine before ++ firstLine (text ++ after)⟩ := by
  have hsource := h.source_eq
  rw [List.append_assoc] at hsource
  rw [← hsource] at hplain ⊢
  have hline := lineOf_length hplain h.ne_nil_or 1 0
  rw [Nat.zero_add, Nat.zero_add] at hline
  rw [h.labelStart_eq, hline]

/-- The marked text does not leave the line that it begins on. -/
theorem lineOf_labelEnd (h : fault.Marks name source before text after)
    (hplain : HasPlainLines source.toList) :
    lineOf ((Diagnostic.ofFault fault).labelEnd - 1) 1 0 (splitLines source.toList) =
      lineOf (Diagnostic.ofFault fault).labelStart 1 0 (splitLines source.toList) := by
  rcases text.eq_nil_or_concat with rfl | ⟨front, last, rfl⟩
  · rw [h.labelEnd_eq, h.labelStart_eq]
    rfl
  · rw [List.concat_eq_append] at h
    have hfront : '\n' ∉ front := by simpa using h.newline_not_mem
    have hsource : before ++ front ++ last :: after = source.toList := by
      simpa using h.source_eq
    have hoffset : (Diagnostic.ofFault fault).labelEnd - 1 = 0 + (before ++ front).length := by
      rw [h.labelEnd_eq, List.length_append, List.length_append, List.length_singleton]
      omega
    rw [h.lineOf_labelStart hplain, hoffset, ← hsource]
    rw [← hsource] at hplain
    rw [lineOf_length hplain (.inl (List.cons_ne_nil _ _)), lastLine_append hfront,
      List.count_append, List.count_eq_zero.mpr hfront, List.append_assoc front,
      firstLine_append hfront]
    simp
    omega

theorem hasExcerpt (h : fault.Marks name source before text after) :
    (Diagnostic.ofFault fault).HasExcerpt source.toList.length := by
  have hlength : source.toList.length = before.length + text.length + after.length := by
    rw [← h.source_eq, List.length_append, List.length_append]
  refine ⟨?_, ?_, ?_⟩
  · intro hzero
    have hnil : before = [] ∧ text ++ after = [] := by
      rw [List.length_eq_zero_iff, ← h.source_eq, List.append_assoc] at hzero
      exact List.append_eq_nil_iff.mp hzero
    rcases h.ne_nil_or with hne | hne
    · exact hne hnil.2
    · rw [hnil.1] at hne
      exact hne rfl
  · rw [h.labelStart_eq]
    omega
  · rw [h.labelEnd_eq]
    omega

/-- The place that the excerpt shows is the one where the marked text starts. -/
theorem exists_report_fancy_eq (h : fault.Marks name source before text after)
    (hplain : HasPlainLines source.toList) :
    ∃ below, (Diagnostic.ofFault fault).report .fancy source =
      (Diagnostic.ofFault fault).heading ++ placeRow (Diagnostic.ofFault fault).span.start.source
        (Diagnostic.ofFault fault).span.start.line (Diagnostic.ofFault fault).span.start.column ++
      below := by
  obtain ⟨below, hframe⟩ := (Diagnostic.ofFault fault).exists_frame_eq
    (lineOf (Diagnostic.ofFault fault).labelStart 1 0 (splitLines source.toList))
  have hcolumn : before.length - (before.length - (lastLine before).length) + 1 =
      1 + (lastLine before).length := by
    have hlast := length_lastLine_le before
    omega
  refine ⟨below, ?_⟩
  rw [Diagnostic.report, Diagnostic.excerpt]
  simp only [if_pos h.hasExcerpt, hframe]
  rw [h.lineOf_labelStart hplain, h.labelStart_eq, hcolumn, h.start_eq, String.append_assoc]

theorem reportsAgree (h : fault.Marks name source before text after)
    (hplain : HasPlainLines source.toList) : (Diagnostic.ofFault fault).ReportsAgree source := by
  obtain ⟨hne, hstart, hend⟩ := h.hasExcerpt
  rw [String.length_toList] at hne hstart hend
  refine ⟨?_, hstart, by omega, h.lineOf_labelEnd hplain, ?_⟩
  · rintro rfl
    exact hne rfl
  · exact ⟨Diagnostic.exists_describe_eq _ source, h.exists_report_fancy_eq hplain⟩

end Located.Marks

/-- The plain and the fancy report of a diagnostic of a run show the same place, and the excerpt
is not lost, if newlines alone end the lines of the source. -/
theorem run_reports_agree {name source : String} {sink : Sink} {fault : Located Fault}
    (h : (run name source sink).stop = some (.fault fault))
    (hplain : HasPlainLines source.toList) : (Diagnostic.ofFault fault).ReportsAgree source := by
  obtain ⟨before, text, after, hmarks⟩ := Session.exists_marks_of_runSource h
  exact hmarks.reportsAgree hplain

/-- The end of the input, behind an open parenthesis on the second line. -/
theorem run_reports_agree_at_end :
    HasPlainLines "say 1\nx is (".toList ∧
      ∃ fault, (run "a.peng" "say 1\nx is (" (.empty none)).stop = some (.fault fault) ∧
        (Diagnostic.ofFault fault).ReportsAgree "say 1\nx is (" := by
  have hplain : HasPlainLines "say 1\nx is (".toList := by decide
  have hany : (run "a.peng" "say 1\nx is (" (.empty none)).stop.any Stop.isFault := by
    decide +kernel
  obtain ⟨fault, hfault⟩ := exists_fault_of_any hany
  exact ⟨hplain, fault, hfault, run_reports_agree hfault hplain⟩

end Peng
