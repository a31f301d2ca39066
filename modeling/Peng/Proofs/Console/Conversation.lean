import Peng.Console.Prompt
import Peng.Proofs.Console.Input
import Peng.Proofs.Run.Failure

/-!
# Conversations

What a conversation at the prompt comes to, line by line. The main statement is
`Prompt.failures_are_no_ops`: a line that is at fault costs its prompt and its report, and the
conversation is otherwise the one without that line.

## Shape of the proof

An `Exchange` is what one line does, and it depends on the names alone. Lines that do not leave
add their exchanges to what was written and reported before (`Prompt.converse_append`), which is
an induction over the lines whose step is `Prompt.turn_eq_next`. A whole conversation is then its
exchanges and an end (`Prompt.converse_eq`), and two conversations can be compared behind the line
in which they differ.
-/

namespace Peng

namespace Prompt

/-! ## Lines -/

/-- What is left of a line. -/
def trimmed (line : String) : String :=
  String.ofList (trim line.toList)

/-- The line ends the conversation. -/
def Leaves (line : String) : Prop :=
  trimmed line = "exit" ∨ trimmed line = "quit"

instance (line : String) : Decidable (Leaves line) :=
  inferInstanceAs (Decidable (_ ∨ _))

/-- The lines before the first that ends the conversation. -/
def heard (lines : List String) : List String :=
  lines.takeWhile (¬ Leaves ·)

example : heard ["say 1", "", " exit\t\r", "say 2"] = ["say 1", ""] := by decide

theorem trim_subset (text : List Char) : trim text ⊆ text := by
  intro c hc
  have hend := (List.dropWhile_sublist _).subset (List.mem_reverse.mp hc)
  exact (List.dropWhile_sublist _).subset (List.mem_reverse.mp hend)

theorem isLine_trimmed {line : String} (h : IsLine line) : IsLine (trimmed line) := by
  intro hmem
  rw [trimmed, String.toList_ofList] at hmem
  exact h (trim_subset _ hmem)

/-! ## Turns -/

/-- The turn, if `written` had been written before everything else. -/
def Turn.precededBy (written : ByteArray) : Turn → Turn
  | .next session errors => .next (session.precededBy written) errors
  | .leave => .leave

/-- What is reported about a line that is run. -/
def reportOf (style : ReportStyle) (line : String) (stop : Option Stop) : String :=
  stop.elim "" (·.report style line)

section Turn

variable {style : ReportStyle} {s : Session} {line : String}

theorem turn_of_blank (h : trimmed line = "") : turn style s line = .next s "" :=
  if_pos h

theorem turn_of_leaves (h : Leaves line) : turn style s line = .leave := by
  have hblank : trimmed line ≠ "" := by
    rcases h with h | h <;> rw [h] <;> decide
  exact (if_neg hblank).trans (if_pos h)

theorem turn_of_program (hblank : trimmed line ≠ "") (h : ¬ Leaves line) :
    turn style s line = .next (s.runSource sourceName (trimmed line)).session
      (reportOf style (trimmed line) (s.runSource sourceName (trimmed line)).stop) := by
  refine (if_neg hblank).trans ((if_neg h).trans ?_)
  dsimp only
  rw [trimmed]
  rcases (s.runSource sourceName (String.ofList (trim line.toList))).stop with _ | stop <;> rfl

/-- A line that is at fault is reported, and nothing else becomes of it. -/
theorem turn_of_fault (hline : IsLine line) (h : ¬ Leaves line) {fault : Located Fault}
    (hfault : (s.runSource sourceName (trimmed line)).stop = some (.fault fault)) :
    turn style s line = .next s ((Diagnostic.ofFault fault).report style (trimmed line)) := by
  have hblank : trimmed line ≠ "" := by
    intro hblank
    rw [hblank, Session.runSource_empty] at hfault
    cases hfault
  rw [turn_of_program hblank h, Session.runSource_eq_stopFor (isLine_trimmed hline) hfault]
  rfl

theorem turn_precededBy (style : ReportStyle) (line : String) (hlimit : s.sink.limit = none)
    (written : ByteArray) :
    turn style (s.precededBy written) line = (turn style s line).precededBy written := by
  by_cases hblank : trimmed line = ""
  · rw [turn_of_blank hblank, turn_of_blank hblank]
    rfl
  · by_cases h : Leaves line
    · rw [turn_of_leaves h, turn_of_leaves h]
      rfl
    · rw [turn_of_program hblank h, turn_of_program hblank h, Session.runSource_precededBy hlimit]
      rfl

/-- A line that does not leave goes on with a sink of the same limit. -/
theorem exists_turn_eq_next (style : ReportStyle) (s : Session) (h : ¬ Leaves line) :
    ∃ s' errors, turn style s line = .next s' errors ∧ s'.sink.limit = s.sink.limit := by
  by_cases hblank : trimmed line = ""
  · exact ⟨s, "", turn_of_blank hblank, rfl⟩
  · exact ⟨_, _, turn_of_program hblank h, (s.leadsTo_runSource _ _).limit_eq⟩

end Turn

/-! ## Exchanges -/

/-- What a line does: the names it leaves, what it writes, and what is reported about it. -/
structure Exchange where
  scope : Scope
  output : ByteArray
  errors : String

/-- What a line does where the names have the values of `scope`. -/
def exchange (style : ReportStyle) (scope : Scope) (line : String) : Exchange :=
  match turn style ⟨scope, .empty none⟩ line with
  | .next session errors => ⟨session.scope, session.sink.written, errors⟩
  | .leave => ⟨scope, .empty, ""⟩

/-- What some lines do one after the other. -/
def exchanges (style : ReportStyle) (scope : Scope) : List String → List Exchange
  | [] => []
  | line :: lines =>
    let e := exchange style scope line
    e :: exchanges style e.scope lines

/-- The names that some lines leave. -/
def scopeAfter (style : ReportStyle) (scope : Scope) (lines : List String) : Scope :=
  lines.foldl (fun scope line => (exchange style scope line).scope) scope

/-- What is written in some exchanges, with the prompt for each of them. -/
def shown : List Exchange → ByteArray
  | [] => .empty
  | e :: es => mark.toUTF8 ++ e.output ++ shown es

/-- What is reported in some exchanges. -/
def reported : List Exchange → String
  | [] => ""
  | e :: es => e.errors ++ reported es

/-- What is written at the end of a conversation: the prompt for the line that ends it, or the
prompt that the end of the input follows. -/
def closing (lines : List String) : String :=
  if ∃ line ∈ lines, Leaves line then mark else mark ++ "\n"

/-- The session that has gone through some exchanges with lines. -/
def sessionAfter (style : ReportStyle) (s : Session) (lines : List String) : Session :=
  ⟨scopeAfter style s.scope lines,
    ⟨none, s.sink.written ++ shown (exchanges style s.scope lines)⟩⟩

section Exchanges

variable {style : ReportStyle} {s : Session} {line : String}

/-- A line does what its exchange says. -/
theorem turn_eq_next (style : ReportStyle) (hlimit : s.sink.limit = none) (h : ¬ Leaves line) :
    turn style s line = .next
      ⟨(exchange style s.scope line).scope,
        ⟨none, s.sink.written ++ (exchange style s.scope line).output⟩⟩
      (exchange style s.scope line).errors := by
  obtain ⟨s', errors, hturn, hlimit'⟩ := exists_turn_eq_next style ⟨s.scope, .empty none⟩ h
  have hboth := turn_precededBy style line (s := ⟨s.scope, .empty none⟩) rfl s.sink.written
  rw [Session.fresh_precededBy hlimit, hturn] at hboth
  rw [hboth, exchange, hturn]
  simp only [Turn.precededBy, Session.precededBy, hlimit']
  rfl

theorem converse_of_leaves (h : Leaves line) (errors : String) (lines : List ByteArray) :
    converse style s errors (line.toUTF8 :: lines) = ⟨(s.write mark).session, errors, true⟩ := by
  simp only [converse, fromUTF8?_toUTF8, turn_of_leaves h]

theorem converse_of_next {s' : Session} {report : String}
    (h : turn style (s.write mark).session line = .next s' report) (errors : String)
    (lines : List ByteArray) :
    converse style s errors (line.toUTF8 :: lines) =
      converse style s' (errors ++ report) lines := by
  simp only [converse, fromUTF8?_toUTF8, h]

theorem sessionAfter_nil (hlimit : s.sink.limit = none) : sessionAfter style s [] = s := by
  obtain ⟨scope, limit, written⟩ := s
  obtain rfl : limit = none := hlimit
  simp [sessionAfter, scopeAfter, exchanges, shown]

theorem sessionAfter_cons (s : Session) (line : String) (lines : List String) :
    sessionAfter style s (line :: lines) =
      sessionAfter style (sessionAfter style s [line]) lines := by
  simp [sessionAfter, scopeAfter, exchanges, shown, ByteArray.append_assoc]

/-- A line that does not leave is an exchange. -/
theorem converse_cons (hlimit : s.sink.limit = none) (h : ¬ Leaves line) (errors : String)
    (lines : List ByteArray) :
    converse style s errors (line.toUTF8 :: lines) = converse style (sessionAfter style s [line])
      (errors ++ (exchange style s.scope line).errors) lines := by
  have hwrite := Session.write_of_limit_eq_none hlimit mark
  have hlimit' : (s.write mark).session.sink.limit = none := by rw [hwrite]
  have hturn := turn_eq_next style hlimit' h
  rw [converse_of_next hturn, hwrite]
  simp [sessionAfter, scopeAfter, exchanges, shown, ByteArray.append_assoc]

/-- Lines that do not leave are exchanges, and the conversation goes on behind them. -/
theorem converse_append (hlimit : s.sink.limit = none) {before : List String}
    (h : ∀ line ∈ before, ¬ Leaves line) (errors : String) (rest : List ByteArray) :
    converse style s errors (before.map String.toUTF8 ++ rest) =
      converse style (sessionAfter style s before)
        (errors ++ reported (exchanges style s.scope before)) rest := by
  induction before generalizing s errors with
  | nil => simp [sessionAfter_nil hlimit, exchanges, reported]
  | cons line before ih =>
    obtain ⟨hline, hbefore⟩ := List.forall_mem_cons.mp h
    rw [List.map_cons, List.cons_append, converse_cons hlimit hline, ih rfl hbefore,
      ← sessionAfter_cons, String.append_assoc]
    rfl

end Exchanges

/-! ## Whole conversations -/

section Whole

variable {style : ReportStyle} {s : Session} {line : String} {lines : List String}

theorem heard_cons_of_leaves (h : Leaves line) (lines : List String) :
    heard (line :: lines) = [] :=
  List.takeWhile_cons_of_neg (by simpa using h)

theorem heard_cons (h : ¬ Leaves line) (lines : List String) :
    heard (line :: lines) = line :: heard lines :=
  List.takeWhile_cons_of_pos (by simpa using h)

theorem closing_cons_of_leaves (h : Leaves line) (lines : List String) :
    closing (line :: lines) = mark :=
  if_pos ⟨line, List.mem_cons_self, h⟩

theorem closing_cons (h : ¬ Leaves line) (lines : List String) :
    closing (line :: lines) = closing lines := by
  simp [closing, h]

/-- A conversation is the exchanges of the lines that are heard, and its end. -/
theorem converse_eq (hlimit : s.sink.limit = none) (errors : String) (lines : List String) :
    converse style s errors (lines.map String.toUTF8) =
      ⟨⟨scopeAfter style s.scope (heard lines),
        ⟨none, s.sink.written ++ shown (exchanges style s.scope (heard lines)) ++
          (closing lines).toUTF8⟩⟩,
        errors ++ reported (exchanges style s.scope (heard lines)), true⟩ := by
  induction lines generalizing s errors with
  | nil =>
    have hclosing : closing [] = mark ++ "\n" := rfl
    rw [List.map_nil, converse, Session.write_of_limit_eq_none hlimit,
      Session.write_of_limit_eq_none rfl, hclosing]
    simp [scopeAfter, heard, exchanges, shown, reported, ByteArray.append_assoc]
  | cons line lines ih =>
    by_cases h : Leaves line
    · rw [List.map_cons, converse_of_leaves h, heard_cons_of_leaves h, closing_cons_of_leaves h,
        Session.write_of_limit_eq_none hlimit]
      simp [scopeAfter, exchanges, shown, reported]
    · rw [List.map_cons, converse_cons hlimit h, ih rfl, heard_cons h, closing_cons h]
      simp [sessionAfter, scopeAfter, exchanges, shown, reported, ByteArray.append_assoc,
        String.append_assoc]

end Whole

/-! ## Lines that do nothing -/

/-- The session in which a conversation begins. -/
def opened : Session :=
  ((Session.fresh (.empty none)).write greeting).session

/-- The session in which a line is run that comes behind the lines `before`. -/
def sessionAt (style : ReportStyle) (before : List String) : Session :=
  ((sessionAfter style opened before).write mark).session

/-- The conversation `c` has the exchanges `es`, then a line that costs its prompt and `report`,
and then the exchanges `es'`; the conversation `c'` is the one without that line. -/
structure AddsOnly (c c' : Conversation) (es es' : List Exchange) (closing report : String) :
    Prop where
  scope_eq : c.session.scope = c'.session.scope
  written_eq : c.session.sink.written =
    greeting.toUTF8 ++ shown es ++ mark.toUTF8 ++ shown es' ++ closing.toUTF8
  written_eq' : c'.session.sink.written =
    greeting.toUTF8 ++ shown es ++ shown es' ++ closing.toUTF8
  errors_eq : c.errors = reported es ++ report ++ reported es'
  errors_eq' : c'.errors = reported es ++ reported es'
  readable : c.readable = true ∧ c'.readable = true

theorem conversation_toUTF8 (style : ReportStyle) (text : String) :
    conversation style text.toUTF8 =
      converse style opened "" ((typedLines text).map String.toUTF8) := by
  rw [conversation, inputLines_toUTF8]
  rfl

section Quiet

variable {style : ReportStyle} {text text' line report : String} {before after : List String}

theorem opened_eq : opened = ⟨.empty "<main>", ⟨none, greeting.toUTF8⟩⟩ := by
  rw [opened, Session.write_of_limit_eq_none rfl]
  simp [Session.fresh, Sink.empty]

theorem opened_limit : opened.sink.limit = none := by
  rw [opened_eq]

theorem sessionAt_eq (style : ReportStyle) (before : List String) :
    sessionAt style before = ⟨scopeAfter style opened.scope before,
      ⟨none, greeting.toUTF8 ++ shown (exchanges style opened.scope before) ++ mark.toUTF8⟩⟩ := by
  rw [sessionAt, Session.write_of_limit_eq_none rfl, opened_eq]
  rfl

/-- A line that leaves the session as it is adds its prompt and its report only. -/
theorem addsOnly_of_next (htext : typedLines text = before ++ line :: after)
    (htext' : typedLines text' = before ++ after) (hbefore : ∀ l ∈ before, ¬ Leaves l)
    (hturn : turn style (sessionAt style before) line = .next (sessionAt style before) report) :
    AddsOnly (conversation style text.toUTF8) (conversation style text'.toUTF8)
      (exchanges style opened.scope before)
      (exchanges style (scopeAfter style opened.scope before) (heard after))
      (closing after) report := by
  have hlimit : (sessionAt style before).sink.limit = none := by rw [sessionAt_eq]
  have hwith := conversation_toUTF8 style text
  rw [htext, List.map_append, List.map_cons, converse_append opened_limit hbefore,
    converse_of_next hturn, converse_eq hlimit, sessionAt_eq] at hwith
  have hwithout := conversation_toUTF8 style text'
  rw [htext', List.map_append, converse_append opened_limit hbefore, converse_eq rfl] at hwithout
  rw [hwith, hwithout]
  have hgreeting : opened.sink.written = greeting.toUTF8 := by rw [opened_eq]
  constructor <;> simp [sessionAfter, hgreeting]

theorem converse_append_of_leaves (h : Leaves line) (s : Session) (errors : String)
    (before : List String) (after : List ByteArray) :
    converse style s errors (before.map String.toUTF8 ++ line.toUTF8 :: after) =
      converse style s errors (before.map String.toUTF8 ++ [line.toUTF8]) := by
  induction before generalizing s errors with
  | nil => exact (converse_of_leaves h errors after).trans (converse_of_leaves h errors []).symm
  | cons first before ih =>
    rw [List.map_cons, List.cons_append, List.cons_append]
    by_cases hfirst : Leaves first
    · rw [converse_of_leaves hfirst, converse_of_leaves hfirst]
    · obtain ⟨s', report, hturn, -⟩ := exists_turn_eq_next style (s.write mark).session hfirst
      rw [converse_of_next hturn, converse_of_next hturn, ih]

end Quiet

/-- In conversations of a style, lines that are at fault do nothing, and neither do blank lines
or lines behind the end. -/
structure FailuresAreNoOps (style : ReportStyle) : Prop where
  /-- A line at fault leaves any session as it is; what is reported is about that line alone. -/
  fault_turn : ∀ s line fault, IsLine line → ¬ Leaves line →
    (s.runSource sourceName (trimmed line)).stop = some (.fault fault) →
    turn style s line = .next s ((Diagnostic.ofFault fault).report style (trimmed line))
  /-- A conversation is what the lines before the end do, one after the other. -/
  conversation_eq : ∀ text,
    conversation style text.toUTF8 =
      ⟨⟨scopeAfter style opened.scope (heard (typedLines text)),
        ⟨none, greeting.toUTF8 ++
          shown (exchanges style opened.scope (heard (typedLines text))) ++
          (closing (typedLines text)).toUTF8⟩⟩,
        reported (exchanges style opened.scope (heard (typedLines text))), true⟩
  /-- Every line can be deleted from the text that is typed. -/
  exists_without : ∀ text before line after, typedLines text = before ++ line :: after →
    ∃ text', typedLines text' = before ++ after
  /-- If it is at fault, that takes away its prompt and its report, and nothing else. -/
  without_fault : ∀ text text' before line after fault,
    typedLines text = before ++ line :: after → typedLines text' = before ++ after →
    (∀ l ∈ before, ¬ Leaves l) → ¬ Leaves line →
    ((sessionAt style before).runSource sourceName (trimmed line)).stop = some (.fault fault) →
    AddsOnly (conversation style text.toUTF8) (conversation style text'.toUTF8)
      (exchanges style opened.scope before)
      (exchanges style (scopeAfter style opened.scope before) (heard after))
      (closing after) ((Diagnostic.ofFault fault).report style (trimmed line))
  /-- If it is blank, that takes away its prompt, and nothing else. -/
  without_blank : ∀ text text' before line after,
    typedLines text = before ++ line :: after → typedLines text' = before ++ after →
    (∀ l ∈ before, ¬ Leaves l) → trimmed line = "" →
    AddsOnly (conversation style text.toUTF8) (conversation style text'.toUTF8)
      (exchanges style opened.scope before)
      (exchanges style (scopeAfter style opened.scope before) (heard after))
      (closing after) ""
  /-- What comes behind a line that ends the conversation has no effect. -/
  behind_leaving : ∀ text text' before line after after',
    typedLines text = before ++ line :: after → typedLines text' = before ++ line :: after' →
    Leaves line → conversation style text.toUTF8 = conversation style text'.toUTF8

theorem failures_are_no_ops (style : ReportStyle) : FailuresAreNoOps style where
  fault_turn s line fault hline hleaves hfault := turn_of_fault hline hleaves hfault
  conversation_eq text := by
    rw [conversation_toUTF8, converse_eq opened_limit, String.empty_append, opened_eq]
  exists_without text before line after htext := by
    apply exists_typedLines_eq
    intro l hl
    have hmem : l ∈ typedLines text := by
      rw [htext]
      rcases List.mem_append.mp hl with hl | hl
      · exact List.mem_append_left _ hl
      · exact List.mem_append_right _ (List.mem_cons_of_mem _ hl)
    exact isLine_of_mem_typedLines hmem
  without_fault text text' before line after fault htext htext' hbefore hleaves hfault := by
    have hmem : line ∈ typedLines text := by simp [htext]
    have hline := isLine_of_mem_typedLines hmem
    exact addsOnly_of_next htext htext' hbefore (turn_of_fault hline hleaves hfault)
  without_blank text text' before line after htext htext' hbefore hblank :=
    addsOnly_of_next htext htext' hbefore (turn_of_blank hblank)
  behind_leaving text text' before line after after' htext htext' hleaves := by
    rw [conversation_toUTF8, conversation_toUTF8, htext, htext', List.map_append, List.map_append,
      List.map_cons, List.map_cons, converse_append_of_leaves hleaves]
    exact (converse_append_of_leaves hleaves _ _ _ _).symm

-- a name without a value, behind a line that gives another name one
example : ((sessionAt .plain ["x is 1"]).runSource sourceName (trimmed "say x + y\r")).stop.isSome :=
  by decide +kernel

end Prompt

end Peng
