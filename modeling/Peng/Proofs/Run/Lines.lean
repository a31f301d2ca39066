import Peng.Proofs.Source.Lines
import Peng.Run.Step

/-!
# Running a source and its lines

`run_agrees_with_lines`: running a source does what a session does that is given the lines of
the source one after the other, up to the first that stops. The stages come one after the other,
though: unless all lines can be scanned, and then all parsed, none of them runs.
-/

namespace Peng

/-! ## What a statement does -/

/-- What a statement does to a session. -/
inductive Effect where
  | stops (fault : Located RunFault)
  | prints (text : String)
  | binds (name : String) (value : Value)

/-- What a statement does where the names have the values of `scope`. -/
def Statement.effect (scope : Scope) : Statement → Effect
  | .print values _ =>
    match Expr.values scope values with
    | .error fault => .stops fault
    | .ok vs => .prints (printedLine vs)
  | .assign name e _ =>
    match e.value scope with
    | .error fault => .stops fault
    | .ok v => .binds name v

/-- Has an effect happen. -/
def Session.undergo (s : Session) : Effect → Outcome
  | .stops fault => s.stopFor (fault.map .running)
  | .prints text => s.write text
  | .binds name value => ⟨⟨s.scope.assign name value, s.sink⟩, none⟩

/-- The effect of a statement depends on the names alone. -/
theorem Session.runStatement_eq_undergo (s : Session) (statement : Statement) :
    s.runStatement statement = s.undergo (statement.effect s.scope) := by
  rcases statement with ⟨values, span⟩ | ⟨target, e, span⟩
  · rw [runStatement, Statement.effect]
    rcases Expr.values s.scope values with fault | vs <;> rfl
  · rw [runStatement, assign, Statement.effect]
    rcases e.value s.scope with fault | v <;> rfl

/-! ## What was written -/

/-- What a step wrote. -/
def Answer.written : Answer → ByteArray
  | ran written _ => written
  | value _ | binding _ | scopeName _ => .empty

/-- Why a step ended early, if it did. -/
def Answer.stop? : Answer → Option Stop
  | ran _ stop => stop
  | value _ | binding _ | scopeName _ => none

/-- What some steps wrote, in order. -/
def writtenBy : List Answer → ByteArray
  | [] => .empty
  | answer :: answers => answer.written ++ writtenBy answers

theorem Sink.exists_write_written (s : Sink) (bytes : ByteArray) :
    ∃ more, (s.write bytes).1.written = s.written ++ more := by
  unfold write
  split
  · exact ⟨bytes, rfl⟩
  · dsimp only
    split
    · exact ⟨bytes, rfl⟩
    · exact ⟨_, rfl⟩

/-- A run goes on from one session to another: the sink keeps its limit and what was written. -/
structure Session.LeadsTo (s s' : Session) : Prop where
  limit_eq : s'.sink.limit = s.sink.limit
  exists_written : ∃ more, s'.sink.written = s.sink.written ++ more

namespace Session

theorem LeadsTo.of_sink_eq {s s' : Session} (h : s'.sink = s.sink) : s.LeadsTo s' where
  limit_eq := by rw [h]
  exists_written := ⟨.empty, by rw [h, ByteArray.append_empty]⟩

theorem LeadsTo.trans {s s' s'' : Session} (h : s.LeadsTo s') (h' : s'.LeadsTo s'') :
    s.LeadsTo s'' := by
  obtain ⟨bytes, hbytes⟩ := h.exists_written
  obtain ⟨more, hmore⟩ := h'.exists_written
  exact ⟨h'.limit_eq.trans h.limit_eq, bytes ++ more,
    by rw [hmore, hbytes, ByteArray.append_assoc]⟩

theorem leadsTo_runStatement (s : Session) (statement : Statement) :
    s.LeadsTo (s.runStatement statement).session := by
  rw [runStatement_eq_undergo]
  rcases statement.effect s.scope with fault | text | ⟨target, v⟩
  · exact .of_sink_eq rfl
  · exact ⟨s.sink.write_limit _, s.sink.exists_write_written _⟩
  · exact .of_sink_eq rfl

theorem leadsTo_runStatements (s : Session) (ss : List Statement) :
    s.LeadsTo (s.runStatements ss).session := by
  induction ss generalizing s with
  | nil => exact .of_sink_eq rfl
  | cons first ss ih =>
    have hfirst := s.leadsTo_runStatement first
    rw [runStatements]
    revert hfirst
    rcases s.runStatement first with ⟨s', _ | stop⟩
    · exact fun hfirst => hfirst.trans (ih s')
    · exact id

theorem leadsTo_runSource (s : Session) (name source : String) :
    s.LeadsTo (s.runSource name source).session := by
  rw [runSource]
  rcases scan name source with fault | ts
  · exact .of_sink_eq rfl
  · dsimp only
    rcases parse ts with fault | program
    · exact .of_sink_eq rfl
    · exact s.leadsTo_runStatements program.statements

/-- The bytes of an answer are those that the sink has more than before. -/
theorem written_answerOf {s : Session} {o : Outcome} (h : s.LeadsTo o.session) :
    (s.answerOf o).2.sink.written = s.sink.written ++ (s.answerOf o).1.written := by
  obtain ⟨-, more, h⟩ := h
  simp only [answerOf, Answer.written, h]
  rw [ByteArray.extract_append_eq_right rfl ByteArray.size_append]

theorem take_written (s : Session) (name : String) (step : Step) :
    (s.take name step).2.sink.written = s.sink.written ++ (s.take name step).1.written := by
  cases step with
  | line source => exact written_answerOf (s.leadsTo_runSource name source)
  | statement statement => exact written_answerOf (s.leadsTo_runStatement statement)
  | assign target e =>
    rw [take, assign]
    cases e.value s.scope <;> simp [Answer.written]
  | evaluate e => simp [take, Answer.written]
  | get target => simp [take, Answer.written]
  | scopeName => simp [take, Answer.written]

/-- The output of a session is what its steps wrote. -/
theorem takeAll_written (s : Session) (name : String) (steps : List Step) :
    (s.takeAll name steps).2.sink.written =
      s.sink.written ++ writtenBy (s.takeAll name steps).1 := by
  induction steps generalizing s with
  | nil => simp [takeAll, writtenBy]
  | cons step steps ih =>
    rw [takeAll]
    dsimp only
    rw [ih, take_written, writtenBy, ByteArray.append_assoc]

/-! ## Stages -/

variable {s : Session} {name line rest source : String} {ts : List Token}

theorem runSource_of_scan_error {fault : Located ScanFault} (h : scan name source = .error fault) :
    s.runSource name source = s.stopFor (fault.map .scanning) := by
  rw [runSource, h]

theorem runSource_of_parse_error (hts : scan name source = .ok ts) {fault : Located SyntaxFault}
    (h : parse ts = .error fault) :
    s.runSource name source = s.stopFor (fault.map .parsing) := by
  simp only [runSource, hts, h]

theorem runSource_of_parse_ok (hts : scan name source = .ok ts) {program : Program}
    (h : parse ts = .ok program) :
    s.runSource name source = s.runStatements program.statements := by
  simp only [runSource, hts, h]

/-- What stops for a fault does nothing else. -/
theorem undergo_eq_stopFor {effect : Effect} {fault : Located Fault}
    (h : (s.undergo effect).stop = some (.fault fault)) :
    (∃ f : Located RunFault, fault = f.map .running) ∧ s.undergo effect = s.stopFor fault := by
  rcases effect with f | text | ⟨target, v⟩
  · cases h
    exact ⟨⟨f, rfl⟩, rfl⟩
  · simp only [undergo, write] at h
    split at h <;> cases h
  · cases h

theorem runStatement_stop {statement : Statement} {fault : Located Fault}
    (h : (s.runStatement statement).stop = some (.fault fault)) :
    ∃ f : Located RunFault, fault = f.map .running := by
  rw [runStatement_eq_undergo] at h
  exact (undergo_eq_stopFor h).1

/-- Statements stop for faults of running programs only. -/
theorem runStatements_stop {ss : List Statement} {fault : Located Fault}
    (h : (s.runStatements ss).stop = some (.fault fault)) :
    ∃ f : Located RunFault, fault = f.map .running := by
  induction ss generalizing s with
  | nil => cases h
  | cons first ss ih =>
    have hfirst := @runStatement_stop s first fault
    rw [runStatements] at h
    revert h hfirst
    obtain ⟨s', stop⟩ := s.runStatement first
    cases stop with
    | none => exact fun h _ => ih h
    | some stop => exact fun h hfirst => hfirst h

/-- A run that stops for a fault in the characters has found it when scanning. -/
theorem scan_error_of_runSource_stop {fault : Located ScanFault}
    (h : (s.runSource name source).stop = some (.fault (fault.map .scanning))) :
    ∃ fault, scan name source = .error fault := by
  cases hscan : scan name source with
  | error fault => exact ⟨fault, rfl⟩
  | ok ts =>
    cases hparse : parse ts with
    | error f =>
      rw [runSource_of_parse_error hscan hparse] at h
      cases h
    | ok program =>
      rw [runSource_of_parse_ok hscan hparse] at h
      obtain ⟨f, hf⟩ := runStatements_stop h
      cases hf

/-- A run that stops for a syntax error has found it when parsing. -/
theorem parse_error_of_runSource_stop (hts : scan name source = .ok ts)
    {fault : Located SyntaxFault}
    (h : (s.runSource name source).stop = some (.fault (fault.map .parsing))) :
    ∃ fault, parse ts = .error fault := by
  cases hparse : parse ts with
  | error fault => exact ⟨fault, rfl⟩
  | ok program =>
    rw [runSource_of_parse_ok hts hparse] at h
    obtain ⟨f, hf⟩ := runStatements_stop h
    cases hf

/-! ## Line by line -/

/-- Running goes on behind a line, in the session that the line has left. -/
theorem runSource_append_newline (s : Session) (hline : IsLine line) (h : Parses name line)
    (h' : Parses name rest) :
    s.runSource name (line ++ "\n" ++ rest) =
      match s.runSource name line with
      | ⟨s', none⟩ => (s'.runSource name rest).relocate (.below [line])
      | stopped => stopped := by
  obtain ⟨ts, first, hts, hfirst⟩ := h
  obtain ⟨us, more, hus, hmore⟩ := h'
  obtain ⟨both, program, hscan, hparse, hstatements⟩ :=
    exists_parse_append_newline hline hts hfirst hus hmore
  rw [runSource_of_parse_ok hscan hparse, hstatements, runStatements_append,
    runSource_of_parse_ok hts hfirst]
  obtain ⟨s', stop⟩ := s.runStatements first.statements
  cases stop with
  | none =>
    have hrest : s'.runSource name rest = s'.runStatements more.statements :=
      runSource_of_parse_ok hus hmore
    exact (s'.runStatements_relocate _).trans (congrArg _ hrest.symm)
  | some stop => rfl

/-- None of the steps ends early. -/
def Completes (s : Session) (name : String) (steps : List Step) : Prop :=
  ∀ answer ∈ (s.takeAll name steps).1, answer.stop? = none

theorem completes_line_cons {s : Session} {steps : List Step} :
    s.Completes name (.line line :: steps) ↔ (s.runSource name line).stop = none ∧
      (s.runSource name line).session.Completes name steps := by
  simp only [Completes, takeAll, List.forall_mem_cons]
  rfl

theorem takeAll_line_cons (s : Session) (name line : String) (steps : List Step) :
    (s.takeAll name (.line line :: steps)).2 =
      ((s.runSource name line).session.takeAll name steps).2 := rfl

theorem outcome_eq {o : Outcome} {stop : Option Stop} (h : o.stop = stop) :
    o = ⟨o.session, stop⟩ := by
  rw [← h]

/-- If every line completes, so does the source, with the session that the lines leave. -/
theorem runSource_intercalate_of_completes {lines : List String} (hlines : lines ≠ [])
    (h : ParseAll name lines) (hcompletes : s.Completes name (lines.map .line)) :
    s.runSource name ("\n".intercalate lines) = ⟨(s.takeAll name (lines.map .line)).2, none⟩ := by
  induction lines generalizing s with
  | nil => exact absurd rfl hlines
  | cons line more ih =>
    obtain ⟨⟨hline, hparses⟩, hmore⟩ := List.forall_mem_cons.mp h
    obtain ⟨hstop, hcompletes⟩ := completes_line_cons.mp hcompletes
    cases more with
    | nil =>
      rw [String.intercalate_singleton]
      exact outcome_eq hstop
    | cons next more =>
      have hrest := ih (List.cons_ne_nil _ _) hmore hcompletes
      rw [String.intercalate_cons_cons, runSource_append_newline s hline hparses
        (parses_intercalate (List.cons_ne_nil _ _) hmore), List.map_cons, takeAll_line_cons,
        outcome_eq hstop]
      exact congrArg (Outcome.relocate (.below [line])) hrest

/-- The source stops where the first line stops, with the session that this line leaves. -/
theorem runSource_intercalate_of_stop {before after : List String}
    (h : ParseAll name (before ++ line :: after))
    (hcompletes : s.Completes name (before.map .line)) {stop : Stop}
    (hstop : ((s.takeAll name (before.map .line)).2.take name (.line line)).1.stop? = some stop) :
    s.runSource name ("\n".intercalate (before ++ line :: after)) =
      ⟨(s.takeAll name ((before ++ [line]).map .line)).2,
        some (stop.relocate (.below before))⟩ := by
  induction before generalizing s with
  | nil =>
    obtain ⟨⟨hline, hparses⟩, hafter⟩ := List.forall_mem_cons.mp h
    have hstop : (s.runSource name line).stop = some stop := hstop
    rw [Position.below_nil, Stop.relocate_id, List.nil_append, List.nil_append]
    cases after with
    | nil =>
      rw [String.intercalate_singleton]
      exact outcome_eq hstop
    | cons next after =>
      rw [String.intercalate_cons_cons, runSource_append_newline s hline hparses
        (parses_intercalate (List.cons_ne_nil _ _) hafter), outcome_eq hstop]
      rfl
  | cons first before ih =>
    obtain ⟨⟨hfirst, hparses⟩, hmore⟩ := List.forall_mem_cons.mp h
    obtain ⟨hnone, hcompletes⟩ := completes_line_cons.mp hcompletes
    -- the source behind the first line runs in the session that this line leaves
    have hrest := ih hmore hcompletes hstop
    have hne : before ++ line :: after ≠ [] := by simp
    rw [List.cons_append, String.intercalate_cons_of_ne_nil hne, runSource_append_newline s hfirst
      hparses (parses_intercalate hne hmore), outcome_eq hnone, List.cons_append, List.map_cons,
      takeAll_line_cons]
    refine (congrArg (Outcome.relocate (.below [first])) hrest).trans ?_
    simp only [Outcome.relocate, Option.map_some, Stop.relocate_relocate, ← Position.below_cons]

theorem runSource_of_lines_complete (h : ∀ line ∈ sourceLines source, Parses name line)
    (hcompletes : s.Completes name ((sourceLines source).map .line)) :
    s.runSource name source = ⟨(s.takeAll name ((sourceLines source).map .line)).2, none⟩ := by
  have hlines := runSource_intercalate_of_completes (sourceLines_ne_nil source)
    (parseAll_of_subset (List.Subset.refl _) h) hcompletes
  rwa [intercalate_sourceLines] at hlines

theorem runSource_of_lines_stop (h : ∀ line ∈ sourceLines source, Parses name line)
    {before after : List String} (hsource : sourceLines source = before ++ line :: after)
    (hcompletes : s.Completes name (before.map .line)) {stop : Stop}
    (hstop : ((s.takeAll name (before.map .line)).2.take name (.line line)).1.stop? = some stop) :
    s.runSource name source =
      ⟨(s.takeAll name ((before ++ [line]).map .line)).2,
        some (stop.relocate (.below before))⟩ := by
  have hparses := parseAll_of_subset (List.Subset.refl _) h
  rw [hsource] at hparses
  have hlines := runSource_intercalate_of_stop hparses hcompletes hstop
  rwa [← hsource, intercalate_sourceLines] at hlines

/-- If not every line completes, there is a first that stops. -/
theorem exists_first_stop {lines : List String} (h : ¬ s.Completes name (lines.map .line)) :
    ∃ before line after stop, lines = before ++ line :: after ∧
      s.Completes name (before.map .line) ∧
      ((s.takeAll name (before.map .line)).2.take name (.line line)).1.stop? = some stop := by
  induction lines generalizing s with
  | nil => exact absurd (fun _ => nofun) h
  | cons line more ih =>
    cases hstop : (s.runSource name line).stop with
    | some stop => exact ⟨[], line, more, stop, rfl, fun _ => nofun, hstop⟩
    | none =>
      have hmore : ¬ (s.runSource name line).session.Completes name (more.map .line) :=
        fun hmore => h (completes_line_cons.mpr ⟨hstop, hmore⟩)
      obtain ⟨before, line', after, stop, rfl, hbefore, hline'⟩ := ih hmore
      exact ⟨line :: before, line', after, stop, rfl,
        completes_line_cons.mpr ⟨hstop, hbefore⟩, hline'⟩

end Session

/-! ## The whole source -/

/-- A run leaves the session that has taken the lines, has written what they write, and ends
with `stop`. -/
structure EndsAfter (o : Outcome) (s : Session) (name : String) (lines : List String)
    (stop : Option Stop) : Prop where
  session_eq : o.session = (s.takeAll name (lines.map .line)).2
  written_eq : o.session.sink.written =
    s.sink.written ++ writtenBy (s.takeAll name (lines.map .line)).1
  stop_eq : o.stop = stop

/-- Running a source, compared with its lines and with a session that is given the lines. -/
structure AgreesWithLines (name source : String) (sink : Sink) : Prop where
  /-- The characters of a source are at fault iff those of one of its lines are. -/
  scanning_fails_iff :
    (∃ fault : Located ScanFault,
      (run name source sink).stop = some (.fault (fault.map .scanning))) ↔
    ∃ line ∈ sourceLines source, ∃ fault, scan name line = .error fault
  /-- The fault is then that of the first such line, and nothing is written. -/
  scanning_fault : ∀ before line after fault, sourceLines source = before ++ line :: after →
    (∀ first ∈ before, ∃ ts, scan name first = .ok ts) → scan name line = .error fault →
    run name source sink =
      (Session.fresh sink).stopFor ((fault.relocate (.below before)).map .scanning)
  /-- Otherwise the syntax of a source is at fault iff that of one of its lines is. -/
  parsing_fails_iff : (∀ line ∈ sourceLines source, ∃ ts, scan name line = .ok ts) →
    ((∃ fault : Located SyntaxFault,
      (run name source sink).stop = some (.fault (fault.map .parsing))) ↔
    ∃ line ∈ sourceLines source, ∃ ts fault, scan name line = .ok ts ∧ parse ts = .error fault)
  /-- The fault is then that of the first such line, though an end of the input is told of as
  the newline there, and nothing is written. -/
  parsing_fault : (∀ line ∈ sourceLines source, ∃ ts, scan name line = .ok ts) →
    ∀ before line after ts fault, sourceLines source = before ++ line :: after →
    (∀ first ∈ before, Parses name first) → scan name line = .ok ts → parse ts = .error fault →
    run name source sink = (Session.fresh sink).stopFor
      (((fault.followedBy name line after).relocate (.below before)).map .parsing)
  /-- Otherwise the source completes iff all of its lines complete in the session. -/
  completes_iff : (∀ line ∈ sourceLines source, Parses name line) →
    ((run name source sink).stop = none ↔
      (Session.fresh sink).Completes name ((sourceLines source).map .line))
  /-- It then does what all of the lines do in the session. -/
  completes : (∀ line ∈ sourceLines source, Parses name line) →
    (Session.fresh sink).Completes name ((sourceLines source).map .line) →
    EndsAfter (run name source sink) (.fresh sink) name (sourceLines source) none
  /-- If not, it does what the lines do in the session up to the first that stops. -/
  stops : (∀ line ∈ sourceLines source, Parses name line) →
    ∀ before line after stop, sourceLines source = before ++ line :: after →
    (Session.fresh sink).Completes name (before.map .line) →
    (((Session.fresh sink).takeAll name (before.map .line)).2.take name (.line line)).1.stop? =
      some stop →
    EndsAfter (run name source sink) (.fresh sink) name (before ++ [line])
      (some (stop.relocate (.below before)))

/-- The first of the elements with a property. -/
theorem exists_first {α : Type} {P : α → Prop} {l : List α} (h : ∃ a ∈ l, P a) :
    ∃ before a after, l = before ++ a :: after ∧ (∀ b ∈ before, ¬ P b) ∧ P a := by
  induction l with
  | nil =>
    obtain ⟨a, ha, -⟩ := h
    cases ha
  | cons a l ih =>
    by_cases ha : P a
    · exact ⟨[], a, l, rfl, fun _ => nofun, ha⟩
    · obtain ⟨b, hb, hPb⟩ := h
      obtain rfl | hb := List.mem_cons.mp hb
      · exact absurd hPb ha
      · obtain ⟨before, b, after, rfl, hbefore, hb⟩ := ih ⟨b, hb, hPb⟩
        exact ⟨a :: before, b, after, rfl, List.forall_mem_cons.mpr ⟨ha, hbefore⟩, hb⟩

theorem EndsAfter.of_eq {o : Outcome} {s : Session} {name : String} {lines : List String}
    {stop : Option Stop} (h : o = ⟨(s.takeAll name (lines.map .line)).2, stop⟩) :
    EndsAfter o s name lines stop where
  session_eq := by rw [h]
  written_eq := by rw [h, Session.takeAll_written]
  stop_eq := by rw [h]

theorem exists_ok_iff {ε α : Type} {r : Except ε α} :
    (∃ a, r = .ok a) ↔ ¬ ∃ e, r = .error e := by
  cases r <;> simp

/-- What can be scanned is a program unless it has a syntax error. -/
theorem parses_iff {name source : String} (h : ∃ ts, scan name source = .ok ts) :
    Parses name source ↔ ¬ ∃ ts fault, scan name source = .ok ts ∧ parse ts = .error fault := by
  obtain ⟨ts, hts⟩ := h
  simp only [Parses, hts, Except.ok.injEq, exists_and_left, exists_eq_left']
  exact exists_ok_iff

/-- Running a source and running its lines one after the other agree. -/
theorem run_agrees_with_lines (name source : String) (sink : Sink) :
    AgreesWithLines name source sink where
  scanning_fails_iff := by
    constructor
    · rintro ⟨_, hstop⟩
      have hfault := Session.scan_error_of_runSource_stop hstop
      refine Classical.byContradiction fun hnone => ?_
      have hscan := exists_scan_of_lines fun line hline =>
        exists_ok_iff.mpr fun hline' => hnone ⟨line, hline, hline'⟩
      exact exists_ok_iff.mp hscan hfault
    · intro h
      obtain ⟨before, line, after, hsource, hbefore, fault, hfault⟩ := exists_first h
      have hscan := scan_error_of_line hsource (fun l hl => exists_ok_iff.mpr (hbefore l hl)) hfault
      exact ⟨_, by rw [run, Session.runSource_of_scan_error hscan]; rfl⟩
  scanning_fault before line after fault hsource hbefore hfault :=
    Session.runSource_of_scan_error (scan_error_of_line hsource hbefore hfault)
  parsing_fails_iff hscan := by
    constructor
    · rintro ⟨_, hstop⟩
      refine Classical.byContradiction fun hnone => ?_
      obtain ⟨ts, program, hts, hparse⟩ := parses_of_lines fun line hline =>
        (parses_iff (hscan line hline)).mpr fun hline' => hnone ⟨line, hline, hline'⟩
      exact exists_ok_iff.mp ⟨program, hparse⟩ (Session.parse_error_of_runSource_stop hts hstop)
    · intro h
      obtain ⟨before, line, after, hsource, hbefore, ts, fault, hts, hfault⟩ := exists_first h
      have hparses (l : String) (hl : l ∈ before) : Parses name l :=
        (parses_iff (hscan l (by simp [hsource, hl]))).mpr (hbefore l hl)
      obtain ⟨us, hus, hparse⟩ := parse_error_of_line hscan hsource hparses hts hfault
      exact ⟨_, by rw [run, Session.runSource_of_parse_error hus hparse]; rfl⟩
  parsing_fault hscan before line after ts fault hsource hbefore hts hfault := by
    obtain ⟨us, hus, h⟩ := parse_error_of_line hscan hsource hbefore hts hfault
    exact Session.runSource_of_parse_error hus h
  completes_iff hparses := by
    constructor
    · intro h
      refine Classical.byContradiction fun hnone => ?_
      obtain ⟨before, line, after, stop, hsource, hbefore, hstop⟩ := Session.exists_first_stop hnone
      rw [run, Session.runSource_of_lines_stop hparses hsource hbefore hstop] at h
      cases h
    · intro h
      rw [run, Session.runSource_of_lines_complete hparses h]
  completes hparses h := .of_eq (Session.runSource_of_lines_complete hparses h)
  stops hparses before line after stop hsource hbefore hstop :=
    .of_eq (Session.runSource_of_lines_stop hparses hsource hbefore hstop)

end Peng
