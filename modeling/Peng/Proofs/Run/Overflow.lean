import Peng.Proofs.Run.Failure
import Peng.Proofs.Run.Limit

/-!
# Sinks that fill up

A sink with a limit cuts a session short and changes nothing else. The main statement is
`limited_sink_truncates`: the output is the front of what a sink without a limit would have
taken, and everything is the same up to the step that writes too much.

## Shape of the proof

As long as the output of the steps fits, limiting the sink commutes with taking them
(`Session.takeAll_limitedTo`). If it does not fit there is a first step that writes too much
(`Session.exists_overflow_of_takeAll`). That step leaves the sink full, and the steps behind it
may still do other things than without the limit, for some assignments have not been carried out,
but they write nothing (`Session.sink_takeAll_of_isFull`).
-/

namespace Peng

namespace Session

variable {s : Session} {limit : Nat} {name : String}

/-! ## Steps -/

theorem sink_assign (s : Session) (target : String) (e : Expr) :
    (s.assign target e).2.sink = s.sink := by
  rw [assign]
  rcases e.value s.scope with fault | v <;> rfl

theorem assign_limitedTo (s : Session) (target : String) (e : Expr) :
    (s.limitedTo limit).assign target e =
      ((s.assign target e).1, (s.assign target e).2.limitedTo limit) := by
  have hscope : (s.limitedTo limit).scope = s.scope := rfl
  rw [assign, assign, hscope]
  rcases e.value s.scope with fault | v <;> rfl

/-- A single assignment does what the session does when asked for it. -/
theorem session_runStatement_assign (s : Session) (target : String) (e : Expr) (span : Span) :
    (s.runStatement (.assign target e span)).session = (s.assign target e).2 := by
  rw [runStatement]
  rcases s.assign target e with ⟨_ | v, s'⟩ <;> rfl

/-- A step leaves what some statements leave: those of a line, a single one, or none. -/
theorem exists_session_take (s : Session) (name : String) (step : Step) :
    ∃ ss, (s.take name step).2 = (s.runStatements ss).session := by
  rcases step with source | statement | ⟨target, e⟩ | e | target | -
  · show ∃ ss, (s.runSource name source).session = _
    rcases hscan : scan name source with fault | ts
    · rw [runSource_of_scan_error hscan]
      exact ⟨[], rfl⟩
    rcases hparse : parse ts with fault | program
    · rw [runSource_of_parse_error hscan hparse]
      exact ⟨[], rfl⟩
    · rw [runSource_of_parse_ok hscan hparse]
      exact ⟨program.statements, rfl⟩
  · refine ⟨[statement], ?_⟩
    rw [runStatements_singleton]
    rfl
  · refine ⟨[.assign target e (.empty (.start name))], ?_⟩
    rw [runStatements_singleton, session_runStatement_assign]
    rfl
  · exact ⟨[], rfl⟩
  · exact ⟨[], rfl⟩
  · exact ⟨[], rfl⟩

theorem leadsTo_take (s : Session) (name : String) (step : Step) :
    s.LeadsTo (s.take name step).2 := by
  obtain ⟨ss, hss⟩ := s.exists_session_take name step
  rw [hss]
  exact s.leadsTo_runStatements ss

theorem leadsTo_takeAll (s : Session) (name : String) (steps : List Step) :
    s.LeadsTo (s.takeAll name steps).2 := by
  induction steps generalizing s with
  | nil => exact .of_sink_eq rfl
  | cons step steps ih => exact (s.leadsTo_take name step).trans (ih _)

/-- What a step does with a sink that takes only `limit` bytes. -/
structure TakeTruncates (s : Session) (limit : Nat) (name : String) (step : Step) : Prop where
  sink_eq : ((s.limitedTo limit).take name step).2.sink = (s.take name step).2.sink.limitedTo limit
  of_fits : (s.take name step).2.sink.written.size ≤ limit →
    (s.limitedTo limit).take name step =
      ((s.take name step).1, (s.take name step).2.limitedTo limit)
  of_overflow : limit < (s.take name step).2.sink.written.size →
    ((s.limitedTo limit).take name step).1.stop? = some .sinkFull

theorem answerOf_limitedTo {o : Outcome} (h : s.sink.FitsIn limit)
    (ho : o.session.sink.FitsIn limit) :
    (s.limitedTo limit).answerOf (o.limitedTo limit) =
      ((s.answerOf o).1, o.session.limitedTo limit) := by
  simp only [answerOf, Outcome.limitedTo, limitedTo, h.limitedTo_eq, ho.limitedTo_eq]

theorem Truncates.take {o o' : Outcome} (h : s.sink.FitsIn limit) (hleads : s.LeadsTo o.session)
    (ho : Truncates limit o o') :
    ((s.limitedTo limit).answerOf o').2.sink = o.session.sink.limitedTo limit ∧
    (o.session.sink.written.size ≤ limit →
      (s.limitedTo limit).answerOf o' = ((s.answerOf o).1, o.session.limitedTo limit)) ∧
    (limit < o.session.sink.written.size →
      ((s.limitedTo limit).answerOf o').1.stop? = some .sinkFull) := by
  refine ⟨ho.sink_eq, fun hfits => ?_, ho.of_overflow⟩
  rw [ho.of_fits hfits, answerOf_limitedTo h (hleads.fitsIn h hfits)]

theorem takeTruncates (h : s.sink.FitsIn limit) (name : String) (step : Step) :
    s.TakeTruncates limit name step := by
  -- what writes nothing fits, and goes the same way
  have hquiet {answer : Answer} {s' : Session} (hsink : s'.sink = s.sink)
      (htake : s.take name step = (answer, s'))
      (hlimited : (s.limitedTo limit).take name step = (answer, s'.limitedTo limit)) :
      s.TakeTruncates limit name step := by
    constructor
    · rw [hlimited, htake]
      rfl
    · intro _
      rw [hlimited, htake]
    · intro hover
      rw [htake] at hover
      exact absurd h.size_le (Nat.not_le_of_lt (hsink ▸ hover))
  rcases step with source | statement | ⟨target, e⟩ | e | target | -
  · obtain ⟨hsink, hfits, hover⟩ :=
      (truncates_runSource h name source).take h (s.leadsTo_runSource name source)
    exact ⟨hsink, hfits, hover⟩
  · obtain ⟨hsink, hfits, hover⟩ :=
      (truncates_runStatement h statement).take h (s.leadsTo_runStatement statement)
    exact ⟨hsink, hfits, hover⟩
  · refine hquiet (s.sink_assign target e) rfl ?_
    rw [take, s.assign_limitedTo]
    rfl
  · exact hquiet rfl rfl rfl
  · exact hquiet rfl rfl rfl
  · exact hquiet rfl rfl rfl

/-! ## Sessions -/

theorem takeAll_limitedTo (h : s.sink.FitsIn limit) {steps : List Step}
    (hfits : (s.takeAll name steps).2.sink.written.size ≤ limit) :
    (s.limitedTo limit).takeAll name steps =
      ((s.takeAll name steps).1, (s.takeAll name steps).2.limitedTo limit) := by
  induction steps generalizing s with
  | nil => rfl
  | cons step steps ih =>
    have hsize : (s.take name step).2.sink.written.size ≤ limit :=
      Nat.le_trans ((s.take name step).2.leadsTo_takeAll name steps).size_le hfits
    have hstep := (takeTruncates h name step).of_fits hsize
    have hsteps := ih ((s.leadsTo_take name step).fitsIn h hsize) hfits
    simp only [takeAll, hstep, hsteps]

/-- Steps that write too much have a first that does. -/
theorem exists_overflow_of_takeAll (h : s.sink.FitsIn limit) {steps : List Step}
    (hsize : limit < (s.takeAll name steps).2.sink.written.size) :
    ∃ before step after, steps = before ++ step :: after ∧
      (s.takeAll name before).2.sink.written.size ≤ limit ∧
      limit < ((s.takeAll name before).2.take name step).2.sink.written.size := by
  induction steps generalizing s with
  | nil => exact absurd h.size_le (Nat.not_le_of_lt hsize)
  | cons step steps ih =>
    by_cases hfits : (s.take name step).2.sink.written.size ≤ limit
    · obtain ⟨before, step', after, rfl, hbefore, hover⟩ :=
        ih ((s.leadsTo_take name step).fitsIn h hfits) hsize
      exact ⟨step :: before, step', after, rfl, hbefore, hover⟩
    · exact ⟨[], step, steps, rfl, h.size_le, Nat.lt_of_not_le hfits⟩

theorem takeAll_append (s : Session) (name : String) (before after : List Step) :
    s.takeAll name (before ++ after) =
      ((s.takeAll name before).1 ++ ((s.takeAll name before).2.takeAll name after).1,
        ((s.takeAll name before).2.takeAll name after).2) := by
  induction before generalizing s with
  | nil => rfl
  | cons step before ih => simp only [List.cons_append, takeAll, ih]

theorem length_takeAll (s : Session) (name : String) (steps : List Step) :
    (s.takeAll name steps).1.length = steps.length := by
  induction steps generalizing s with
  | nil => rfl
  | cons step steps ih => simp only [takeAll, List.length_cons, ih]

/-! ## Full sinks -/

theorem sink_runStatement_of_isFull (h : s.sink.IsFull) (statement : Statement) :
    (s.runStatement statement).session.sink = s.sink := by
  rw [runStatement_eq_undergo]
  rcases statement.effect s.scope with fault | text | ⟨target, v⟩
  · rfl
  · exact h.write_eq text.toUTF8
  · rfl

theorem sink_runStatements_of_isFull (h : s.sink.IsFull) (ss : List Statement) :
    (s.runStatements ss).session.sink = s.sink := by
  induction ss generalizing s with
  | nil => rfl
  | cons first more ih =>
    have hfirst := sink_runStatement_of_isFull h first
    rw [runStatements]
    revert hfirst
    rcases s.runStatement first with ⟨s', _ | stop⟩
    · intro hfirst
      have hfull : s'.sink.IsFull := by rwa [show s'.sink = s.sink from hfirst]
      exact (ih hfull).trans hfirst
    · exact id

theorem sink_take_of_isFull (h : s.sink.IsFull) (name : String) (step : Step) :
    (s.take name step).2.sink = s.sink := by
  obtain ⟨ss, hss⟩ := s.exists_session_take name step
  rw [hss]
  exact sink_runStatements_of_isFull h ss

/-- Nothing is written any more once the sink is full. -/
theorem sink_takeAll_of_isFull (h : s.sink.IsFull) (name : String) (steps : List Step) :
    (s.takeAll name steps).2.sink = s.sink := by
  induction steps generalizing s with
  | nil => rfl
  | cons step steps ih =>
    have hstep := sink_take_of_isFull h name step
    have hfull : (s.take name step).2.sink.IsFull := by rwa [hstep]
    exact (ih hfull).trans hstep

/-- The output of a session with a limited sink is the front of what it would have been. -/
theorem sink_takeAll_limitedTo (h : s.sink.FitsIn limit) (name : String) (steps : List Step) :
    ((s.limitedTo limit).takeAll name steps).2.sink =
      (s.takeAll name steps).2.sink.limitedTo limit := by
  by_cases hfits : (s.takeAll name steps).2.sink.written.size ≤ limit
  · rw [takeAll_limitedTo h hfits]
    rfl
  · obtain ⟨before, step, after, rfl, hbefore, hover⟩ :=
      exists_overflow_of_takeAll h (Nat.lt_of_not_le hfits)
    have hs' := (s.leadsTo_takeAll name before).fitsIn h hbefore
    have hsink := (takeTruncates hs' name step).sink_eq
    have hlimit := ((s.takeAll name before).2.leadsTo_take name step).limit_eq.trans hs'.limit_eq
    -- behind the step that overflows the limited sink is full, and the other one has its front
    have hfull : (((s.takeAll name before).2.limitedTo limit).take name step).2.sink.IsFull := by
      rw [hsink]
      exact Sink.isFull_limitedTo (Nat.le_of_lt hover)
    have hmore := leadsTo_takeAll ((s.takeAll name before).2.take name step).2 name after
    rw [takeAll_append, takeAll_append, takeAll_limitedTo h hbefore]
    show ((((s.takeAll name before).2.limitedTo limit).take name step).2.takeAll name after).2.sink =
      (((s.takeAll name before).2.take name step).2.takeAll name after).2.sink.limitedTo limit
    rw [sink_takeAll_of_isFull hfull, hsink, hmore.limitedTo_eq hlimit (Nat.le_of_lt hover)]

end Session

/-! ## Limits -/

theorem Sink.fitsIn_empty (limit : Nat) : (Sink.empty none).FitsIn limit :=
  ⟨rfl, Nat.zero_le limit⟩

theorem Session.limitedTo_empty (scope : Scope) (limit : Nat) :
    (⟨scope, .empty none⟩ : Session).limitedTo limit = ⟨scope, .empty (some limit)⟩ := by
  rw [limitedTo, (Sink.fitsIn_empty limit).limitedTo_eq]
  rfl

theorem Sink.written_limitedTo (s : Sink) (limit : Nat) :
    (s.limitedTo limit).written = s.written.extract 0 (min limit s.written.size) := by
  rcases Nat.le_total limit s.written.size with h | h
  · rw [Nat.min_eq_left h]
    rfl
  · rw [Nat.min_eq_right h, ByteArray.extract_zero_size]
    exact extract_of_size_le h

theorem Session.write_append (s : Session) (text more : String) :
    s.write (text ++ more) =
      match s.write text with
      | ⟨s', none⟩ => s'.write more
      | stopped => stopped := by
  have hbytes : (text ++ more).toUTF8 = text.toUTF8 ++ more.toUTF8 := String.toByteArray_append
  have hboth := s.sink.write_append text.toUTF8 more.toUTF8
  rw [← hbytes] at hboth
  rcases hfirst : s.sink.write text.toUTF8 with ⟨sink, _ | _⟩
  · rw [hfirst] at hboth
    rw [write_of_sink hboth, write_of_sink hfirst]
    rfl
  · rw [hfirst] at hboth
    rw [write_of_sink hfirst]
    show _ = (⟨s.scope, sink⟩ : Session).write more
    rw [write, write, hboth]

/-- How a sink of `limit` bytes takes what is written. -/
structure FillsUp (limit : Nat) : Prop where
  /-- When there is no room left, it refuses any more bytes. -/
  refuses : ∀ written bytes : ByteArray, written.size = limit → bytes ≠ .empty →
    (⟨some limit, written⟩ : Sink).write bytes = (⟨some limit, written⟩, false)
  /-- A line is written first, and its end only if all of it was accepted. -/
  line_end : ∀ (s : Session) (line : String), s.write (line ++ "\n") =
    match s.write line with
    | ⟨s', none⟩ => s'.write "\n"
    | stopped => stopped

/-- A run of the source with a sink that takes `limit` bytes, the outcome `o'`, compared with one
whose sink takes everything, the outcome `o`. -/
structure TruncatesRun (limit : Nat) (name source : String) (o o' : Outcome) : Prop where
  /-- The output is as much as fits of what the other sink takes. -/
  written_eq : o'.session.sink.written =
    o.session.sink.written.extract 0 (min limit o.session.sink.written.size)
  /-- If all of it fits, the two runs end the same way and leave the same names. -/
  of_fits : o.session.sink.written.size ≤ limit →
    o'.stop = o.stop ∧ o'.session.scope = o.session.scope
  /-- If not, the sink ends the run, at the first statement whose line does not fit: the names are
  those that the statements before it leave. -/
  of_overflow : limit < o.session.sink.written.size →
    o'.stop = some .sinkFull ∧
    ∃ ts span before print after, scan name source = .ok ts ∧
      parse ts = .ok ⟨before ++ print :: after, span⟩ ∧
      (Session.fresh (.empty none)).OverflowsAt limit before print ∧
      o'.session.scope = ((Session.fresh (.empty none)).runStatements before).session.scope

/-- Steps of the session `s'`, whose sink takes `limit` bytes, compared with the same steps of the
session `s`, whose sink takes everything. -/
structure TruncatesSession (limit : Nat) (name : String) (steps : List Step) (s s' : Session) :
    Prop where
  /-- The output is as much as fits of what the other sink takes. -/
  written_eq : (s'.takeAll name steps).2.sink.written =
    (s.takeAll name steps).2.sink.written.extract 0
      (min limit (s.takeAll name steps).2.sink.written.size)
  /-- Steps answer the same as long as all of their output fits, and leave the same names. -/
  of_fits : ∀ before after, steps = before ++ after →
    (s.takeAll name before).2.sink.written.size ≤ limit →
    (s'.takeAll name steps).1.take before.length = (s.takeAll name steps).1.take before.length ∧
    (s'.takeAll name before).2.scope = (s.takeAll name before).2.scope
  /-- The first step whose output does not fit ends because of that. -/
  of_overflow : ∀ before step after, steps = before ++ step :: after →
    (s.takeAll name before).2.sink.written.size ≤ limit →
    limit < (s.takeAll name (before ++ [step])).2.sink.written.size →
    ∃ answer, (s'.takeAll name steps).1[before.length]? = some answer ∧
      answer.stop? = some .sinkFull

theorem truncatesRun (limit : Nat) (name source : String) :
    TruncatesRun limit name source (run name source (.empty none))
      (run name source (.empty (some limit))) := by
  have hfresh : (Session.fresh (.empty none)).sink.FitsIn limit := Sink.fitsIn_empty limit
  have hlimited : (Session.fresh (.empty none)).limitedTo limit =
      Session.fresh (.empty (some limit)) := Session.limitedTo_empty _ limit
  have htruncates : Session.Truncates limit (run name source (.empty none))
      (run name source (.empty (some limit))) := by
    have h := Session.truncates_runSource hfresh name source
    rwa [hlimited] at h
  constructor
  · rw [htruncates.sink_eq, Sink.written_limitedTo]
  · intro hfits
    rw [htruncates.of_fits hfits]
    exact ⟨rfl, rfl⟩
  · intro hover
    have hexists := Session.exists_overflow_of_runSource hfresh hover
    rw [hlimited] at hexists
    exact ⟨htruncates.of_overflow hover, hexists⟩

theorem truncatesSession {s : Session} {limit : Nat} (h : s.sink.FitsIn limit) (name : String)
    (steps : List Step) : TruncatesSession limit name steps s (s.limitedTo limit) := by
  constructor
  · rw [Session.sink_takeAll_limitedTo h, Sink.written_limitedTo]
  · rintro before after rfl hfits
    have hbefore := Session.takeAll_limitedTo h hfits
    rw [Session.takeAll_append, Session.takeAll_append, hbefore,
      ← Session.length_takeAll s name before]
    refine ⟨?_, rfl⟩
    dsimp only
    rw [List.take_left, List.take_left]
  · rintro before step after rfl hfits hover
    rw [Session.takeAll_append] at hover
    have hs' := (s.leadsTo_takeAll name before).fitsIn h hfits
    have hstep := (Session.takeTruncates hs' name step).of_overflow hover
    refine ⟨_, ?_, hstep⟩
    rw [Session.takeAll_append, Session.takeAll_limitedTo h hfits,
      ← Session.length_takeAll s name before]
    dsimp only
    rw [List.getElem?_append_right (Nat.le_refl _), Nat.sub_self]
    rfl

/-- A sink of `limit` bytes takes the front of the output, as much as fits, and ends a run at the
first line that does not fit; everything before is as it would be without the limit. -/
theorem limited_sink_truncates (limit : Nat) (name : String) :
    FillsUp limit ∧
    (∀ source, TruncatesRun limit name source (run name source (.empty none))
      (run name source (.empty (some limit)))) ∧
    ∀ scope steps, TruncatesSession limit name steps
      ⟨scope, .empty none⟩ ⟨scope, .empty (some limit)⟩ := by
  refine ⟨?_, truncatesRun limit name, fun scope steps => ?_⟩
  · constructor
    · rintro written bytes rfl hbytes
      exact Sink.IsFull.write_eq_false ⟨rfl⟩ hbytes
    · exact fun s line => s.write_append line "\n"
  · have h := @truncatesSession ⟨scope, .empty none⟩ limit (Sink.fitsIn_empty limit) name steps
    rwa [Session.limitedTo_empty] at h

-- what is assigned behind the line that does not fit is not carried out
example : (run "" "say \"ab\"\nx is 1" (.empty (some 2))).session.scope.bindings.isEmpty ∧
    (run "" "say \"ab\"\nx is 1" (.empty (some 3))).stop.isNone := by
  decide +kernel

end Peng
