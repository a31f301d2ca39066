import Peng.Proofs.Run.Lines

/-!
# Runs with a limited sink

A sink with a limit takes what it has room for and refuses the rest (`Sink.FitsIn.write_limitedTo`).
A run is the same with it as without the limit, up to the first line that does not fit:

* `limitedTo` gives a session the sink that takes `limit` bytes, and as long as everything fits
  this commutes with running (`Session.runStatements_limitedTo`),
* if not everything fits there is a first statement that writes too much
  (`Session.exists_overflow_of_runStatements`), and there the run ends
  (`Session.OverflowsAt.runStatements_limitedTo`).
-/

namespace Peng

/-! ## Writing -/

namespace Sink

variable {s : Sink} {limit : Nat}

/-- The sink as it would be if it took only `limit` bytes. -/
def limitedTo (s : Sink) (limit : Nat) : Sink :=
  ⟨some limit, s.written.extract 0 limit⟩

/-- A sink without a limit has taken no more than `limit` bytes. -/
structure FitsIn (s : Sink) (limit : Nat) : Prop where
  limit_eq : s.limit = none
  size_le : s.written.size ≤ limit

/-- There is no room left in the sink. -/
structure IsFull (s : Sink) : Prop where
  limit_eq : s.limit = some s.written.size

theorem extract_of_size_le {bytes : ByteArray} (h : bytes.size ≤ limit) :
    bytes.extract 0 limit = bytes := by
  have hempty : bytes.extract bytes.size limit = .empty := by
    rw [ByteArray.extract_eq_empty_iff]
    omega
  rw [ByteArray.extract_eq_extract_append_extract bytes.size (Nat.zero_le _) h,
    ByteArray.extract_zero_size, hempty, ByteArray.append_empty]

theorem FitsIn.limitedTo_eq (h : s.FitsIn limit) : s.limitedTo limit = ⟨some limit, s.written⟩ := by
  rw [limitedTo, extract_of_size_le h.size_le]

/-- A limited sink takes the bytes that an unlimited one takes, up to the limit, and refuses the
rest. -/
theorem FitsIn.write_limitedTo (h : s.FitsIn limit) (bytes : ByteArray) :
    (s.limitedTo limit).write bytes =
      ((s.write bytes).1.limitedTo limit, decide ((s.write bytes).1.written.size ≤ limit)) := by
  have hfits := h.size_le
  rw [h.limitedTo_eq, write_of_limit_eq_none h.limit_eq, limitedTo]
  simp only [write, ByteArray.size_append]
  by_cases hroom : bytes.size ≤ limit - s.written.size
  · have hall : s.written.size + bytes.size ≤ limit := by omega
    rw [if_pos hroom, extract_of_size_le (by rwa [ByteArray.size_append]), decide_eq_true hall]
  · have hall : ¬ s.written.size + bytes.size ≤ limit := by omega
    rw [if_neg hroom, ByteArray.extract_append, extract_of_size_le hfits, Nat.zero_sub,
      decide_eq_false hall]

/-- What stands in front of the limit does not change with what is written behind it. -/
theorem limitedTo_append {written more : ByteArray} (h : limit ≤ written.size) :
    (⟨none, written ++ more⟩ : Sink).limitedTo limit = (⟨none, written⟩ : Sink).limitedTo limit := by
  have hempty : more.extract 0 (limit - written.size) = .empty := by
    rw [ByteArray.extract_eq_empty_iff]
    omega
  simp only [limitedTo, ByteArray.extract_append, Nat.zero_sub, hempty, ByteArray.append_empty]

theorem isFull_limitedTo (h : limit ≤ s.written.size) : (s.limitedTo limit).IsFull where
  limit_eq := by
    show some limit = some (s.written.extract 0 limit).size
    rw [ByteArray.size_extract, Nat.sub_zero, Nat.min_eq_left h]

/-- A full sink refuses any more bytes. -/
theorem IsFull.write_eq_false (h : s.IsFull) {bytes : ByteArray} (hbytes : bytes ≠ .empty) :
    s.write bytes = (s, false) := by
  have hsize : ¬ bytes.size ≤ 0 := by
    rw [Nat.le_zero, ByteArray.size_eq_zero_iff]
    exact hbytes
  obtain ⟨limit, written⟩ := s
  obtain rfl : limit = some written.size := h.limit_eq
  simp only [write, Nat.sub_self, if_neg hsize, ByteArray.extract_same, ByteArray.append_empty]

theorem IsFull.write_eq (h : s.IsFull) (bytes : ByteArray) : (s.write bytes).1 = s := by
  by_cases hbytes : bytes = .empty
  · obtain ⟨limit, written⟩ := s
    obtain rfl : limit = some written.size := h.limit_eq
    simp only [write, hbytes, ByteArray.size_empty, Nat.zero_le, if_true, ByteArray.append_empty]
  · rw [h.write_eq_false hbytes]

/-- Bytes can be written in two parts, the second one only if the first was accepted. -/
theorem write_append (s : Sink) (bytes more : ByteArray) :
    s.write (bytes ++ more) =
      match s.write bytes with
      | (s', true) => s'.write more
      | refused => refused := by
  obtain ⟨limit | limit, written⟩ := s
  · simp only [write, ByteArray.append_assoc]
  simp only [write, ByteArray.size_append]
  by_cases hfirst : bytes.size ≤ limit - written.size
  · simp only [if_pos hfirst, ByteArray.size_append]
    by_cases hboth : bytes.size + more.size ≤ limit - written.size
    · have hmore : more.size ≤ limit - (written.size + bytes.size) := by omega
      rw [if_pos hboth, if_pos hmore, ByteArray.append_assoc]
    · have hmore : ¬ more.size ≤ limit - (written.size + bytes.size) := by omega
      rw [if_neg hboth, if_neg hmore, ByteArray.extract_append, extract_of_size_le hfirst,
        ByteArray.append_assoc, Nat.zero_sub, Nat.sub_sub]
  · have hboth : ¬ bytes.size + more.size ≤ limit - written.size := by omega
    have hempty : limit - written.size - bytes.size = 0 := by omega
    simp only [if_neg hfirst, if_neg hboth]
    rw [ByteArray.extract_append, Nat.zero_sub, hempty, ByteArray.extract_same,
      ByteArray.append_empty]

end Sink

/-! ## Statements -/

/-- The session with a sink that takes only `limit` bytes. -/
def Session.limitedTo (s : Session) (limit : Nat) : Session :=
  ⟨s.scope, s.sink.limitedTo limit⟩

/-- The outcome with a sink that takes only `limit` bytes. -/
def Outcome.limitedTo (o : Outcome) (limit : Nat) : Outcome :=
  ⟨o.session.limitedTo limit, o.stop⟩

namespace Session

variable {s s' : Session} {limit : Nat} {name source : String}

theorem LeadsTo.size_le (h : s.LeadsTo s') :
    s.sink.written.size ≤ s'.sink.written.size := by
  obtain ⟨more, hmore⟩ := h.exists_written
  rw [hmore, ByteArray.size_append]
  omega

theorem LeadsTo.fitsIn (h : s.LeadsTo s') (hs : s.sink.FitsIn limit)
    (hsize : s'.sink.written.size ≤ limit) : s'.sink.FitsIn limit :=
  ⟨h.limit_eq.trans hs.limit_eq, hsize⟩

/-- The front of the output does not change behind the limit. -/
theorem LeadsTo.limitedTo_eq (h : s.LeadsTo s') (hlimit : s.sink.limit = none)
    (hsize : limit ≤ s.sink.written.size) : s'.sink.limitedTo limit = s.sink.limitedTo limit := by
  obtain ⟨more, hmore⟩ := h.exists_written
  have hlimit' := h.limit_eq.trans hlimit
  obtain ⟨scope, limit', written⟩ := s
  obtain ⟨scope', limit'', written'⟩ := s'
  obtain rfl : limit' = none := hlimit
  obtain rfl : limit'' = none := hlimit'
  obtain rfl : written' = written ++ more := hmore
  exact Sink.limitedTo_append hsize

theorem write_of_sink {text : String} {sink : Sink} {accepted : Bool}
    (h : s.sink.write text.toUTF8 = (sink, accepted)) :
    s.write text = ⟨⟨s.scope, sink⟩, if accepted then none else some .sinkFull⟩ := by
  rw [write, h]

/-- A statement does the same with a limited sink if its output fits, and is cut short if not. -/
theorem runStatement_limitedTo (h : s.sink.FitsIn limit) (statement : Statement) :
    (s.limitedTo limit).runStatement statement =
      if (s.runStatement statement).session.sink.written.size ≤ limit then
        (s.runStatement statement).limitedTo limit
      else
        ⟨⟨s.scope, (s.runStatement statement).session.sink.limitedTo limit⟩, some .sinkFull⟩ := by
  have hscope : (s.limitedTo limit).scope = s.scope := rfl
  rw [runStatement_eq_undergo, runStatement_eq_undergo, hscope]
  rcases statement.effect s.scope with fault | text | ⟨target, v⟩
  · exact (if_pos h.size_le).symm
  · have hall : s.write text = ⟨⟨s.scope, (s.sink.write text.toUTF8).1⟩, none⟩ := by
      simp only [write, Sink.write_of_limit_eq_none h.limit_eq, if_true]
    have hundergo (s : Session) : s.undergo (.prints text) = s.write text := rfl
    rw [hundergo, hundergo, hall, write_of_sink (h.write_limitedTo text.toUTF8)]
    by_cases hfits : (s.sink.write text.toUTF8).1.written.size ≤ limit
    · rw [decide_eq_true hfits, if_pos rfl, if_pos hfits]
      rfl
    · rw [decide_eq_false hfits, if_neg Bool.false_ne_true, if_neg hfits]
      rfl
  · exact (if_pos h.size_le).symm

theorem runStatements_limitedTo (h : s.sink.FitsIn limit) {ss : List Statement}
    (hfits : (s.runStatements ss).session.sink.written.size ≤ limit) :
    (s.limitedTo limit).runStatements ss = (s.runStatements ss).limitedTo limit := by
  induction ss generalizing s with
  | nil => rfl
  | cons first more ih =>
    have hfirst := s.leadsTo_runStatement first
    have hlimited := runStatement_limitedTo h first
    rw [runStatements] at hfits ⊢
    rw [runStatements]
    revert hfits hfirst hlimited
    rcases s.runStatement first with ⟨s', _ | stop⟩
    · intro hfits hfirst hlimited
      have hsize : s'.sink.written.size ≤ limit :=
        Nat.le_trans (s'.leadsTo_runStatements more).size_le hfits
      rw [hlimited, if_pos hsize]
      exact ih (hfirst.fitsIn h hsize) hfits
    · intro hfits hfirst hlimited
      rw [hlimited, if_pos hfits]
      rfl

/-- A statement that completes hands its session on. -/
theorem runStatements_cons {first : Statement} (h : s.runStatement first = ⟨s', none⟩)
    (more : List Statement) : s.runStatements (first :: more) = s'.runStatements more := by
  rw [runStatements, h]

/-- Where the statements `before ++ print :: after` write more than `limit` bytes: `print` is the
first whose line does not fit. -/
structure OverflowsAt (s : Session) (limit : Nat) (before : List Statement) (print : Statement) :
    Prop where
  completes : (s.runStatements before).stop = none
  fits : (s.runStatements before).session.sink.written.size ≤ limit
  overflows :
    limit < ((s.runStatements before).session.runStatement print).session.sink.written.size

/-- Statements that write too much have a first that does. -/
theorem exists_overflow_of_runStatements (h : s.sink.FitsIn limit) {ss : List Statement}
    (hsize : limit < (s.runStatements ss).session.sink.written.size) :
    ∃ before print after, ss = before ++ print :: after ∧ s.OverflowsAt limit before print := by
  induction ss generalizing s with
  | nil => exact absurd h.size_le (Nat.not_le_of_lt hsize)
  | cons first more ih =>
    by_cases hfits : (s.runStatement first).session.sink.written.size ≤ limit
    · have hfirst := s.leadsTo_runStatement first
      rcases hrun : s.runStatement first with ⟨s', _ | stop⟩
      · rw [runStatements_cons hrun] at hsize
        rw [hrun] at hfirst hfits
        obtain ⟨before, print, after, rfl, hover⟩ := ih (hfirst.fitsIn h hfits) hsize
        refine ⟨first :: before, print, after, rfl, ?_⟩
        constructor <;> rw [runStatements_cons hrun]
        · exact hover.completes
        · exact hover.fits
        · exact hover.overflows
      · rw [runStatements, hrun] at hsize
        rw [hrun] at hfits
        exact absurd hfits (Nat.not_le_of_lt hsize)
    · exact ⟨[], first, more, rfl, rfl, h.size_le, Nat.lt_of_not_le hfits⟩

/-- The limited run ends at the first line that does not fit; nothing behind it is run. -/
theorem OverflowsAt.runStatements_limitedTo {before : List Statement} {print : Statement}
    (h : s.sink.FitsIn limit) (hover : s.OverflowsAt limit before print)
    (after : List Statement) :
    (s.limitedTo limit).runStatements (before ++ print :: after) =
      ⟨⟨(s.runStatements before).session.scope,
        (s.runStatements (before ++ print :: after)).session.sink.limitedTo limit⟩,
        some .sinkFull⟩ := by
  have hbefore := Session.runStatements_limitedTo h hover.fits
  have hcompletes := hover.completes
  have hfits := hover.fits
  have hoverflows := hover.overflows
  have hleads := s.leadsTo_runStatements before
  rw [runStatements_append, runStatements_append, hbefore]
  revert hbefore hcompletes hfits hoverflows hleads
  rcases s.runStatements before with ⟨s', _ | stop⟩
  · intro _ _ hfits hoverflows hleads
    have hs' := hleads.fitsIn h hfits
    have hprint := runStatement_limitedTo hs' print
    rw [if_neg (Nat.not_le_of_lt hoverflows)] at hprint
    have hlimit := (s'.leadsTo_runStatement print).limit_eq.trans hs'.limit_eq
    show (s'.limitedTo limit).runStatements (print :: after) = _
    rw [runStatements, hprint]
    dsimp only
    rw [runStatements]
    revert hoverflows hlimit
    rcases s'.runStatement print with ⟨s'', _ | stop⟩
    · intro hoverflows hlimit
      rw [(s''.leadsTo_runStatements after).limitedTo_eq hlimit (Nat.le_of_lt hoverflows)]
    · intro _ _
      rfl
  · intro _ hcompletes
    cases hcompletes

/-! ## Sources and steps -/

/-- The outcome `o'` is `o` as far as a sink of `limit` bytes lets it come. -/
structure Truncates (limit : Nat) (o o' : Outcome) : Prop where
  sink_eq : o'.session.sink = o.session.sink.limitedTo limit
  of_fits : o.session.sink.written.size ≤ limit → o' = o.limitedTo limit
  of_overflow : limit < o.session.sink.written.size → o'.stop = some .sinkFull

theorem truncates_runStatement (h : s.sink.FitsIn limit) (statement : Statement) :
    Truncates limit (s.runStatement statement) ((s.limitedTo limit).runStatement statement) := by
  rw [runStatement_limitedTo h]
  by_cases hfits : (s.runStatement statement).session.sink.written.size ≤ limit
  · rw [if_pos hfits]
    exact ⟨rfl, fun _ => rfl, fun hover => absurd hfits (Nat.not_le_of_lt hover)⟩
  · rw [if_neg hfits]
    exact ⟨rfl, fun h => absurd h hfits, fun _ => rfl⟩

theorem truncates_runStatements (h : s.sink.FitsIn limit) (ss : List Statement) :
    Truncates limit (s.runStatements ss) ((s.limitedTo limit).runStatements ss) := by
  by_cases hfits : (s.runStatements ss).session.sink.written.size ≤ limit
  · rw [runStatements_limitedTo h hfits]
    exact ⟨rfl, fun _ => rfl, fun hover => absurd hfits (Nat.not_le_of_lt hover)⟩
  · obtain ⟨before, print, after, rfl, hover⟩ :=
      exists_overflow_of_runStatements h (Nat.lt_of_not_le hfits)
    rw [hover.runStatements_limitedTo h]
    exact ⟨rfl, fun h => absurd h hfits, fun _ => rfl⟩

theorem truncates_runSource (h : s.sink.FitsIn limit) (name source : String) :
    Truncates limit (s.runSource name source) ((s.limitedTo limit).runSource name source) := by
  have hsame (fault : Located Fault) :
      Truncates limit (s.stopFor fault) ((s.limitedTo limit).stopFor fault) :=
    ⟨rfl, fun _ => rfl, fun hover => absurd h.size_le (Nat.not_le_of_lt hover)⟩
  rcases hscan : scan name source with fault | ts
  · rw [runSource_of_scan_error hscan, runSource_of_scan_error hscan]
    exact hsame _
  rcases hparse : parse ts with fault | program
  · rw [runSource_of_parse_error hscan hparse, runSource_of_parse_error hscan hparse]
    exact hsame _
  · rw [runSource_of_parse_ok hscan hparse, runSource_of_parse_ok hscan hparse]
    exact truncates_runStatements h program.statements

/-- A source that writes too much is a program, and one of its statements is the first to write
too much. -/
theorem exists_overflow_of_runSource (h : s.sink.FitsIn limit)
    (hsize : limit < (s.runSource name source).session.sink.written.size) :
    ∃ ts span before print after, scan name source = .ok ts ∧
      parse ts = .ok ⟨before ++ print :: after, span⟩ ∧ s.OverflowsAt limit before print ∧
      ((s.limitedTo limit).runSource name source).session.scope =
        (s.runStatements before).session.scope := by
  rcases hscan : scan name source with fault | ts
  · rw [runSource_of_scan_error hscan] at hsize
    exact absurd h.size_le (Nat.not_le_of_lt hsize)
  rcases hparse : parse ts with fault | ⟨ss, span⟩
  · rw [runSource_of_parse_error hscan hparse] at hsize
    exact absurd h.size_le (Nat.not_le_of_lt hsize)
  · rw [runSource_of_parse_ok hscan hparse] at hsize
    obtain ⟨before, print, after, rfl, hover⟩ := exists_overflow_of_runStatements h hsize
    refine ⟨ts, span, before, print, after, rfl, hparse, hover, ?_⟩
    rw [runSource_of_parse_ok hscan hparse, hover.runStatements_limitedTo h]

end Session

end Peng
