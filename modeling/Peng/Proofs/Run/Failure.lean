import Peng.Proofs.Run.Lines
import Peng.Proofs.Source.Tiling
import Peng.Proofs.Syntax.Extent

/-!
# Lines that fail

A line that is at fault does nothing: `runSource_eq_stopFor` says that running it leaves the
session as it is. A line has at most one statement, and a statement does nothing before it has
all of its values.

What a session does to its names, and what it adds to a sink without a limit, does not depend on
what the sink holds already (`runSource_precededBy`).
-/

namespace Peng

/-! ## Statements of a line -/

/-- One statement is all of a line. -/
theorem length_statements_of_isLine {name line : String} {ts : List Token} {program : Program}
    (hline : IsLine line) (hts : scan name line = .ok ts) (hprogram : parse ts = .ok program) :
    program.statements.length ≤ 1 := by
  have hscanned := Scanned.of_scanFrom hts
  have hkinds : ∀ t ∈ ts, t.kind ≠ .newline := by
    intro t ht hnewline
    obtain ⟨before, text, after, hsource, hcovers⟩ := hscanned.exists_covers ht
    have hmem : '\n' ∈ before ++ text ++ after := by simp [hcovers.keepsLine.1 hnewline]
    exact hline (hsource ▸ hmem)
  obtain ⟨d, rfl, hstatements, -⟩ := exists_derivation_of_parse hts hprogram
  rw [← hstatements]
  exact d.length_statements_le_one fun t ht => hkinds t (List.mem_append_left _ ht)

/-! ## What was written before -/

/-- The session, if `written` had been written before everything else. -/
def Session.precededBy (s : Session) (written : ByteArray) : Session :=
  ⟨s.scope, ⟨s.sink.limit, written ++ s.sink.written⟩⟩

/-- The outcome, if `written` had been written before everything else. -/
def Outcome.precededBy (o : Outcome) (written : ByteArray) : Outcome :=
  ⟨o.session.precededBy written, o.stop⟩

namespace Session

variable {s : Session} {written : ByteArray} {name line : String} {fault : Located Fault}

theorem write_of_limit_eq_none (h : s.sink.limit = none) (text : String) :
    s.write text = ⟨⟨s.scope, ⟨none, s.sink.written ++ text.toUTF8⟩⟩, none⟩ := by
  rw [write, Sink.write_of_limit_eq_none h]
  rfl

theorem write_precededBy (h : s.sink.limit = none) (text : String) :
    (s.precededBy written).write text = (s.write text).precededBy written := by
  rw [write_of_limit_eq_none h, write_of_limit_eq_none (s := s.precededBy written) h]
  simp [precededBy, Outcome.precededBy, ByteArray.append_assoc]

theorem runStatement_precededBy (h : s.sink.limit = none) (statement : Statement) :
    (s.precededBy written).runStatement statement =
      (s.runStatement statement).precededBy written := by
  have hscope : (s.precededBy written).scope = s.scope := rfl
  rw [runStatement_eq_undergo, runStatement_eq_undergo, hscope]
  rcases statement.effect s.scope with fault | text | ⟨target, v⟩
  · rfl
  · exact write_precededBy h text
  · rfl

theorem runStatements_precededBy (h : s.sink.limit = none) (ss : List Statement) :
    (s.precededBy written).runStatements ss = (s.runStatements ss).precededBy written := by
  induction ss generalizing s with
  | nil => rfl
  | cons first ss ih =>
    have hfirst := s.leadsTo_runStatement first
    rw [runStatements, runStatement_precededBy h, runStatements]
    revert hfirst
    rcases s.runStatement first with ⟨s', _ | stop⟩
    · exact fun hfirst => ih (hfirst.limit_eq.trans h)
    · exact fun _ => rfl

/-- Running a source goes the same way whatever was written before. -/
theorem runSource_precededBy (h : s.sink.limit = none) (name source : String) :
    (s.precededBy written).runSource name source =
      (s.runSource name source).precededBy written := by
  unfold runSource
  rcases scan name source with fault | ts
  · rfl
  · dsimp only
    rcases parse ts with fault | program
    · rfl
    · exact runStatements_precededBy h _

/-- A session whose sink takes everything is one with an empty sink, behind what was written. -/
theorem fresh_precededBy (h : s.sink.limit = none) :
    (⟨s.scope, .empty none⟩ : Session).precededBy s.sink.written = s := by
  obtain ⟨scope, limit, written⟩ := s
  obtain rfl : limit = none := h
  simp [precededBy, Sink.empty]

/-! ## Lines at fault -/

theorem runStatement_eq_stopFor {statement : Statement}
    (h : (s.runStatement statement).stop = some (.fault fault)) :
    s.runStatement statement = s.stopFor fault := by
  rw [runStatement_eq_undergo] at h ⊢
  exact (undergo_eq_stopFor h).2

theorem runStatements_singleton (s : Session) (only : Statement) :
    s.runStatements [only] = s.runStatement only := by
  rw [runStatements]
  rcases s.runStatement only with ⟨s', _ | stop⟩ <;> rfl

/-- Where there is nothing to run, nothing happens. -/
theorem runSource_empty (s : Session) (name : String) : s.runSource name "" = ⟨s, none⟩ := by
  have hscan : scan name "" = .ok [.atEnd (.start name)] := by
    rw [scan, String.toList_empty, scanFrom]
  have hahead : (Reader.ofTokens [.atEnd (.start name)]).ahead = [] := rfl
  have hparse : ∃ span, parse [.atEnd (.start name)] = .ok ⟨[], span⟩ := by
    refine ⟨_, parse_eq_ok_iff.mpr ⟨[], ?_, rfl⟩⟩
    rw [hahead, Grammar.statements]
  obtain ⟨span, hparse⟩ := hparse
  rw [runSource_of_parse_ok hscan hparse]
  rfl

/-- A line that is at fault leaves the session as it is. -/
theorem runSource_eq_stopFor (hline : IsLine line)
    (h : (s.runSource name line).stop = some (.fault fault)) :
    s.runSource name line = s.stopFor fault := by
  rcases hscan : scan name line with f | ts
  · rw [runSource_of_scan_error hscan] at h ⊢
    cases h
    rfl
  rcases hparse : parse ts with f | program
  · rw [runSource_of_parse_error hscan hparse] at h ⊢
    cases h
    rfl
  rw [runSource_of_parse_ok hscan hparse] at h ⊢
  have hlength := length_statements_of_isLine hline hscan hparse
  rcases hstatements : program.statements with _ | ⟨only, _ | ⟨next, more⟩⟩
  · rw [hstatements] at h
    cases h
  · rw [hstatements, runStatements_singleton] at h
    rw [runStatements_singleton]
    exact runStatement_eq_stopFor h
  · rw [hstatements] at hlength
    simp at hlength

end Session

end Peng
