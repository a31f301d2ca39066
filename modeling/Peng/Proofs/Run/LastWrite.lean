import Peng.Proofs.Run.Overflow
import Peng.Proofs.Source.Relocation

/-!
# The last write wins

A name has the value that it was last given. The main statement is `last_write_wins`, for any
steps of a session, in any order and whether they fail or not.

`Session.writes` keeps a record beside a session: which assignments are carried out, and with
which values. A step changes the names as its part of the record says
(`Session.scope_take`), and then so do any number of steps (`Session.scope_takeAll`). What is
looked up after that is found in the record from its end (`Scope.get?_assignAll`).
-/

namespace Peng

/-! ## Records -/

/-- A name that was given a value, with the value. -/
abbrev Write := String × Value

/-- The value that a name was given last. -/
def latest (target : String) (ws : List Write) : Option Value :=
  ws.reverse.lookup target

theorem latest_cons (target : String) (w : Write) (ws : List Write) :
    latest target (w :: ws) =
      (latest target ws).or (if target = w.1 then some w.2 else none) := by
  obtain ⟨name, v⟩ := w
  rw [latest, List.reverse_cons, List.lookup_append, latest]
  by_cases h : target = name
  · simp [h]
  · have hne : (target == name) = false := by simp [h]
    rw [List.lookup_cons, hne, if_neg h]
    rfl

namespace Scope

/-- Carries out assignments in order. -/
def assignAll (scope : Scope) (ws : List Write) : Scope :=
  ws.foldl (fun scope w => scope.assign w.1 w.2) scope

theorem assignAll_append (scope : Scope) (ws more : List Write) :
    scope.assignAll (ws ++ more) = (scope.assignAll ws).assignAll more :=
  List.foldl_append

/-- A name has the value that it was given last, or else the one that it had before. -/
theorem get?_assignAll (scope : Scope) (ws : List Write) (target : String) :
    (scope.assignAll ws).get? target = (latest target ws).or (scope.get? target) := by
  induction ws generalizing scope with
  | nil => rfl
  | cons w ws ih =>
    obtain ⟨name, v⟩ := w
    show ((scope.assign name v).assignAll ws).get? target = _
    rw [ih, latest_cons, Option.or_assoc]
    by_cases h : target = name
    · subst h
      rw [get?_assign_self, if_pos rfl, Option.some_or]
    · rw [get?_assign_of_ne _ h, if_neg h, Option.none_or]

end Scope

/-! ## What is carried out -/

/-- The name that a statement assigns to. -/
def Statement.target? : Statement → Option String
  | .print _ _ => none
  | .assign target _ _ => some target

namespace Session

/-- The assignment of an expression, if the expression has a value. -/
def writesOfAssignment (s : Session) (target : String) (e : Expr) : List Write :=
  match e.value s.scope with
  | .ok v => [(target, v)]
  | .error _ => []

/-- The assignment that a statement carries out, if it is one and does not fail. -/
def writesOfStatement (s : Session) : Statement → List Write
  | .print _ _ => []
  | .assign target e _ => s.writesOfAssignment target e

/-- The assignments that statements carry out in order, up to the first that stops. -/
def writesOfStatements (s : Session) : List Statement → List Write
  | [] => []
  | first :: more =>
    match s.runStatement first with
    | ⟨s', none⟩ => s.writesOfStatement first ++ s'.writesOfStatements more
    | _ => []

/-- The assignments that a step carries out. -/
def writesOfStep (s : Session) (name : String) : Step → List Write
  | .line source =>
    match scan name source with
    | .error _ => []
    | .ok ts =>
      match parse ts with
      | .error _ => []
      | .ok program => s.writesOfStatements program.statements
  | .statement statement => s.writesOfStatement statement
  | .assign target e => s.writesOfAssignment target e
  | .evaluate _ | .get _ | .scopeName => []

/-- The assignments that steps carry out one after the other. -/
def writes (s : Session) (name : String) : List Step → List Write
  | [] => []
  | step :: steps => s.writesOfStep name step ++ (s.take name step).2.writes name steps

/-! ## What becomes of the names -/

variable {s s' : Session} {name source : String}

theorem scope_assign (s : Session) (target : String) (e : Expr) :
    (s.assign target e).2.scope = s.scope.assignAll (s.writesOfAssignment target e) := by
  rw [assign, writesOfAssignment]
  rcases e.value s.scope with fault | v <;> rfl

theorem scope_runStatement_print (s : Session) (values : List Expr) (span : Span) :
    (s.runStatement (.print values span)).session.scope = s.scope := by
  rw [runStatement]
  rcases Expr.values s.scope values with fault | vs <;> rfl

theorem scope_runStatement (s : Session) (statement : Statement) :
    (s.runStatement statement).session.scope =
      s.scope.assignAll (s.writesOfStatement statement) := by
  rcases statement with ⟨values, span⟩ | ⟨target, e, span⟩
  · exact s.scope_runStatement_print values span
  · rw [session_runStatement_assign]
    exact s.scope_assign target e

/-- An assignment that stops has given no value. -/
theorem writesOfStatement_eq_nil_of_stop {statement : Statement} {stop : Stop}
    (h : (s.runStatement statement).stop = some stop) : s.writesOfStatement statement = [] := by
  rcases statement with ⟨values, span⟩ | ⟨target, e, span⟩
  · rfl
  · show s.writesOfAssignment target e = []
    rw [runStatement, assign] at h
    rw [writesOfAssignment]
    revert h
    rcases e.value s.scope with fault | v
    · exact fun _ => rfl
    · intro h
      cases h

theorem scope_runStatements (s : Session) (ss : List Statement) :
    (s.runStatements ss).session.scope = s.scope.assignAll (s.writesOfStatements ss) := by
  induction ss generalizing s with
  | nil => rfl
  | cons first more ih =>
    have hscope := s.scope_runStatement first
    have hstop := @writesOfStatement_eq_nil_of_stop s first
    rw [runStatements, writesOfStatements]
    revert hscope hstop
    rcases s.runStatement first with ⟨s', _ | stop⟩
    · intro hscope _
      have hscope : s'.scope = _ := hscope
      rw [Scope.assignAll_append, ← hscope]
      exact ih s'
    · intro hscope hstop
      rw [hstop rfl] at hscope
      exact hscope

theorem scope_take (s : Session) (name : String) (step : Step) :
    (s.take name step).2.scope = s.scope.assignAll (s.writesOfStep name step) := by
  rcases step with source | statement | ⟨target, e⟩ | e | target | -
  · show (s.runSource name source).session.scope = _
    rw [runSource, writesOfStep]
    rcases scan name source with fault | ts
    · rfl
    · dsimp only
      rcases parse ts with fault | program
      · rfl
      · exact s.scope_runStatements program.statements
  · exact s.scope_runStatement statement
  · exact s.scope_assign target e
  · rfl
  · rfl
  · rfl

/-- The names after some steps are those before, with the recorded assignments carried out. -/
theorem scope_takeAll (s : Session) (name : String) (steps : List Step) :
    (s.takeAll name steps).2.scope = s.scope.assignAll (s.writes name steps) := by
  induction steps generalizing s with
  | nil => rfl
  | cons step steps ih =>
    show ((s.take name step).2.takeAll name steps).2.scope = _
    rw [ih, scope_take, writes, Scope.assignAll_append]

/-! ## What is recorded -/

/-- Every statement that completes has its assignment recorded. -/
theorem targets_writesOfStatement {statement : Statement}
    (h : (s.runStatement statement).stop = none) :
    (s.writesOfStatement statement).map Prod.fst = statement.target?.toList := by
  rcases statement with ⟨values, span⟩ | ⟨target, e, span⟩
  · rfl
  · show (s.writesOfAssignment target e).map Prod.fst = [target]
    rw [runStatement, assign] at h
    rw [writesOfAssignment]
    revert h
    rcases e.value s.scope with fault | v
    · intro h
      cases h
    · exact fun _ => rfl

/-- What completes has all of its assignments recorded, in order. -/
theorem targets_writesOfStatements {ss : List Statement} (h : (s.runStatements ss).stop = none) :
    (s.writesOfStatements ss).map Prod.fst = ss.filterMap Statement.target? := by
  induction ss generalizing s with
  | nil => rfl
  | cons first more ih =>
    have hfirst := @targets_writesOfStatement s first
    rw [runStatements] at h
    rw [writesOfStatements]
    revert h hfirst
    rcases s.runStatement first with ⟨s', _ | stop⟩
    · intro h hfirst
      rw [List.map_append, hfirst rfl, ih h, List.filterMap_cons]
      rcases first.target? <;> rfl
    · intro h
      cases h

theorem writesOfStatements_cons {first : Statement} (h : s.runStatement first = ⟨s', none⟩)
    (more : List Statement) :
    s.writesOfStatements (first :: more) =
      s.writesOfStatement first ++ s'.writesOfStatements more := by
  rw [writesOfStatements, h]

/-- Nothing is recorded of a statement that stops and of those behind it. -/
theorem writesOfStatements_of_stop {before : List Statement} {failing : Statement}
    {stop : Stop} (h : (s.runStatements before).stop = none)
    (hstop : ((s.runStatements before).session.runStatement failing).stop = some stop)
    (after : List Statement) :
    s.writesOfStatements (before ++ failing :: after) = s.writesOfStatements before := by
  induction before generalizing s with
  | nil =>
    have hstop : (s.runStatement failing).stop = some stop := hstop
    show s.writesOfStatements (failing :: after) = []
    rw [writesOfStatements]
    revert hstop
    rcases s.runStatement failing with ⟨s', _ | stop'⟩
    · intro hstop
      cases hstop
    · exact fun _ => rfl
  | cons first before ih =>
    rcases hfirst : s.runStatement first with ⟨s', _ | stop'⟩
    · rw [runStatements_cons hfirst] at h hstop
      rw [List.cons_append, writesOfStatements_cons hfirst, writesOfStatements_cons hfirst,
        ih h hstop]
    · rw [runStatements, hfirst] at h
      cases h

/-- Statements that stop have a first that does. -/
theorem exists_stop_of_runStatements {ss : List Statement} {stop : Stop}
    (h : (s.runStatements ss).stop = some stop) :
    ∃ before failing after, ss = before ++ failing :: after ∧
      (s.runStatements before).stop = none ∧
      ((s.runStatements before).session.runStatement failing).stop = some stop := by
  induction ss generalizing s with
  | nil => cases h
  | cons first more ih =>
    rcases hfirst : s.runStatement first with ⟨s', _ | stop'⟩
    · rw [runStatements_cons hfirst] at h
      obtain ⟨before, failing, after, rfl, hbefore, hfailing⟩ := ih h
      refine ⟨first :: before, failing, after, rfl, ?_⟩
      rw [runStatements_cons hfirst]
      exact ⟨hbefore, hfailing⟩
    · rw [runStatements, hfirst] at h
      refine ⟨[], first, more, rfl, rfl, ?_⟩
      show (s.runStatement first).stop = some stop
      rw [hfirst]
      exact h

/-- Statements that complete do together what they do one by one. -/
theorem takeAll_statements {ss : List Statement} (h : (s.runStatements ss).stop = none)
    (name : String) :
    (s.takeAll name (ss.map .statement)).2 = (s.runStatements ss).session := by
  induction ss generalizing s with
  | nil => rfl
  | cons first more ih =>
    show ((s.runStatement first).session.takeAll name (more.map .statement)).2 = _
    rcases hfirst : s.runStatement first with ⟨s', _ | stop⟩
    · rw [runStatements_cons hfirst] at h ⊢
      exact ih h
    · rw [runStatements, hfirst] at h
      cases h

/-! ## Lines -/

theorem writesOfStep_line {ts : List Token} {program : Program} (hts : scan name source = .ok ts)
    (h : parse ts = .ok program) :
    s.writesOfStep name (.line source) = s.writesOfStatements program.statements := by
  simp only [writesOfStep, hts, h]

/-- What a line of source assigns. -/
structure LineAssigns (s : Session) (name source : String) : Prop where
  /-- Nothing, if it cannot be scanned. -/
  scan_error : ∀ fault, scan name source = .error fault →
    s.writesOfStep name (.line source) = [] ∧ (s.take name (.line source)).2 = s
  /-- Nothing, if it cannot be parsed. -/
  parse_error : ∀ ts fault, scan name source = .ok ts → parse ts = .error fault →
    s.writesOfStep name (.line source) = [] ∧ (s.take name (.line source)).2 = s
  /-- All that its statements assign, if it completes. -/
  completes : ∀ ts program, scan name source = .ok ts → parse ts = .ok program →
    (s.runSource name source).stop = none →
    (s.writesOfStep name (.line source)).map Prod.fst =
      program.statements.filterMap Statement.target? ∧
    (s.take name (.line source)).2 = (s.takeAll name (program.statements.map .statement)).2
  /-- All that the statements before the failing one assign, if it does not complete. -/
  stops : ∀ ts program stop, scan name source = .ok ts → parse ts = .ok program →
    (s.runSource name source).stop = some stop →
    ∃ before failing after, program.statements = before ++ failing :: after ∧
      (s.runStatements before).stop = none ∧
      ((s.runStatements before).session.runStatement failing).stop = some stop ∧
      (s.writesOfStep name (.line source)).map Prod.fst = before.filterMap Statement.target? ∧
      (s.take name (.line source)).2.scope = (s.takeAll name (before.map .statement)).2.scope

theorem lineAssigns (s : Session) (name source : String) : s.LineAssigns name source := by
  have hscope := s.scope_take name (.line source)
  constructor
  · intro fault h
    refine ⟨by simp only [writesOfStep, h], ?_⟩
    show (s.runSource name source).session = s
    rw [runSource_of_scan_error h]
    rfl
  · intro ts fault hts h
    refine ⟨by simp only [writesOfStep, hts, h], ?_⟩
    show (s.runSource name source).session = s
    rw [runSource_of_parse_error hts h]
    rfl
  · intro ts program hts h hstop
    rw [writesOfStep_line hts h]
    show _ ∧ (s.runSource name source).session = _
    rw [runSource_of_parse_ok hts h] at hstop ⊢
    exact ⟨targets_writesOfStatements hstop, (takeAll_statements hstop name).symm⟩
  · intro ts program stop hts h hstop
    rw [runSource_of_parse_ok hts h] at hstop
    obtain ⟨before, failing, after, hss, hbefore, hfailing⟩ := exists_stop_of_runStatements hstop
    have hwrites := writesOfStatements_of_stop hbefore hfailing after
    refine ⟨before, failing, after, hss, hbefore, hfailing, ?_, ?_⟩
    · rw [writesOfStep_line hts h, hss, hwrites, targets_writesOfStatements hbefore]
    · rw [hscope, writesOfStep_line hts h, hss, hwrites, takeAll_statements hbefore,
        scope_runStatements]

/-! ## Ways to assign -/

/-- The ways to give a name the value of an expression. -/
structure AssignsAlike (s : Session) (name target : String) (e : Expr) : Prop where
  /-- A single statement does what the session does when asked for it. -/
  statement : ∀ span, (s.take name (.statement (.assign target e span))).2 =
    (s.take name (.assign target e)).2
  /-- So does a line of source, wherever its expression stands. -/
  line : ∀ source ts program e' span, scan name source = .ok ts → parse ts = .ok program →
    program.statements = [.assign target e' span] → e'.unplaced = e.unplaced →
    (s.take name (.line source)).2 = (s.take name (.assign target e)).2

theorem session_assign_unplaced (s : Session) (target : String) {e e' : Expr}
    (h : e'.unplaced = e.unplaced) : (s.assign target e').2 = (s.assign target e).2 := by
  rw [assign, assign]
  rcases he : e.value s.scope with fault | v
  · rcases he' : e'.value s.scope with fault' | v
    · rfl
    · rw [Expr.value_eq_ok_of_unplaced_eq h he'] at he
      cases he
  · rw [Expr.value_eq_ok_of_unplaced_eq h.symm he]

theorem assignsAlike (s : Session) (name target : String) (e : Expr) :
    s.AssignsAlike name target e := by
  constructor
  · exact fun span => s.session_runStatement_assign target e span
  · intro source ts program e' span hts h hss hunplaced
    show (s.runSource name source).session = (s.assign target e).2
    rw [runSource_of_parse_ok hts h, hss, runStatements_singleton, session_runStatement_assign,
      s.session_assign_unplaced target hunplaced]

/-- Steps that give no name a value. -/
inductive Looks : Step → Prop where
  | print (values : List Expr) (span : Span) : Looks (.statement (.print values span))
  | evaluate (e : Expr) : Looks (.evaluate e)
  | get (target : String) : Looks (.get target)
  | scopeName : Looks .scopeName

theorem writesOfStep_of_looks {step : Step} (h : Looks step) : s.writesOfStep name step = [] := by
  rcases h with _ | _ | _ | _ <;> rfl

end Session

/-- After any steps of a session, whether they fail or not, a name has the value that was assigned
to it last, or else the last one that the session began with. -/
theorem last_write_wins (name : String) :
    (∀ scopeName bindings sink steps target,
      let s : Session := ⟨.ofList scopeName bindings, sink⟩
      (s.takeAll name steps).2.scope.get? target =
        (latest target (s.writes name steps)).or (latest target bindings)) ∧
    ∀ s : Session,
      (∀ source, s.LineAssigns name source) ∧
      (∀ step, Session.Looks step → (s.take name step).2.scope = s.scope) ∧
      ∀ target e, s.AssignsAlike name target e := by
  refine ⟨fun scopeName bindings sink steps target => ?_, fun s => ⟨?_, ?_, ?_⟩⟩
  · intro s
    have hstart : s.scope.get? target = latest target bindings := by
      show ((Scope.empty scopeName).assignAll bindings).get? target = _
      rw [Scope.get?_assignAll, Scope.get?_empty, Option.or_none]
    rw [s.scope_takeAll, Scope.get?_assignAll, hstart]
  · exact s.lineAssigns name
  · intro step h
    rw [s.scope_take, Session.writesOfStep_of_looks h]
    rfl
  · exact s.assignsAlike name

-- the assignment behind the one that fails is not carried out, and the one before it is
example : (latest "x" ((Session.fresh (.empty none)).writes ""
    [.line "x is 1", .line "x is \"a\"\ny is -x\nx is 2", .get "x"])).map Value.text =
      some "a" := by
  decide +kernel

end Peng
