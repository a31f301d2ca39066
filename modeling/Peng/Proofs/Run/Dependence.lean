import Peng.Proofs.Run.LastWrite

/-!
# What a program depends on

A program depends on the names alone that it reads before it assigns to them, and changes only those
that it assigns to. `runs_alike_where_read_alike` says so of two runs of the same statements, which
may begin with different values everywhere else, and whether they fail or not.

## Shape of the proof

The effect of a statement is settled by the names that it reads (`Statement.effect_congr`). Both
runs therefore take the same steps, and what they still read first is known alike after each of them
(`Session.Alike.sameRun`). What becomes of the names is then read off the record of assignments,
which the runs share (`Scope.get?_assignAll`).
-/

namespace Peng

/-! ## What is read, and what is assigned -/

/-- The names that an expression reads. -/
def Expr.names : Expr → List String
  | .number _ _ | .text _ _ => []
  | .variable name _ => [name]
  | .binary _ left right _ => left.names ++ right.names
  | .signed _ operand _ => operand.names

/-- The names that a statement reads. -/
def Statement.names : Statement → List String
  | .print values _ => values.flatMap Expr.names
  | .assign _ e _ => e.names

/-- The statements read the name before they assign to it: one of them reads it, and none before
that one assigns to it. -/
def ReadsFirst (ss : List Statement) (name : String) : Prop :=
  ∃ before statement after, ss = before ++ statement :: after ∧ name ∈ statement.names ∧
    ∀ earlier ∈ before, earlier.target? ≠ some name

/-- The statements assign to the name when they are run: they complete up to an assignment to it,
and with it. -/
def Session.Binds (s : Session) (ss : List Statement) (name : String) : Prop :=
  ∃ before e span after, ss = before ++ .assign name e span :: after ∧
    (s.runStatements (before ++ [.assign name e span])).stop = none

theorem not_readsFirst_nil (name : String) : ¬ ReadsFirst [] name := by
  rintro ⟨before, statement, after, h, -⟩
  simp at h

theorem readsFirst_cons {first : Statement} {more : List Statement} {name : String} :
    ReadsFirst (first :: more) name ↔
      name ∈ first.names ∨ first.target? ≠ some name ∧ ReadsFirst more name := by
  constructor
  · rintro ⟨before, statement, after, h, hname, hbefore⟩
    cases before with
    | nil =>
      cases h
      exact .inl hname
    | cons earlier before =>
      cases h
      obtain ⟨hearlier, hbefore⟩ := List.forall_mem_cons.mp hbefore
      exact .inr ⟨hearlier, before, statement, after, rfl, hname, hbefore⟩
  · rintro (hname | ⟨htarget, before, statement, after, rfl, hname, hbefore⟩)
    · exact ⟨[], first, more, rfl, hname, by simp⟩
    · exact ⟨first :: before, statement, after, rfl, hname,
        List.forall_mem_cons.mpr ⟨htarget, hbefore⟩⟩

/-! ## One statement -/

/-- Both scopes know the names alike, with the same values or without any. -/
def Scope.AgreeOn (names : String → Prop) (scope scope' : Scope) : Prop :=
  ∀ name, names name → scope.get? name = scope'.get? name

section Effect

variable {scope scope' : Scope}

theorem Expr.value_congr (hname : scope.name = scope'.name) {e : Expr}
    (h : scope.AgreeOn (· ∈ e.names) scope') : e.value scope = e.value scope' := by
  induction e with
  | number x span => rfl
  | text s span => rfl
  | «variable» name span =>
    rw [value, value, h name (List.mem_singleton_self name), hname]
  | binary op left right span ihleft ihright =>
    have hleft := ihleft fun name hmem => h name (List.mem_append_left _ hmem)
    have hright := ihright fun name hmem => h name (List.mem_append_right _ hmem)
    rw [value, value, hleft, hright]
  | signed sign operand span ih => rw [value, value, ih h]

theorem Expr.values_congr (hname : scope.name = scope'.name) {es : List Expr}
    (h : scope.AgreeOn (· ∈ es.flatMap Expr.names) scope') :
    Expr.values scope es = Expr.values scope' es := by
  induction es with
  | nil => rfl
  | cons e es ih =>
    have he : e.value scope = e.value scope' :=
      value_congr hname fun name hmem => h name (List.mem_append_left _ hmem)
    have hes := ih fun name hmem => h name (List.mem_append_right _ hmem)
    rw [values, values, he, hes]

/-- What a statement does depends on the names that it reads. -/
theorem Statement.effect_congr (hname : scope.name = scope'.name) {statement : Statement}
    (h : scope.AgreeOn (· ∈ statement.names) scope') :
    statement.effect scope = statement.effect scope' := by
  cases statement with
  | print values span => rw [effect, effect, Expr.values_congr hname h]
  | assign target e span => rw [effect, effect, Expr.value_congr hname h]

end Effect

/-! ## What a record leaves of the names -/

/-- A name has no last value in a record that does not hold it. -/
theorem latest_eq_none_iff {name : String} {ws : List Write} :
    latest name ws = none ↔ name ∉ ws.map Prod.fst := by
  induction ws with
  | nil => simp [latest]
  | cons w ws ih =>
    rw [latest_cons, Option.or_eq_none_iff, ih]
    simp [and_comm]

namespace Scope

@[simp] theorem assignAll_name (scope : Scope) (ws : List Write) :
    (scope.assignAll ws).name = scope.name := by
  induction ws generalizing scope with
  | nil => rfl
  | cons w ws ih => exact ih (scope.assign w.1 w.2)

/-- Names that are assigned alike are known alike. -/
theorem AgreeOn.assignAll {names : String → Prop} {scope scope' : Scope}
    (h : scope.AgreeOn names scope') (ws : List Write) :
    (scope.assignAll ws).AgreeOn (fun name => names name ∨ name ∈ ws.map Prod.fst)
      (scope'.assignAll ws) := by
  intro name hname
  rw [get?_assignAll, get?_assignAll]
  cases hlatest : latest name ws with
  | some v => rfl
  | none =>
    have hnot := latest_eq_none_iff.mp hlatest
    exact congrArg _ (h name (hname.resolve_right hnot))

theorem get?_assignAll_of_not_mem {name : String} {ws : List Write}
    (h : name ∉ ws.map Prod.fst) (scope : Scope) :
    (scope.assignAll ws).get? name = scope.get? name := by
  rw [get?_assignAll, latest_eq_none_iff.mpr h, Option.none_or]

end Scope

namespace Session

variable {s s' : Session} {first : Statement} {more ss : List Statement}

theorem binds_cons {name : String} (hfirst : s.runStatement first = ⟨s', none⟩) :
    s.Binds (first :: more) name ↔ first.target? = some name ∨ s'.Binds more name := by
  constructor
  · rintro ⟨before, e, span, after, h, hstop⟩
    cases before with
    | nil =>
      cases h
      exact .inl rfl
    | cons earlier before =>
      cases h
      rw [List.cons_append, runStatements_cons hfirst] at hstop
      exact .inr ⟨before, e, span, after, rfl, hstop⟩
  · rintro (htarget | ⟨before, e, span, after, rfl, hstop⟩)
    · obtain ⟨values, span⟩ | ⟨target, e, span⟩ := first
      · cases htarget
      · cases htarget
        refine ⟨[], e, span, more, rfl, ?_⟩
        rw [List.nil_append, runStatements_cons hfirst]
        rfl
    · refine ⟨first :: before, e, span, after, rfl, ?_⟩
      rwa [List.cons_append, runStatements_cons hfirst]

theorem not_binds_of_stop {name : String} {stop : Stop}
    (hfirst : s.runStatement first = ⟨s', some stop⟩) : ¬ s.Binds (first :: more) name := by
  rintro ⟨before, e, span, after, h, hstop⟩
  -- all that completes begins with the first statement, which does not
  obtain ⟨others, hothers⟩ : ∃ others, before ++ [.assign name e span] = first :: others := by
    cases before with
    | nil =>
      cases h
      exact ⟨[], rfl⟩
    | cons earlier before =>
      cases h
      exact ⟨_, rfl⟩
  rw [hothers, runStatements, hfirst] at hstop
  cases hstop

/-- The names that are assigned to are those of the record. -/
theorem binds_iff {name : String} :
    s.Binds ss name ↔ name ∈ (s.writesOfStatements ss).map Prod.fst := by
  induction ss generalizing s with
  | nil =>
    refine iff_of_false ?_ List.not_mem_nil
    rintro ⟨before, e, span, after, h, -⟩
    simp at h
  | cons first more ih =>
    rcases hfirst : s.runStatement first with ⟨s', _ | stop⟩
    · have htargets : (s.writesOfStatement first).map Prod.fst = first.target?.toList :=
        targets_writesOfStatement (by rw [hfirst])
      rw [binds_cons hfirst, ih, writesOfStatements_cons hfirst, List.map_append, List.mem_append,
        htargets, Option.mem_toList]
    · rw [writesOfStatements, hfirst]
      exact iff_of_false (not_binds_of_stop hfirst) List.not_mem_nil

/-! ## Two runs -/

/-- The sessions write to the same sink, and their scopes of one name agree on the names. -/
structure Alike (names : String → Prop) (s s' : Session) : Prop where
  sink_eq : s'.sink = s.sink
  name_eq : s.scope.name = s'.scope.name
  agree : s.scope.AgreeOn names s'.scope

/-- The statements do the same in both sessions: they assign, write and stop alike. -/
structure SameRun (ss : List Statement) (s s' : Session) : Prop where
  writes_eq : s'.writesOfStatements ss = s.writesOfStatements ss
  sink_eq : (s'.runStatements ss).session.sink = (s.runStatements ss).session.sink
  stop_eq : (s'.runStatements ss).stop = (s.runStatements ss).stop

/-- An effect is the same on sessions with the same sink, except for the names. -/
theorem undergo_of_sink_eq (h : s'.sink = s.sink) (effect : Effect) :
    (s'.undergo effect).session.sink = (s.undergo effect).session.sink ∧
      (s'.undergo effect).stop = (s.undergo effect).stop := by
  rcases effect with fault | text | ⟨target, v⟩
  · exact ⟨h, rfl⟩
  · simp only [undergo, write, h, and_self]
  · exact ⟨h, rfl⟩

theorem writesOfStatement_congr (h : first.effect s'.scope = first.effect s.scope) :
    s'.writesOfStatement first = s.writesOfStatement first := by
  obtain ⟨values, span⟩ | ⟨target, e, span⟩ := first
  · rfl
  · simp only [writesOfStatement, writesOfAssignment, Statement.effect] at h ⊢
    revert h
    rcases e.value s'.scope with fault' | v' <;> rcases e.value s.scope with fault | v
    · exact fun _ => rfl
    · rintro ⟨⟩
    · rintro ⟨⟩
    · rintro ⟨⟩
      rfl

theorem Alike.effect_eq (h : Alike (ReadsFirst (first :: more)) s s') :
    first.effect s'.scope = first.effect s.scope := by
  refine (Statement.effect_congr h.name_eq fun name hname => ?_).symm
  exact h.agree name (readsFirst_cons.mpr (.inl hname))

/-- Both sessions write and stop alike at a statement. -/
theorem Alike.runStatement_eq (h : Alike (ReadsFirst (first :: more)) s s') :
    (s'.runStatement first).session.sink = (s.runStatement first).session.sink ∧
      (s'.runStatement first).stop = (s.runStatement first).stop := by
  rw [runStatement_eq_undergo, runStatement_eq_undergo, h.effect_eq]
  exact undergo_of_sink_eq h.sink_eq _

/-- Behind a statement both sessions know alike what is read first from there on: what the statement
has assigned to, or else what was read first already. -/
theorem Alike.runStatement (h : Alike (ReadsFirst (first :: more)) s s')
    (hstop : (s.runStatement first).stop = none) :
    Alike (ReadsFirst more) (s.runStatement first).session (s'.runStatement first).session := by
  refine ⟨h.runStatement_eq.1, ?_, fun name hname => ?_⟩
  · rw [scope_runStatement, scope_runStatement, Scope.assignAll_name, Scope.assignAll_name]
    exact h.name_eq
  · rw [scope_runStatement, scope_runStatement, writesOfStatement_congr h.effect_eq]
    apply h.agree.assignAll
    by_cases htarget : first.target? = some name
    · refine .inr ?_
      rw [targets_writesOfStatement hstop, Option.mem_toList]
      exact htarget
    · exact .inl (readsFirst_cons.mpr (.inr ⟨htarget, hname⟩))

/-- Sessions that know alike what is read first do the same. -/
theorem Alike.sameRun (h : Alike (ReadsFirst ss) s s') : SameRun ss s s' := by
  induction ss generalizing s s' with
  | nil => exact ⟨rfl, h.sink_eq, rfl⟩
  | cons first more ih =>
    obtain ⟨hsink, hstop⟩ := h.runStatement_eq
    rcases hfirst : s.runStatement first with ⟨t, _ | stop⟩
    · have hmore := h.runStatement (by rw [hfirst])
      rw [hfirst] at hstop hmore
      have hfirst' : s'.runStatement first = ⟨_, none⟩ := outcome_eq hstop
      obtain ⟨hwrites, hsink, hstop⟩ := ih hmore
      refine ⟨?_, ?_, ?_⟩
      · rw [writesOfStatements_cons hfirst, writesOfStatements_cons hfirst', hwrites,
          writesOfStatement_congr h.effect_eq]
      · rw [runStatements_cons hfirst, runStatements_cons hfirst', hsink]
      · rw [runStatements_cons hfirst, runStatements_cons hfirst', hstop]
    · rw [hfirst] at hsink hstop
      have hfirst' : s'.runStatement first = ⟨_, some stop⟩ := outcome_eq hstop
      refine ⟨?_, ?_, ?_⟩
      · rw [writesOfStatements, writesOfStatements, hfirst, hfirst']
      · rw [runStatements, runStatements, hfirst, hfirst']
        exact hsink
      · rw [runStatements, runStatements, hfirst, hfirst']

end Session

/-! ## Dependence and frame -/

/-- The statements run alike from both scopes, and leave alone what they do not assign to. -/
structure RunsAlike (ss : List Statement) (scope scope' : Scope) (sink : Sink) : Prop where
  /-- They write the same. -/
  sink_eq : (Session.runStatements ⟨scope', sink⟩ ss).session.sink =
    (Session.runStatements ⟨scope, sink⟩ ss).session.sink
  /-- They complete in both, or stop for the same reason at the same place. -/
  stop_eq : (Session.runStatements ⟨scope', sink⟩ ss).stop =
    (Session.runStatements ⟨scope, sink⟩ ss).stop
  /-- They assign to the same names. -/
  binds_iff : ∀ name,
    Session.Binds ⟨scope', sink⟩ ss name ↔ Session.Binds ⟨scope, sink⟩ ss name
  /-- The names that they read first or assign to have the same values afterwards. -/
  agree : ∀ name, ReadsFirst ss name ∨ Session.Binds ⟨scope, sink⟩ ss name →
    (Session.runStatements ⟨scope', sink⟩ ss).session.scope.get? name =
      (Session.runStatements ⟨scope, sink⟩ ss).session.scope.get? name
  /-- Names that are not assigned to are as they were, in each of the scopes as in any other. -/
  frame : ∀ (start : Scope) (name : String), ¬ Session.Binds ⟨start, sink⟩ ss name →
    (Session.runStatements ⟨start, sink⟩ ss).session.scope.get? name = start.get? name

/-- A program depends only on the names that it reads before it assigns to them, and changes only
those that it assigns to. -/
theorem runs_alike_where_read_alike {ss : List Statement} {scope scope' : Scope}
    (hname : scope.name = scope'.name)
    (h : ∀ name, ReadsFirst ss name → scope.get? name = scope'.get? name) (sink : Sink) :
    RunsAlike ss scope scope' sink := by
  have halike : Session.Alike (ReadsFirst ss) ⟨scope, sink⟩ ⟨scope', sink⟩ := ⟨rfl, hname, h⟩
  obtain ⟨hwrites, hsink, hstop⟩ := halike.sameRun
  refine ⟨hsink, hstop, fun name => ?_, fun name hknown => ?_, fun start name hbinds => ?_⟩
  · rw [Session.binds_iff, Session.binds_iff, hwrites]
  · rw [Session.binds_iff] at hknown
    rw [Session.scope_runStatements, Session.scope_runStatements, hwrites]
    exact (Scope.AgreeOn.assignAll h _ name hknown).symm
  · rw [Session.binds_iff] at hbinds
    rw [Session.scope_runStatements]
    exact Scope.get?_assignAll_of_not_mem hbinds start

/-- A name that is read and then assigned to, one without a value, and one that the scopes disagree
on: the last statement fails, and leaves it as it was. -/
theorem runs_alike_until_undefined :
    let here : Span := .empty (.start "")
    let successor : Expr := .binary .add (.variable "x" here) (.number 1 here) here
    let ss : List Statement := [.assign "x" successor here, .print [.variable "x" here] here,
      .assign "y" (.variable "z" here) here]
    let scope : Scope := .ofList "<main>" [("x", .number 2), ("y", .string "a")]
    let scope' : Scope := .ofList "<main>" [("y", .string "b"), ("x", .number 2), ("w", .number 7)]
    scope.name = scope'.name ∧
    (∀ name, ReadsFirst ss name → scope.get? name = scope'.get? name) ∧
    scope.get? "y" ≠ scope'.get? "y" ∧
    RunsAlike ss scope scope' (.empty none) := by
  intro here successor ss scope scope'
  have hname : scope.name = scope'.name := rfl
  have hreads : ∀ name, ReadsFirst ss name → scope.get? name = scope'.get? name := by
    intro name h
    have hread : name = "x" ∨ name = "z" := by
      simp only [ss, successor, readsFirst_cons, not_readsFirst_nil, Statement.names, Expr.names,
        List.flatMap_cons, List.flatMap_nil, List.append_nil, List.mem_singleton] at h
      tauto
    rcases hread with rfl | rfl <;> rfl
  refine ⟨hname, hreads, ?_, runs_alike_where_read_alike hname hreads _⟩
  show some (Value.string "a") ≠ some (Value.string "b")
  simp

end Peng
