import Peng.Proofs.Syntax.Place

/-!
# What the rules read

Each rule of the parser either reads a derivation of the grammar, or halts at the one place
where no program goes on. Both are shown together, for a rule that halts leaves what it wants
to the rule that called it.
-/

namespace Peng

namespace Reply

variable {α : Type} {n : Nat}

/-- The reply has read what `read` says, or is stuck as `stuck` says. -/
def Says (reply : Reply α n) (read : α → List Token → Prop)
    (stuck : Wanted → List Token → Prop) : Prop :=
  match reply with
  | .read value rest _ => read value rest
  | .stuck missing rest _ => stuck missing rest

theorem says_widen {m : Nat} (h : n ≤ m) {reply : Reply α n} {read : α → List Token → Prop}
    {stuck : Wanted → List Token → Prop} :
    (reply.widen h).Says read stuck ↔ reply.Says read stuck := by
  cases reply <;> rfl

/-- What is to be shown of a reply, by the two ways it can turn out. -/
@[elab_as_elim]
theorem Says.elim {motive : Reply α n → Prop} {reply : Reply α n}
    {read : α → List Token → Prop} {stuck : Wanted → List Token → Prop}
    (h : reply.Says read stuck)
    (hstuck : ∀ missing rest hle, stuck missing rest → motive (.stuck missing rest hle))
    (hread : ∀ value rest hlt, read value rest → motive (.read value rest hlt)) :
    motive reply := by
  cases reply with
  | read value rest hlt => exact hread value rest hlt h
  | stuck missing rest hle => exact hstuck missing rest hle h

theorem says_following {before : String} {reply : Reply α n} {read : α → List Token → Prop}
    {stuck : Wanted → List Token → Prop} :
    (reply.following before).Says read stuck ↔
      reply.Says read fun missing rest =>
        stuck (if rest.length = n then .operandAfter before else missing) rest := by
  cases reply <;> rfl

theorem Says.mono {reply : Reply α n} {read read' : α → List Token → Prop}
    {stuck stuck' : Wanted → List Token → Prop} (h : reply.Says read stuck)
    (hread : ∀ value rest, read value rest → read' value rest)
    (hstuck : ∀ missing rest, stuck missing rest → stuck' missing rest) :
    reply.Says read' stuck' :=
  h.elim (fun missing rest _ => hstuck missing rest) fun value rest _ => hread value rest

end Reply

namespace Grammar

/-- The rule derives the front of `ts` up to `rest`, with that meaning. -/
def Reads (r : Rule) (ts : List Token) (meaning : r.Meaning) (rest : List Token) : Prop :=
  ∃ d : Derivation r, d.tokens ++ rest = ts ∧ d.meaning = meaning ∧ r.EndsBefore rest

/-- What a repeated part adds to its left operand. -/
def ReadsMore (operands : List Token → List (BinaryOp × Expr) → List Token → Prop)
    (left : Expr) (ts : List Token) (e : Expr) (rest : List Token) : Prop :=
  ∃ more, operands ts more rest ∧ joinAll left more = e

/-- What is to be shown of each rule, in front of the tokens `ts`. -/
structure RulesSay (ts : List Token) : Prop where
  expression (before : String) (f : Frame) : ((expression ts).following before).Says
    (Reads .expression ts) ((Place.operand true before f).Halts ts)
  moreTerms (left : Expr) (f : Frame) (hts : Rule.term.EndsBefore ts) : (moreTerms left ts).Says
    (ReadsMore (Reads .moreTerms) left ts) ((Place.value f).Halts ts)
  term (before : String) (f : Frame) : ((term ts).following before).Says
    (Reads .term ts) ((Place.operand true before f).Halts ts)
  moreFactors (left : Expr) (f : Frame) : (moreFactors left ts).Says
    (ReadsMore (Reads .moreFactors) left ts) ((Place.value f).Halts ts)
  unary (before : String) (f : Frame) : ((unary ts).following before).Says
    (Reads .unary ts) ((Place.operand true before f).Halts ts)
  atom (signable : Bool) (before : String) (f : Frame)
    (hts : signable = true → ∀ t ∈ ts.head?, t.kind.sign? = none) :
    ((atom ts).following before).Says
      (Reads .atom ts) ((Place.operand signable before f).Halts ts)

variable {ts : List Token}

/-- What a rule misses is not renamed once a token was read. -/
theorem halts_of_read {p : Place} {before : String} {missing : Wanted} {rest : List Token}
    (hlt : rest.length < ts.length) (h : p.Halts ts missing rest) :
    p.Halts ts (if rest.length = ts.length then .operandAfter before else missing) rest := by
  rwa [if_neg (Nat.ne_of_lt hlt)]

theorem says_atom (shorter : ∀ us : List Token, us.length < ts.length → RulesSay us)
    (signable : Bool) (before : String) (f : Frame)
    (hts : signable = true → ∀ t ∈ ts.head?, t.kind.sign? = none) :
    ((atom ts).following before).Says
      (Reads .atom ts) ((Place.operand signable before f).Halts ts) := by
  rw [Reply.says_following]
  cases ts with
  | nil =>
    rw [atom]
    exact Place.halts_self (.operand signable before f) [] id
  | cons t ts =>
    rw [atom]
    split
    case isTrue hparen =>
      have hstep := Place.step_operand_leftParen signable before f hparen
      have hinner := (shorter ts (Nat.lt_succ_self _)).expression "(" f.deeper
      refine hinner.elim ?_ ?_
      · intro missing rest h hstuck
        exact halts_of_read (Nat.lt_succ_of_le h) (hstuck.cons hstep)
      · rintro _ rest h ⟨d, rfl, rfl, hends⟩
        have hd := d.reach_tokens (f := f.deeper) (.expression "(")
        cases rest with
        | nil =>
          refine halts_of_read (Nat.succ_pos _) (.cons hstep (.append hd ?_))
          exact Place.halts_self (.value f.deeper) [] (Nat.succ_ne_zero _)
        | cons close rest =>
          dsimp only
          split
          case isTrue hclose =>
            exact ⟨.parenthesised t close hparen hclose d, by simp [Derivation.tokens], rfl,
              endsBefore_atom rest⟩
          case isFalse hclose =>
            refine halts_of_read (Nat.lt_succ_of_lt h) (.cons hstep (.append hd ?_))
            -- inside parentheses neither a comma nor a newline fits
            have hdepth : f.deeper.depth ≠ 0 := Nat.succ_ne_zero _
            have hrefuses : (Place.value f.deeper).step close = none :=
              Place.step_value_eq_none (hends close rfl) (fun _ => hclose)
                (fun h => absurd (congrArg Frame.depth h) hdepth) fun h => absurd h hdepth
            exact Place.halts_self (.value f.deeper) (close :: rest) hrefuses
    case isFalse hparen =>
      split
      case h_1 leaf hleaf =>
        exact ⟨.leaf t leaf (isLeaf_iff.mpr hleaf), rfl, rfl, endsBefore_atom ts⟩
      case h_2 hleaf =>
        refine (congrArg (Place.Halts _ _ · _) (if_pos rfl)).mpr
          (Place.halts_self (.operand signable before f) (t :: ts) ?_)
        cases signable with
        | false => simp [Place.Refuses, Place.step, hparen, hleaf]
        | true => simp [Place.Refuses, Place.step, hparen, hleaf, hts rfl t rfl]

theorem says_unary (hatom : ∀ us : List Token, us.length ≤ ts.length → ∀ signable before f,
      (signable = true → ∀ t ∈ us.head?, t.kind.sign? = none) →
      ((atom us).following before).Says
        (Reads .atom us) ((Place.operand signable before f).Halts us))
    (before : String) (f : Frame) : ((unary ts).following before).Says
      (Reads .unary ts) ((Place.operand true before f).Halts ts) := by
  have hunsigned (hts : ∀ t ∈ ts.head?, t.kind.sign? = none) : ((atom ts).following before).Says
      (Reads .unary ts) ((Place.operand true before f).Halts ts) := by
    refine (hatom ts (Nat.le_refl _) true before f fun _ => hts).mono ?_ fun _ _ => id
    rintro _ rest ⟨d, htokens, rfl, -⟩
    exact ⟨.unsigned d, htokens, rfl, endsBefore_unary rest⟩
  cases ts with
  | nil =>
    rw [unary]
    exact hunsigned (by simp)
  | cons t ts =>
    rw [unary]
    split
    case h_1 hsign => exact hunsigned (by rintro u ⟨⟩; exact hsign)
    case h_2 sign hsign =>
      have hstep := Place.step_operand_sign before f hsign
      -- a second sign is no misfit of this rule: it is the atom that has no use for it
      have hoperand := hatom ts (Nat.le_succ _) false t.lexeme f fun h => absurd h (by simp)
      rw [Reply.says_following]
      refine hoperand.elim ?_ ?_
      · intro missing rest h hstuck
        exact halts_of_read (Nat.lt_succ_of_le h) (hstuck.cons hstep)
      · rintro _ rest h ⟨d, rfl, rfl, -⟩
        exact ⟨.signed t sign (mem_signs.mpr hsign) d, rfl, rfl, endsBefore_unary rest⟩

theorem says_moreFactors (shorter : ∀ us : List Token, us.length < ts.length → RulesSay us)
    (left : Expr) (f : Frame) : (moreFactors left ts).Says
      (ReadsMore (Reads .moreFactors) left ts) ((Place.value f).Halts ts) := by
  cases ts with
  | nil =>
    rw [moreFactors]
    exact ⟨[], ⟨.noMoreFactors, rfl, rfl, endsBefore_nil _⟩, rfl⟩
  | cons t ts =>
    rw [moreFactors]
    split
    case h_1 hnone =>
      refine ⟨[], ⟨.noMoreFactors, rfl, rfl, ?_⟩, rfl⟩
      rintro u ⟨⟩ hk
      obtain ⟨op, hop⟩ := exists_product_of_mem_continuations hk
      rw [mem_products.mp hop] at hnone
      cases hnone
    case h_2 op hop =>
      have hop := mem_products.mpr hop
      have hstep := Place.step_value_operator f
        (List.mem_cons_of_mem .plus
          (List.mem_cons_of_mem .minus (mem_continuations_of_mem_products hop)))
      have hright := (shorter ts (Nat.lt_succ_self _)).unary t.lexeme f
      refine hright.elim (fun _ _ _ hstuck => hstuck.cons hstep) ?_
      rintro _ rest h ⟨d, rfl, rfl, -⟩
      have hd := d.reach_tokens (f := f) (.unary t.lexeme)
      have hmore := (shorter rest (Nat.lt_succ_of_lt h)).moreFactors (left.join op d.meaning) f
      refine Reply.says_widen _ |>.mpr (hmore.mono ?_ ?_)
      · rintro e rest' ⟨more, ⟨dmore, rfl, rfl, hends⟩, rfl⟩
        exact ⟨_, ⟨.nextFactor t op hop d dmore, by simp [Derivation.tokens], rfl, hends⟩, rfl⟩
      · exact fun _ _ hstuck => .cons hstep (.append hd hstuck)

theorem says_term (hunary : ∀ before f, ((unary ts).following before).Says
      (Reads .unary ts) ((Place.operand true before f).Halts ts))
    (shorter : ∀ us : List Token, us.length < ts.length → RulesSay us)
    (before : String) (f : Frame) : ((term ts).following before).Says
      (Reads .term ts) ((Place.operand true before f).Halts ts) := by
  have hfirst := hunary before f
  rw [Reply.says_following] at hfirst ⊢
  rw [term]
  refine hfirst.elim (fun _ _ _ hstuck => hstuck) ?_
  rintro _ rest h ⟨d, rfl, rfl, -⟩
  have hd := d.reach_tokens (f := f) (.unary before)
  have hmore := (shorter rest h).moreFactors d.meaning f
  refine Reply.says_widen _ |>.mpr (hmore.mono ?_ ?_)
  · rintro e rest' ⟨more, ⟨dmore, rfl, rfl, hends⟩, rfl⟩
    exact ⟨.product d dmore, by simp [Derivation.tokens], rfl, hends⟩
  · intro missing rest' hstuck
    have hlt := Nat.lt_of_le_of_lt hstuck.length_le h
    exact halts_of_read hlt (.append hd hstuck)

theorem says_moreTerms (shorter : ∀ us : List Token, us.length < ts.length → RulesSay us)
    (left : Expr) (f : Frame) (hts : Rule.term.EndsBefore ts) : (moreTerms left ts).Says
      (ReadsMore (Reads .moreTerms) left ts) ((Place.value f).Halts ts) := by
  cases ts with
  | nil =>
    rw [moreTerms]
    exact ⟨[], ⟨.noMoreTerms, rfl, rfl, endsBefore_nil _⟩, rfl⟩
  | cons t ts =>
    rw [moreTerms]
    split
    case h_1 hnone =>
      refine ⟨[], ⟨.noMoreTerms, rfl, rfl, ?_⟩, rfl⟩
      rintro u ⟨⟩ hk
      obtain ⟨op, hop⟩ := exists_sum_of_mem_continuations hk (hts t rfl)
      rw [mem_sums.mp hop] at hnone
      cases hnone
    case h_2 op hop =>
      have hop := mem_sums.mpr hop
      -- the right operand is read behind the operator, and the rule goes on behind it with
      -- the joined operands on the left
      have hstep := Place.step_value_operator f (mem_continuations_of_mem_sums hop)
      have hright := (shorter ts (Nat.lt_succ_self _)).term t.lexeme f
      refine hright.elim (fun _ _ _ hstuck => hstuck.cons hstep) ?_
      rintro _ rest h ⟨d, rfl, rfl, hrest⟩
      have hd := d.reach_tokens (f := f) (.term t.lexeme)
      have hmore :=
        (shorter rest (Nat.lt_succ_of_lt h)).moreTerms (left.join op d.meaning) f hrest
      refine Reply.says_widen _ |>.mpr (hmore.mono ?_ ?_)
      · rintro e rest' ⟨more, ⟨dmore, rfl, rfl, hends⟩, rfl⟩
        exact ⟨_, ⟨.nextTerm t op hop d dmore, by simp [Derivation.tokens], rfl, hends⟩, rfl⟩
      · exact fun _ _ hstuck => .cons hstep (.append hd hstuck)

theorem says_expression (hterm : ∀ before f, ((term ts).following before).Says
      (Reads .term ts) ((Place.operand true before f).Halts ts))
    (shorter : ∀ us : List Token, us.length < ts.length → RulesSay us)
    (before : String) (f : Frame) : ((expression ts).following before).Says
      (Reads .expression ts) ((Place.operand true before f).Halts ts) := by
  have hfirst := hterm before f
  rw [Reply.says_following] at hfirst ⊢
  rw [expression]
  refine hfirst.elim (fun _ _ _ hstuck => hstuck) ?_
  rintro _ rest h ⟨d, rfl, rfl, hrest⟩
  have hd := d.reach_tokens (f := f) (.term before)
  have hmore := (shorter rest h).moreTerms d.meaning f hrest
  refine Reply.says_widen _ |>.mpr (hmore.mono ?_ ?_)
  · rintro e rest' ⟨more, ⟨dmore, rfl, rfl, hends⟩, rfl⟩
    exact ⟨.sum d dmore, by simp [Derivation.tokens], rfl, hends⟩
  · intro missing rest' hstuck
    have hlt := Nat.lt_of_le_of_lt hstuck.length_le h
    exact halts_of_read hlt (.append hd hstuck)

/-- The recursion of the rules: each of them calls a later one in front of the same tokens, or
any of them in front of fewer. -/
theorem rulesSay (ts : List Token) : RulesSay ts := by
  have shorter (us : List Token) (h : us.length < ts.length) : RulesSay us := rulesSay us
  have hatom (us : List Token) (h : us.length ≤ ts.length) :=
    @says_atom us fun vs hvs => shorter vs (Nat.lt_of_lt_of_le hvs h)
  have hunary := says_unary hatom
  have hterm := says_term hunary shorter
  exact {
    expression := says_expression hterm shorter
    moreTerms := says_moreTerms shorter
    term := hterm
    moreFactors := says_moreFactors shorter
    unary := hunary
    atom := hatom ts (Nat.le_refl _) }
termination_by ts.length

/-! ## Statements -/

/-- The end of a statement, and what is behind it. -/
inductive StatementEnd : List Token → List Token → Prop where
  | input : StatementEnd [] []
  | newline {t : Token} (ht : t.kind = .newline) {rest : List Token} :
      StatementEnd (t :: rest) rest

theorem says_ending (host : Host) (hts : Rule.expression.EndsBefore ts)
    (hcomma : host = .print → ∀ t ∈ ts.head?, t.kind ≠ .comma) :
    (ending host.ending ts).Says (fun _ => StatementEnd ts)
      ((Place.value ⟨host, 0⟩).Halts ts) := by
  cases ts with
  | nil => exact StatementEnd.input
  | cons t ts =>
    rw [ending]
    split
    case isTrue hnewline => exact StatementEnd.newline hnewline
    case isFalse hnewline =>
      refine Place.halts_self (.value ⟨host, 0⟩) (t :: ts) ?_
      refine Place.step_value_eq_none (hts t rfl) (fun h => absurd rfl h) ?_ fun _ => hnewline
      rintro ⟨⟩
      exact hcomma rfl t rfl

/-- The values behind the first one, up to where no comma follows. -/
def ReadsValues (ts : List Token) (values : List Expr) (rest : List Token) : Prop :=
  ∃ more : List NextValue, NextValue.tokens more ++ rest = ts ∧
    more.map (fun v => v.value.meaning) = values ∧
    Rule.expression.EndsBefore rest ∧ ∀ t ∈ rest.head?, t.kind ≠ .comma

theorem says_moreValues (ts : List Token) (hts : Rule.expression.EndsBefore ts) :
    (moreValues ts).Says (ReadsValues ts) ((Place.value ⟨.print, 0⟩).Halts ts) := by
  match ts, hts with
  | [], hts =>
    rw [moreValues]
    exact ⟨[], rfl, rfl, hts, by simp⟩
  | t :: ts, hts =>
    rw [moreValues]
    split
    case isFalse hcomma =>
      refine ⟨[], rfl, rfl, hts, ?_⟩
      rintro u ⟨⟩
      exact hcomma
    case isTrue hcomma =>
      have hstep := Place.step_value_comma hcomma
      have hvalue := (rulesSay ts).expression "," ⟨.print, 0⟩
      refine hvalue.elim (fun _ _ _ hstuck => hstuck.cons hstep) ?_
      rintro _ rest h ⟨d, hts', rfl, hrest⟩
      have hd := d.reach_tokens (f := ⟨.print, 0⟩) (.expression ",")
      have hmore := says_moreValues rest hrest
      subst hts'
      dsimp only
      refine hmore.elim (fun _ _ _ hstuck => .cons hstep (.append hd hstuck)) ?_
      rintro _ rest' h' ⟨more, rfl, rfl, hends⟩
      exact ⟨⟨t, hcomma, d⟩ :: more, by simp [NextValue.tokens], rfl, hends⟩
termination_by ts.length
decreasing_by exact Nat.lt_succ_of_lt h

/-- A statement and its end. -/
def ReadsStatement (ts : List Token) (s : Statement) (rest : List Token) : Prop :=
  ∃ (d : StatementDerivation) (tail : List Token),
    d.tokens ++ tail = ts ∧ d.meaning = s ∧ StatementEnd tail rest

theorem says_print {say : Token} (hsay : say.kind = .say) : (print ts).Says
    (ReadsStatement (say :: ts)) (Place.outside.Halts (say :: ts)) := by
  have hstep : Place.outside.step say = some (.operand true "say" ⟨.print, 0⟩) := by
    simp [Place.step, hsay]
  have hfirst := (rulesSay ts).expression "say" ⟨.print, 0⟩
  rw [print]
  refine hfirst.elim (fun _ _ _ hstuck => hstuck.cons hstep) ?_
  rintro _ rest h ⟨d, rfl, rfl, hrest⟩
  have hd := d.reach_tokens (f := ⟨.print, 0⟩) (.expression "say")
  have hmore := says_moreValues rest hrest
  dsimp only
  refine hmore.elim (fun _ _ _ hstuck => .cons hstep (.append hd hstuck)) ?_
  rintro _ rest' h' ⟨values, rfl, rfl, hrest', hcomma⟩
  have hvalues := NextValue.reach_tokens values
  have hending := says_ending .print hrest' fun _ => hcomma
  rw [Host.ending] at hending
  dsimp only
  refine hending.elim ?_ ?_
  · exact fun _ _ _ hstuck => .cons hstep (.append hd (.append hvalues hstuck))
  · intro _ rest'' h'' hend
    exact ⟨.print say hsay d values, rest', by simp [StatementDerivation.tokens], rfl, hend⟩

theorem says_assignment {name : Token} (hname : name.kind = .identifier) :
    (assignment name ts).Says
      (ReadsStatement (name :: ts)) (Place.outside.Halts (name :: ts)) := by
  have hstep : Place.outside.step name = some .named := by
    simp [Place.step, hname]
  cases ts with
  | nil => exact .cons hstep (Place.halts_self .named [] id)
  | cons is ts =>
    rw [assignment]
    split
    case isTrue his =>
      have hstep' : Place.named.step is = some (.operand true "is" ⟨.assignment, 0⟩) := if_pos his
      have hvalue := (rulesSay ts).expression "is" ⟨.assignment, 0⟩
      refine hvalue.elim (fun _ _ _ hstuck => .cons hstep (.cons hstep' hstuck)) ?_
      rintro _ rest h ⟨d, rfl, rfl, hrest⟩
      have hd := d.reach_tokens (f := ⟨.assignment, 0⟩) (.expression "is")
      have hending := says_ending .assignment hrest (by rintro ⟨⟩)
      rw [Host.ending] at hending
      dsimp only
      refine hending.elim ?_ ?_
      · exact fun _ _ _ hstuck => .cons hstep (.cons hstep' (.append hd hstuck))
      · exact fun _ rest' _ hend => ⟨.assign name is hname his d, rest, rfl, rfl, hend⟩
    case isFalse his =>
      exact .cons hstep (Place.halts_self .named (is :: ts) (if_neg his))

theorem says_statement {t : Token} (ht : t.kind ≠ .newline) (ts : List Token) :
    (statement t ts).Says
      (ReadsStatement (t :: ts)) (Place.outside.Halts (t :: ts)) := by
  rw [statement]
  split
  case h_1 hsay => exact says_print hsay
  case h_2 hname => exact says_assignment hname
  case h_3 hsay hname =>
    refine Place.halts_self .outside (t :: ts) ?_
    rw [Place.Refuses, Place.step]
    split <;> simp_all

/-- All statements are derived, or reading halts at the token that is blamed. -/
theorem says_statements (ts : List Token) :
    match statements ts with
    | .ok ss => ∃ d : ProgramDerivation, d.tokens = ts ∧ d.statements = ss
    | .error (missing, rest) => Place.outside.Halts ts missing rest := by
  fun_induction statements ts with
  | case1 => exact ⟨.done, rfl, rfl⟩
  | case2 t ts hnewline ih =>
    have hstep : Place.outside.step t = some .outside := by simp [Place.step, hnewline]
    revert ih
    cases statements ts with
    | ok ss =>
      rintro ⟨d, rfl, rfl⟩
      exact ⟨.newline t hnewline d, rfl, rfl⟩
    | error failure => exact fun ih => ih.cons hstep
  | case3 t ts hnewline missing rest h heq =>
    have hfirst := says_statement hnewline ts
    rw [heq] at hfirst
    exact hfirst
  | case4 t ts hnewline first rest h heq more hmore ih =>
    have hfirst := says_statement hnewline ts
    rw [heq] at hfirst
    rw [hmore] at ih
    obtain ⟨d, tail, htokens, rfl, hend⟩ := hfirst
    obtain ⟨dmore, hmoreTokens, rfl⟩ := ih
    cases hend with
    | input =>
      -- nothing is left, and from nothing only nothing is derived
      obtain rfl := dmore.eq_of_tokens_eq .done hmoreTokens
      exact ⟨.last d, (List.append_nil _).symm.trans htokens, rfl⟩
    | newline hu =>
      subst hmoreTokens
      exact ⟨.statement d _ hu dmore, htokens, rfl⟩
  | case5 t ts hnewline first rest h heq failure hmore ih =>
    have hfirst := says_statement hnewline ts
    rw [heq] at hfirst
    rw [hmore] at ih
    obtain ⟨d, tail, htokens, rfl, hend⟩ := hfirst
    cases hend with
    | input =>
      rw [statements] at hmore
      cases hmore
    | newline hu =>
      obtain ⟨host, hd⟩ := d.reach_tokens
      have hrest := Place.Halts.append hd (.cons (Place.step_value_newline host hu) ih)
      rwa [htokens] at hrest

end Grammar

end Peng
