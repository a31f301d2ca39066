import Peng.Proofs.Syntax.Derivation

/-!
# Places in a program

How far a program has come is known from its tokens read from left to right, without any
recursion: a `Place` holds what the last token asks for, the kind of the statement around it
and the number of parentheses that are still open. One token leads from a place to the next, or
nowhere.

* The tokens of a derivation lead through (`ProgramDerivation.accepts_tokens`).
* There is at most one token in a list at which no place follows (`Place.Halts.unique`).
* Every place can be completed to a program (`Place.exists_accepts`).
-/

namespace Peng

namespace Grammar

/-- The statement that an expression is part of. -/
inductive Host where
  | print
  | assignment

/-- What is missing where a statement should end. -/
def Host.ending : Host → Wanted
  | .print => .endOfPrint
  | .assignment => .endOfAssignment

/-- What is around an operand: its statement, and the number of open parentheses. -/
structure Frame where
  host : Host
  depth : Nat

/-- Inside one more pair of parentheses. -/
def Frame.deeper (f : Frame) : Frame :=
  ⟨f.host, f.depth + 1⟩

/-- A place between two tokens of a program. -/
inductive Place where
  /-- Between statements. -/
  | outside
  /-- Behind the name that is to be assigned. -/
  | named
  /-- Behind what is written `before`, which needs an operand. -/
  | operand (signable : Bool) (before : String) (frame : Frame)
  /-- Behind an operand. -/
  | value (frame : Frame)

namespace Place

/-- The place behind the token `t`. -/
def step : Place → Token → Option Place
  | outside, t =>
    match t.kind with
    | .newline => some outside
    | .say => some (operand true "say" ⟨.print, 0⟩)
    | .identifier => some named
    | _ => none
  | named, t => if t.kind = .is then some (operand true "is" ⟨.assignment, 0⟩) else none
  | operand signable _ f, t =>
    if signable ∧ t.kind.sign?.isSome then some (operand false t.lexeme f)
    else if t.kind = .leftParen then some (operand true "(" f.deeper)
    else if t.leaf?.isSome then some (value f)
    else none
  | value f, t =>
    if t.kind ∈ Rule.expression.continuations then some (operand true t.lexeme f)
    else
      match t.kind, f with
      | .rightParen, ⟨host, depth + 1⟩ => some (value ⟨host, depth⟩)
      | .comma, ⟨.print, 0⟩ => some (operand true "," f)
      | .newline, ⟨_, 0⟩ => some outside
      | _, _ => none

/-- The place behind some tokens. -/
def reach (p : Place) (ts : List Token) : Option Place :=
  ts.foldlM step p

/-- Whether a program may end at the place. -/
def MayEnd : Place → Prop
  | outside => True
  | named | operand _ _ _ => False
  | value f => f.depth = 0

/-- What is missing at a place where neither the next token fits nor an end. -/
def wanted : Place → Wanted
  | outside => .statement
  | named => .assignment
  | operand _ before _ => .operandAfter before
  | value f =>
    match f.depth with
    | 0 => f.host.ending
    | _ + 1 => .closingParen

/-- The place has no use for the front of `rest`. -/
def Refuses (p : Place) : List Token → Prop
  | [] => ¬ p.MayEnd
  | t :: _ => p.step t = none

/-- The tokens complete a program from the place on. -/
def Accepts (p : Place) (ts : List Token) : Prop :=
  ∃ q, p.reach ts = some q ∧ q.MayEnd

/-- From the place on, `ts` can be followed up to `rest`, where `missing` is wanted. -/
def Halts (p : Place) (ts : List Token) (missing : Wanted) (rest : List Token) : Prop :=
  ∃ pre q, pre ++ rest = ts ∧ p.reach pre = some q ∧ q.Refuses rest ∧ q.wanted = missing

/-! ## Following tokens -/

variable {p q : Place} {t : Token} {ts rest : List Token} {missing : Wanted}

@[simp] theorem reach_nil (p : Place) : p.reach [] = some p := rfl

theorem reach_cons (p : Place) (t : Token) (ts : List Token) :
    p.reach (t :: ts) = (p.step t).bind fun q => q.reach ts :=
  List.foldlM_cons

theorem reach_append (p : Place) (ts us : List Token) :
    p.reach (ts ++ us) = (p.reach ts).bind fun q => q.reach us :=
  List.foldlM_append

theorem reach_cons_of_step (h : p.step t = some q) (ts : List Token) :
    p.reach (t :: ts) = q.reach ts := by
  rw [reach_cons, h, Option.bind_some]

theorem reach_append_of_reach (h : p.reach ts = some q) (us : List Token) :
    p.reach (ts ++ us) = q.reach us := by
  rw [reach_append, h, Option.bind_some]

theorem step_endOfInput (p : Place) (ht : t.kind = .endOfInput) : p.step t = none := by
  cases p <;>
    simp [step, ht, Token.Kind.sign?, Token.leaf?, Rule.continuations]

/-- No place leads over the end of the input. -/
theorem kind_ne_of_reach (h : p.reach ts = some q) : ∀ t ∈ ts, t.kind ≠ .endOfInput := by
  intro t ht hend
  obtain ⟨before, behind, rfl⟩ := List.append_of_mem ht
  rw [reach_append] at h
  obtain ⟨p', -, hbehind⟩ := Option.bind_eq_some_iff.mp h
  rw [reach_cons, step_endOfInput p' hend] at hbehind
  cases hbehind

theorem halts_self (p : Place) (ts : List Token) (h : p.Refuses ts) : p.Halts ts p.wanted ts :=
  ⟨[], p, rfl, rfl, h, rfl⟩

theorem Halts.append {pre : List Token} (hpre : p.reach pre = some q)
    (h : q.Halts ts missing rest) : p.Halts (pre ++ ts) missing rest := by
  obtain ⟨pre', q', rfl, hreach, hrefuses, hmissing⟩ := h
  refine ⟨pre ++ pre', q', List.append_assoc .., ?_, hrefuses, hmissing⟩
  rw [reach_append_of_reach hpre, hreach]

theorem Halts.cons (hstep : p.step t = some q) (h : q.Halts ts missing rest) :
    p.Halts (t :: ts) missing rest := by
  have hpre : p.reach [t] = some q := reach_cons_of_step hstep []
  exact Halts.append hpre h

/-- Where tokens can be followed no further does not depend on what comes behind. -/
theorem reach_append_of_refuses {pre : List Token} (hpre : p.reach pre = some q)
    (h : q.step t = none) (ts : List Token) : p.reach (pre ++ t :: ts) = none := by
  rw [reach_append_of_reach hpre, reach_cons, h, Option.bind_none]

theorem Halts.length_le (h : p.Halts ts missing rest) : rest.length ≤ ts.length := by
  obtain ⟨pre, q, rfl, -⟩ := h
  rw [List.length_append]
  exact Nat.le_add_left _ _

theorem Halts.not_accepts (h : p.Halts ts missing rest) : ¬ p.Accepts ts := by
  obtain ⟨pre, q, rfl, hpre, hrefuses, -⟩ := h
  rintro ⟨q', hreach, hend⟩
  cases rest with
  | nil =>
    rw [List.append_nil, hpre] at hreach
    cases hreach
    exact hrefuses hend
  | cons t rest =>
    rw [reach_append_of_refuses hpre hrefuses] at hreach
    cases hreach

/-- No token is read behind the place where reading halts. -/
theorem eq_nil_of_refuses {pre more : List Token} (hpre : p.reach pre = some q)
    (hrefuses : q.Refuses (more ++ rest)) (hmore : (p.reach (pre ++ more)).isSome) :
    more = [] := by
  cases more with
  | nil => rfl
  | cons t more =>
    rw [reach_append_of_refuses hpre hrefuses] at hmore
    cases hmore

/-- Reading halts at one place only. -/
theorem Halts.unique {missing' : Wanted} {rest' : List Token} (h : p.Halts ts missing rest)
    (h' : p.Halts ts missing' rest') : missing = missing' ∧ rest = rest' := by
  obtain ⟨pre, q, hts, hpre, hrefuses, rfl⟩ := h
  obtain ⟨pre', q', hts', hpre', hrefuses', rfl⟩ := h'
  -- of the two parts that were followed one goes on where the other ends, but from there no
  -- step leads on
  obtain ⟨more, rfl, rfl⟩ | ⟨more, rfl, rfl⟩ :=
    List.append_eq_append_iff.mp (hts.trans hts'.symm)
  · obtain rfl := eq_nil_of_refuses hpre hrefuses (by rw [hpre']; rfl)
    rw [List.append_nil, hpre] at hpre'
    cases hpre'
    exact ⟨rfl, rfl⟩
  · obtain rfl := eq_nil_of_refuses hpre' hrefuses' (by rw [hpre]; rfl)
    rw [List.append_nil, hpre'] at hpre
    cases hpre
    exact ⟨rfl, rfl⟩

/-! ## Completing a program -/

/-- A name, as the operand that completes any expression. -/
def someName : Token :=
  ⟨.identifier, "x", none, .empty (.start "")⟩

/-- The word between a name and its value. -/
def someIs : Token :=
  ⟨.is, "is", none, .empty (.start "")⟩

/-- A parenthesis that closes. -/
def someRightParen : Token :=
  ⟨.rightParen, ")", none, .empty (.start "")⟩

theorem value_accepts (f : Frame) :
    (value f).Accepts (List.replicate f.depth someRightParen) := by
  obtain ⟨host, depth⟩ := f
  induction depth with
  | zero => exact ⟨value ⟨host, 0⟩, rfl, rfl⟩
  | succ depth ih =>
    obtain ⟨q, hreach, hend⟩ := ih
    exact ⟨q, hreach, hend⟩

theorem operand_accepts (signable : Bool) (before : String) (f : Frame) :
    (operand signable before f).Accepts
      (someName :: List.replicate f.depth someRightParen) := by
  obtain ⟨q, hreach, hend⟩ := value_accepts f
  have hstep : (operand signable before f).step someName = some (value f) := by
    simp [step, someName, Token.Kind.sign?, Token.leaf?]
  exact ⟨q, by rw [reach_cons_of_step hstep, hreach], hend⟩

/-- Every place can be completed to the end of a program. -/
theorem exists_accepts (p : Place) : ∃ ts, p.Accepts ts := by
  cases p with
  | outside => exact ⟨[], outside, rfl, trivial⟩
  | named =>
    obtain ⟨q, hreach, hend⟩ := operand_accepts true "is" ⟨.assignment, 0⟩
    have hstep : named.step someIs = some (operand true "is" ⟨.assignment, 0⟩) := rfl
    exact ⟨someIs :: _, q, by rw [reach_cons_of_step hstep, hreach], hend⟩
  | operand signable before f => exact ⟨_, operand_accepts signable before f⟩
  | value f => exact ⟨_, value_accepts f⟩

end Place

/-! ## The way of a derivation -/

/-- The places at which a rule may begin inside a frame. -/
inductive Rule.Entry (f : Frame) : Rule → Place → Prop where
  | expression (before : String) : Rule.Entry f .expression (.operand true before f)
  | moreTerms : Rule.Entry f .moreTerms (.value f)
  | term (before : String) : Rule.Entry f .term (.operand true before f)
  | moreFactors : Rule.Entry f .moreFactors (.value f)
  | unary (before : String) : Rule.Entry f .unary (.operand true before f)
  | atom (signable : Bool) (before : String) : Rule.Entry f .atom (.operand signable before f)

theorem Place.step_value_operator (f : Frame) {t : Token}
    (ht : t.kind ∈ Rule.expression.continuations) :
    (Place.value f).step t = some (.operand true t.lexeme f) :=
  if_pos ht

theorem Place.step_operand_sign (before : String) (f : Frame) {t : Token} {sign : Sign}
    (ht : t.kind.sign? = some sign) :
    (Place.operand true before f).step t = some (.operand false t.lexeme f) := by
  simp [step, ht]

theorem Place.step_operand_leaf (signable : Bool) (before : String) (f : Frame) {t : Token}
    {e : Expr} (ht : t.IsLeaf e) :
    (Place.operand signable before f).step t = some (.value f) := by
  have hsign := Derivation.sign?_of_atom_append (.leaf t e ht) (show [t] ++ [] = [t] from rfl)
  have hparen : t.kind ≠ .leftParen := fun h => by simpa [h] using kind_of_isLeaf ht
  simp [step, hsign, hparen, isLeaf_iff.mp ht]

theorem Place.step_operand_leftParen (signable : Bool) (before : String) (f : Frame) {t : Token}
    (ht : t.kind = .leftParen) :
    (Place.operand signable before f).step t = some (.operand true "(" f.deeper) := by
  simp [step, ht, Token.Kind.sign?]

theorem Place.step_value_rightParen (f : Frame) {t : Token} (ht : t.kind = .rightParen) :
    (Place.value f.deeper).step t = some (.value f) := by
  simp [step, ht, Rule.continuations, Frame.deeper]

/-- The tokens of a derivation lead from wherever its rule may begin to behind an operand. -/
theorem Derivation.reach_tokens {r : Rule} (d : Derivation r) {f : Frame} {p : Place}
    (h : r.Entry f p) : p.reach d.tokens = some (.value f) := by
  induction d generalizing f p with
  | sum first more ihfirst ihmore =>
    cases h
    rw [tokens, Place.reach_append_of_reach (ihfirst (.term _)), ihmore .moreTerms]
  | noMoreTerms =>
    cases h
    rfl
  | nextTerm t op hop right more ihright ihmore =>
    cases h
    have ht := mem_continuations_of_mem_sums hop
    rw [tokens, Place.reach_cons_of_step (Place.step_value_operator f ht),
      Place.reach_append_of_reach (ihright (.term _)), ihmore .moreTerms]
  | product first more ihfirst ihmore =>
    cases h
    rw [tokens, Place.reach_append_of_reach (ihfirst (.unary _)), ihmore .moreFactors]
  | noMoreFactors =>
    cases h
    rfl
  | nextFactor t op hop right more ihright ihmore =>
    cases h
    have ht := List.mem_cons_of_mem .plus
      (List.mem_cons_of_mem .minus (mem_continuations_of_mem_products hop))
    rw [tokens, Place.reach_cons_of_step (Place.step_value_operator f ht),
      Place.reach_append_of_reach (ihright (.unary _)), ihmore .moreFactors]
  | unsigned operand ih =>
    cases h
    exact ih (.atom _ _)
  | signed t sign hsign operand ih =>
    cases h
    rw [tokens, Place.reach_cons_of_step (Place.step_operand_sign _ f (mem_signs.mp hsign)),
      ih (.atom _ _)]
  | leaf t e hleaf =>
    cases h
    exact Place.reach_cons_of_step (Place.step_operand_leaf _ _ f hleaf) []
  | parenthesised left right hleft hright inner ih =>
    cases h
    rw [tokens, Place.reach_cons_of_step (Place.step_operand_leftParen _ _ f hleft),
      Place.reach_append_of_reach (ih (.expression _)),
      Place.reach_cons_of_step (Place.step_value_rightParen f hright), Place.reach_nil]

theorem Place.step_value_comma {t : Token} (ht : t.kind = .comma) :
    (Place.value ⟨.print, 0⟩).step t = some (.operand true "," ⟨.print, 0⟩) := by
  simp [step, ht, Rule.continuations]

theorem Place.step_value_newline (host : Host) {t : Token} (ht : t.kind = .newline) :
    (Place.value ⟨host, 0⟩).step t = some .outside := by
  simp [step, ht, Rule.continuations]

/-- Behind an operand nothing fits but an operator, a parenthesis that closes an open one, the
comma of a print, and outside of parentheses a newline. -/
theorem Place.step_value_eq_none {f : Frame} {t : Token}
    (hoperator : t.kind ∉ Rule.expression.continuations)
    (hparen : f.depth ≠ 0 → t.kind ≠ .rightParen)
    (hcomma : f = ⟨.print, 0⟩ → t.kind ≠ .comma)
    (hnewline : f.depth = 0 → t.kind ≠ .newline) : (Place.value f).step t = none := by
  obtain ⟨host, depth⟩ := f
  simp only [step, if_neg hoperator]
  split <;> simp_all

theorem NextValue.reach_tokens (values : List NextValue) :
    (Place.value ⟨.print, 0⟩).reach (NextValue.tokens values) = some (.value ⟨.print, 0⟩) := by
  induction values with
  | nil => rfl
  | cons v values ih =>
    rw [NextValue.tokens, List.flatMap_cons, List.cons_append,
      Place.reach_cons_of_step (Place.step_value_comma v.hcomma),
      Place.reach_append_of_reach (v.value.reach_tokens (.expression _))]
    exact ih

namespace StatementDerivation

theorem reach_tokens (d : StatementDerivation) :
    ∃ host, Place.outside.reach d.tokens = some (.value ⟨host, 0⟩) := by
  cases d with
  | print say hsay first more =>
    refine ⟨.print, ?_⟩
    have hstep : Place.outside.step say = some (.operand true "say" ⟨.print, 0⟩) := by
      simp [Place.step, hsay]
    rw [tokens, Place.reach_cons_of_step hstep,
      Place.reach_append_of_reach (first.reach_tokens (.expression _)), NextValue.reach_tokens]
  | assign name is hname his value =>
    refine ⟨.assignment, ?_⟩
    have hname : Place.outside.step name = some .named := by
      simp [Place.step, hname]
    have his : Place.named.step is = some (.operand true "is" ⟨.assignment, 0⟩) := if_pos his
    rw [tokens, Place.reach_cons_of_step hname, Place.reach_cons_of_step his,
      value.reach_tokens (.expression _)]

end StatementDerivation

/-- The tokens of a derivation make up a program. -/
theorem ProgramDerivation.accepts_tokens (d : ProgramDerivation) :
    Place.outside.Accepts d.tokens := by
  induction d with
  | done => exact ⟨.outside, rfl, trivial⟩
  | newline t ht more ih =>
    obtain ⟨q, hreach, hend⟩ := ih
    have hstep : Place.outside.step t = some .outside := by simp [Place.step, ht]
    exact ⟨q, by rw [tokens, Place.reach_cons_of_step hstep, hreach], hend⟩
  | statement first t ht more ih =>
    obtain ⟨q, hreach, hend⟩ := ih
    obtain ⟨host, hfirst⟩ := first.reach_tokens
    refine ⟨q, ?_, hend⟩
    rw [tokens, Place.reach_append_of_reach hfirst,
      Place.reach_cons_of_step (Place.step_value_newline host ht), hreach]
  | last only =>
    obtain ⟨host, honly⟩ := only.reach_tokens
    exact ⟨_, honly, rfl⟩

end Grammar

end Peng
