import Mathlib.Data.List.DropRight
import Peng.Proofs.Run.Saying
import Peng.Proofs.Syntax.Acceptance

/-!
# What is missing, by the tokens before

The words of a syntax error come out of nested rules, each of which may replace what an inner one
was missing. `syntax_error_by_context`: all the same they depend on nothing but the token that does
not fit and the tokens before it on its line (`expectedBehind`).

## Shape of the proof

The place behind some tokens remembers just what is needed of them. `Place.IsBehind` says which
tokens lead to a place, one step keeps it (`Place.Step.isBehind`), and so does reading from the
start (`Place.isBehind_of_reach`). What a place wants is then read off the tokens.
-/

namespace Peng

/-! ## The words by the context -/

/-- The tokens behind the last newline. -/
def lastTokens (read : List Token) : List Token :=
  read.rtakeWhile (·.kind ≠ .newline)

/-- The kinds of token that an operand has to follow. -/
def operandAskers : List Token.Kind :=
  [.say, .comma, .is, .leftParen, .plus, .minus, .star, .slash]

/-- How many tokens are of a kind. -/
def countKind (kind : Token.Kind) (ts : List Token) : Nat :=
  ts.countP (·.kind = kind)

/-- What is said to be expected behind the tokens `line` of an unfinished line. -/
def expectedBehind (line : List Token) : String :=
  match line.getLast? with
  | none => "Expected 'say', variable assignment or newline"
  | some last =>
    if last.kind ∈ operandAskers then "Expected expression after '" ++ last.lexeme ++ "'"
    else if line.length = 1 ∧ last.kind = .identifier then "Expected 'is' after identifier"
    else if countKind .rightParen line < countKind .leftParen line then "Expected ')'"
    else if line.head?.map (·.kind) = some .say then
      "Expected ',', '+', '-', '*', '/', newline or end of input"
    else "Expected '+', '-', '*', '/', newline or end of input"

/-- The text of a word or mark that is always written alike. -/
def Token.Kind.spelling? : Token.Kind → Option String
  | .say => some "say"
  | .is => some "is"
  | .comma => some ","
  | .leftParen => some "("
  | _ => none

/-- The token is written as its kind is. -/
def Token.IsSpelled (t : Token) : Prop :=
  ∀ text ∈ t.kind.spelling?, t.lexeme = text

namespace Grammar

/-! ## Steps from place to place -/

/-- The steps from one place to the next. -/
inductive Place.Step (t : Token) : Place → Place → Prop where
  | newline (ht : t.kind = .newline) : Step t .outside .outside
  | say (ht : t.kind = .say) : Step t .outside (.operand true "say" ⟨.print, 0⟩)
  | name (ht : t.kind = .identifier) : Step t .outside .named
  | is (ht : t.kind = .is) : Step t .named (.operand true "is" ⟨.assignment, 0⟩)
  | sign {before : String} {f : Frame} {sign : Sign} (ht : t.kind.sign? = some sign) :
      Step t (.operand true before f) (.operand false t.lexeme f)
  | leftParen {signable : Bool} {before : String} {f : Frame} (ht : t.kind = .leftParen) :
      Step t (.operand signable before f) (.operand true "(" f.deeper)
  | leaf {signable : Bool} {before : String} {f : Frame} {e : Expr} (ht : t.IsLeaf e) :
      Step t (.operand signable before f) (.value f)
  | operator {f : Frame} (ht : t.kind ∈ Rule.expression.continuations) :
      Step t (.value f) (.operand true t.lexeme f)
  | rightParen {f : Frame} (ht : t.kind = .rightParen) : Step t (.value f.deeper) (.value f)
  | comma (ht : t.kind = .comma) :
      Step t (.value ⟨.print, 0⟩) (.operand true "," ⟨.print, 0⟩)
  | ending {host : Host} (ht : t.kind = .newline) : Step t (.value ⟨host, 0⟩) .outside

theorem Place.step_of_eq_some {p q : Place} {t : Token} (h : p.step t = some q) : Step t p q := by
  cases p with
  | outside =>
    rw [step] at h
    split at h <;> cases h
    · exact .newline ‹_›
    · exact .say ‹_›
    · exact .name ‹_›
  | named =>
    rw [step] at h
    split at h <;> cases h
    exact .is ‹_›
  | operand signable before f =>
    rw [step] at h
    split at h
    case isTrue hsign =>
      obtain ⟨rfl, hsign⟩ := hsign
      obtain ⟨sign, hsign⟩ := Option.isSome_iff_exists.mp hsign
      cases h
      exact .sign hsign
    case isFalse =>
      split at h
      case isTrue hparen =>
        cases h
        exact .leftParen hparen
      case isFalse =>
        split at h <;> cases h
        obtain ⟨e, he⟩ := Option.isSome_iff_exists.mp ‹_›
        exact .leaf (isLeaf_iff.mpr he)
  | value f =>
    simp only [step] at h
    split at h
    case isTrue hoperator =>
      cases h
      exact .operator hoperator
    case isFalse =>
      split at h <;> cases h
      case h_1 host depth hparen => exact @Step.rightParen t ⟨host, depth⟩ hparen
      · exact .comma ‹_›
      · exact .ending ‹_›

theorem mem_continuations_of_sign? {k : Token.Kind} {sign : Sign} (h : k.sign? = some sign) :
    k ∈ Rule.expression.continuations := by
  cases k <;> simp [Token.Kind.sign?, Rule.continuations] at h ⊢

/-! ## The tokens that lead to a place -/

/-- The kind of token that a statement begins with. -/
def Host.opening : Host → Token.Kind
  | .print => .say
  | .assignment => .identifier

/-- The tokens `line` stand in the statement of the frame, with that many parentheses open. -/
structure Frame.IsAround (f : Frame) (line : List Token) : Prop where
  head_eq : line.head?.map (·.kind) = some f.host.opening
  depth_eq : f.depth + countKind .rightParen line = countKind .leftParen line

/-- The tokens `line`, behind the last newline, lead to the place. -/
inductive Place.IsBehind : Place → List Token → Prop where
  | outside : IsBehind .outside []
  | named {t : Token} (ht : t.kind = .identifier) : IsBehind .named [t]
  | operand {signable : Bool} {f : Frame} {front : List Token} {last : Token}
      (hlast : last.kind ∈ operandAskers) (hf : f.IsAround (front ++ [last])) :
      IsBehind (.operand signable last.lexeme f) (front ++ [last])
  | value {f : Frame} {front : List Token} {last : Token} (hfront : front ≠ [])
      (hlast : last.kind ∉ operandAskers) (hf : f.IsAround (front ++ [last])) :
      IsBehind (.value f) (front ++ [last])

theorem countKind_concat (kind : Token.Kind) (front : List Token) (t : Token) :
    countKind kind (front ++ [t]) = countKind kind front + if t.kind = kind then 1 else 0 := by
  simp [countKind, List.countP_append, List.countP_cons]

theorem head?_concat_of_ne_nil {front : List Token} (h : front ≠ []) (t : Token) :
    (front ++ [t]).head? = front.head? := by
  cases front with
  | nil => exact absurd rfl h
  | cons first front => rfl

namespace Frame.IsAround

variable {f : Frame} {line : List Token} {t : Token}

theorem ne_nil (h : f.IsAround line) : line ≠ [] := by
  rintro rfl
  have hhead := h.head_eq
  cases hhead

theorem singleton {host : Host} (ht : t.kind = host.opening) : (Frame.mk host 0).IsAround [t] where
  head_eq := congrArg some ht
  depth_eq := by cases host <;> simp [countKind, ht, Host.opening]

/-- One more token, which is no parenthesis. -/
theorem concat (h : f.IsAround line) (hleft : t.kind ≠ .leftParen) (hright : t.kind ≠ .rightParen) :
    f.IsAround (line ++ [t]) where
  head_eq := by rw [head?_concat_of_ne_nil h.ne_nil, h.head_eq]
  depth_eq := by
    rw [countKind_concat, countKind_concat, if_neg hleft, if_neg hright]
    exact h.depth_eq

theorem concat_leftParen (h : f.IsAround line) (ht : t.kind = .leftParen) :
    f.deeper.IsAround (line ++ [t]) where
  head_eq := by
    rw [head?_concat_of_ne_nil h.ne_nil, h.head_eq]
    rfl
  depth_eq := by
    have hdepth := h.depth_eq
    rw [countKind_concat, countKind_concat, if_pos ht, if_neg (by simp [ht]), Frame.deeper]
    dsimp only
    omega

theorem concat_rightParen (h : f.deeper.IsAround line) (ht : t.kind = .rightParen) :
    f.IsAround (line ++ [t]) where
  head_eq := by
    rw [head?_concat_of_ne_nil h.ne_nil, h.head_eq]
    rfl
  depth_eq := by
    have hdepth := h.depth_eq
    rw [Frame.deeper] at hdepth
    dsimp only at hdepth
    rw [countKind_concat, countKind_concat, if_pos ht, if_neg (by simp [ht])]
    omega

end Frame.IsAround

namespace Place

variable {p q : Place} {line read : List Token} {t : Token}

/-- The tokens behind the last newline, once `t` is read as well. -/
def lineBehind (line : List Token) (t : Token) : List Token :=
  if t.kind = .newline then [] else line ++ [t]

theorem lineBehind_of_newline (ht : t.kind = .newline) : lineBehind line t = [] :=
  if_pos ht

theorem lineBehind_of_ne (ht : t.kind ≠ .newline) : lineBehind line t = line ++ [t] :=
  if_neg ht

/-- A token that asks for an operand leads to a place that wants one behind it. -/
theorem IsBehind.of_asker {signable : Bool} {f : Frame} {before : String}
    (hlexeme : t.lexeme = before) (ht : t.kind ∈ operandAskers) (hf : f.IsAround (line ++ [t])) :
    (Place.operand signable before f).IsBehind (lineBehind line t) := by
  have hnewline : t.kind ≠ .newline := fun h => by simp [h, operandAskers] at ht
  rw [lineBehind_of_ne hnewline, ← hlexeme]
  exact .operand ht hf

theorem IsBehind.of_operator {signable : Bool} {f : Frame}
    (ht : t.kind ∈ Rule.expression.continuations) (hf : f.IsAround line) :
    (Place.operand signable t.lexeme f).IsBehind (lineBehind line t) := by
  have hkinds : t.kind ∈ operandAskers ∧ t.kind ≠ .leftParen ∧ t.kind ≠ .rightParen := by
    generalize t.kind = k at ht
    cases k <;> simp [Rule.continuations, operandAskers] at ht ⊢
  exact .of_asker rfl hkinds.1 (hf.concat hkinds.2.1 hkinds.2.2)

/-- A token that ends an operand, behind others on its line. -/
theorem IsBehind.of_ending {f : Frame} (hline : line ≠ []) (ht : t.kind ∉ .newline :: operandAskers)
    (hf : f.IsAround (line ++ [t])) : (Place.value f).IsBehind (lineBehind line t) := by
  obtain ⟨hnewline, hasker⟩ := not_or.mp (List.mem_cons.not.mp ht)
  rw [lineBehind_of_ne hnewline]
  exact .value hline hasker hf

/-- One step leads on with its token. -/
theorem Step.isBehind (hspelled : t.IsSpelled) (h : p.IsBehind line) (hstep : Step t p q) :
    q.IsBehind (lineBehind line t) := by
  cases hstep with
  | newline ht =>
    rw [lineBehind_of_newline ht]
    exact .outside
  | say ht =>
    cases h
    exact .of_asker (hspelled _ (by rw [ht]; rfl)) (by simp [ht, operandAskers]) (.singleton ht)
  | name ht =>
    cases h
    rw [lineBehind_of_ne (by simp [ht])]
    exact .named ht
  | is ht =>
    cases h with | named hname =>
    have hf : (Frame.mk .assignment 0).IsAround [_] := .singleton hname
    exact .of_asker (hspelled _ (by rw [ht]; rfl)) (by simp [ht, operandAskers])
      (hf.concat (by simp [ht]) (by simp [ht]))
  | sign ht =>
    cases h with | operand hlast hf =>
    exact .of_operator (mem_continuations_of_sign? ht) hf
  | leftParen ht =>
    cases h with | operand hlast hf =>
    exact .of_asker (hspelled _ (by rw [ht]; rfl)) (by simp [ht, operandAskers])
      (hf.concat_leftParen ht)
  | leaf ht =>
    cases h with | operand hlast hf =>
    have hkinds : t.kind ∉ .newline :: operandAskers ∧ t.kind ≠ .leftParen ∧
        t.kind ≠ .rightParen := by
      have hkind := kind_of_isLeaf ht
      generalize t.kind = k at hkind
      cases k <;> simp [operandAskers] at hkind ⊢
    exact .of_ending (by simp) hkinds.1 (hf.concat hkinds.2.1 hkinds.2.2)
  | operator ht =>
    cases h with | value hfront hlast hf =>
    exact .of_operator ht hf
  | rightParen ht =>
    cases h with | value hfront hlast hf =>
    exact .of_ending (by simp) (by simp [ht, operandAskers]) (hf.concat_rightParen ht)
  | comma ht =>
    cases h with | value hfront hlast hf =>
    exact .of_asker (hspelled _ (by rw [ht]; rfl)) (by simp [ht, operandAskers])
      (hf.concat (by simp [ht]) (by simp [ht]))
  | ending ht =>
    rw [lineBehind_of_newline ht]
    exact .outside

theorem lastTokens_concat (read : List Token) (t : Token) :
    lastTokens (read ++ [t]) = lineBehind (lastTokens read) t := by
  by_cases ht : t.kind = .newline
  · rw [lineBehind_of_newline ht]
    exact List.rtakeWhile_concat_neg _ _ _ (by simpa using ht)
  · rw [lineBehind_of_ne ht]
    exact List.rtakeWhile_concat_pos _ _ _ (by simpa using ht)

/-- The tokens of the last line lead to where all of the tokens do. -/
theorem isBehind_of_reach (hspelled : ∀ t ∈ read, t.IsSpelled)
    (h : outside.reach read = some p) : p.IsBehind (lastTokens read) := by
  induction read using List.reverseRecOn generalizing p with
  | nil =>
    cases h
    exact .outside
  | append_singleton read t ih =>
    obtain ⟨hspelled, ht⟩ := List.forall_mem_append.mp hspelled
    rw [reach_append] at h
    obtain ⟨q, hq, hlast⟩ := Option.bind_eq_some_iff.mp h
    rw [reach_cons] at hlast
    obtain ⟨p', hstep, hp⟩ := Option.bind_eq_some_iff.mp hlast
    cases hp
    rw [lastTokens_concat]
    exact (step_of_eq_some hstep).isBehind (ht t (List.mem_singleton_self t)) (ih hspelled hq)

theorem expectedBehind_concat (front : List Token) (last : Token) :
    expectedBehind (front ++ [last]) =
      if last.kind ∈ operandAskers then "Expected expression after '" ++ last.lexeme ++ "'"
      else if (front ++ [last]).length = 1 ∧ last.kind = .identifier then
        "Expected 'is' after identifier"
      else if countKind .rightParen (front ++ [last]) < countKind .leftParen (front ++ [last]) then
        "Expected ')'"
      else if (front ++ [last]).head?.map (·.kind) = some .say then
        "Expected ',', '+', '-', '*', '/', newline or end of input"
      else "Expected '+', '-', '*', '/', newline or end of input" := by
  rw [expectedBehind, List.getLast?_concat]

/-- What a place wants is known from the tokens that lead to it. -/
theorem IsBehind.message_wanted (h : p.IsBehind line) : p.wanted.message = expectedBehind line := by
  cases h with
  | outside => rfl
  | @named t ht =>
    have hasker : t.kind ∉ operandAskers := by simp [ht, operandAskers]
    exact ((expectedBehind_concat [] t).trans ((if_neg hasker).trans (if_pos ⟨rfl, ht⟩))).symm
  | operand hlast hf =>
    rw [expectedBehind_concat, if_pos hlast]
    rfl
  | @value f front last hfront hlast hf =>
    have hlength : ¬((front ++ [last]).length = 1 ∧ last.kind = .identifier) := by
      simp [hfront]
    have hdepth := hf.depth_eq
    rw [expectedBehind_concat, if_neg hlast, if_neg hlength, hf.head_eq]
    obtain ⟨host, depth⟩ := f
    cases depth with
    | succ depth =>
      rw [if_pos (by dsimp only at hdepth; omega)]
      rfl
    | zero =>
      rw [if_neg (by dsimp only at hdepth; omega)]
      cases host with
      | print => exact (if_pos rfl).symm
      | assignment => exact (if_neg (by simp [Host.opening])).symm

/-- A line begins with `say` or with a name. -/
theorem IsBehind.head_kind (h : p.IsBehind line) :
    ∀ first ∈ line.head?, first.kind = .say ∨ first.kind = .identifier := by
  have hframe (f : Frame) (hf : f.IsAround line) (first : Token) (hfirst : first ∈ line.head?) :
      first.kind = .say ∨ first.kind = .identifier := by
    have hhead := hf.head_eq
    rw [hfirst] at hhead
    have hkind : first.kind = f.host.opening := Option.some.inj hhead
    rw [hkind]
    cases f.host
    · exact .inl rfl
    · exact .inr rfl
  cases h with
  | outside => exact nofun
  | named ht =>
    rintro first ⟨⟩
    exact .inr ht
  | operand hlast hf => exact hframe _ hf
  | value hfront hlast hf => exact hframe _ hf

end Place

/-! ## What is replaced -/

section Replaced

variable {ts : List Token}

/-- A rule that has read nothing misses the operand that it begins with. -/
def MissesOperandUnread (ts : List Token) (missing : Wanted) (rest : List Token) : Prop :=
  rest.length = ts.length → missing = .operand

theorem atom_missesOperandUnread (ts : List Token) :
    (atom ts).Says (fun _ _ => True) (MissesOperandUnread ts) := by
  cases ts with
  | nil =>
    rw [atom]
    exact fun _ => rfl
  | cons t ts =>
    rw [atom]
    split
    case isTrue hparen =>
      -- the parenthesis is read in any case
      have hread (missing : Wanted) {rest : List Token} (hrest : rest.length ≤ ts.length) :
          MissesOperandUnread (t :: ts) missing rest :=
        fun hlength => absurd hlength (Nat.ne_of_lt (Nat.lt_succ_of_le hrest))
      rcases (expression ts).following "(" with ⟨inner, _ | ⟨close, rest⟩, h⟩ | ⟨missing, rest, h⟩
      · exact hread _ (Nat.zero_le _)
      · dsimp only
        split
        · trivial
        · exact hread _ h.le
      · exact hread _ h
    case isFalse hparen =>
      split
      · trivial
      · exact fun _ => rfl

theorem unary_missesOperandUnread (ts : List Token) :
    (unary ts).Says (fun _ _ => True) (MissesOperandUnread ts) := by
  cases ts with
  | nil =>
    rw [unary]
    exact atom_missesOperandUnread []
  | cons t ts =>
    rw [unary]
    split
    · exact atom_missesOperandUnread (t :: ts)
    · rcases (atom ts).following t.lexeme with ⟨operand, rest, h⟩ | ⟨missing, rest, h⟩
      · trivial
      · exact fun hlength => absurd hlength (Nat.ne_of_lt (Nat.lt_succ_of_le h))

/-- A repeated part leaves no more than it is given. -/
theorem moreOperands_missesOperandUnread {n : Nat} {rest : List Token} {p : Place}
    {reply : Reply Expr n} {read : Expr → List Token → Prop} (hrest : rest.length < ts.length)
    (h : reply.Says read (p.Halts rest)) :
    reply.Says (fun _ _ => True) (MissesOperandUnread ts) := by
  refine h.mono (fun _ _ _ => trivial) fun missing rest' hhalts hlength => ?_
  exact absurd hlength (Nat.ne_of_lt (Nat.lt_of_le_of_lt hhalts.length_le hrest))

theorem term_missesOperandUnread (ts : List Token) :
    (term ts).Says (fun _ _ => True) (MissesOperandUnread ts) := by
  rw [term]
  refine (unary_missesOperandUnread ts).elim (fun _ _ _ h => h) fun left rest h _ => ?_
  rw [Reply.says_widen]
  exact moreOperands_missesOperandUnread h ((rulesSay rest).moreFactors left ⟨.print, 0⟩)

theorem expression_missesOperandUnread (ts : List Token) :
    (expression ts).Says (fun _ _ => True) (MissesOperandUnread ts) := by
  have hends := (rulesSay ts).term "" ⟨.print, 0⟩
  have hterm := term_missesOperandUnread ts
  rw [Reply.says_following] at hends
  rw [expression]
  revert hends hterm
  rcases term ts with ⟨left, rest, h⟩ | ⟨missing, rest, h⟩
  · rintro ⟨d, -, -, hends⟩ -
    rw [Reply.says_widen]
    exact moreOperands_missesOperandUnread h ((rulesSay rest).moreTerms left ⟨.print, 0⟩ hends)
  · exact fun _ hterm => hterm

/-- Of what the rule may be missing, `Reply.following` puts other words for a missing operand, which
is what it is missing as long as it has read nothing. All that goes wrong behind a token of its own
is told as it is. -/
def ReplacesOperandOnly (rule : (ts : List Token) → Reply Expr ts.length) : Prop :=
  ∀ ts missing rest h, rule ts = .stuck missing rest h →
    (rest = ts ↔ missing = .operand) ∧
    ∀ before, (rule ts).following before =
      .stuck (if missing = .operand then .operandAfter before else missing) rest h

theorem Place.wanted_ne_operand (p : Place) : p.wanted ≠ .operand := by
  rcases p with - | - | ⟨signable, before, f⟩ | ⟨⟨_ | _, _ | depth⟩⟩ <;> exact nofun

theorem replacesOperandOnly_of_says {rule : (ts : List Token) → Reply Expr ts.length}
    {read : List Token → Expr → List Token → Prop} {p : Place}
    (hunread : ∀ ts, (rule ts).Says (fun _ _ => True) (MissesOperandUnread ts))
    (h : ∀ ts, ((rule ts).following "").Says (read ts) (p.Halts ts)) :
    ReplacesOperandOnly rule := by
  intro ts missing rest hle hstuck
  have hunread := hunread ts
  have hhalts := h ts
  rw [Reply.says_following] at hhalts
  rw [hstuck] at hunread hhalts
  obtain ⟨pre, q, rfl, -, -, hwanted⟩ := hhalts
  -- the place that reading halts at does not want a mere operand, so it was renamed
  have hlength : rest.length = (pre ++ rest).length ↔ missing = .operand := by
    refine ⟨hunread, fun hmissing => ?_⟩
    by_contra hlength
    rw [if_neg hlength, hmissing] at hwanted
    exact q.wanted_ne_operand hwanted
  constructor
  · rw [← hlength]
    refine ⟨congrArg List.length, fun hlength => ?_⟩
    exact List.IsSuffix.eq_of_length ⟨pre, rfl⟩ hlength
  · intro before
    rw [hstuck, Reply.following]
    simp only [hlength]

theorem replacesOperandOnly :
    ∀ rule ∈ [expression, term, unary, atom], ReplacesOperandOnly rule := by
  simp only [List.forall_mem_cons]
  refine ⟨?_, ?_, ?_, ?_, List.forall_mem_nil _⟩
  · exact replacesOperandOnly_of_says expression_missesOperandUnread
      fun ts => (rulesSay ts).expression "" ⟨.print, 0⟩
  · exact replacesOperandOnly_of_says term_missesOperandUnread
      fun ts => (rulesSay ts).term "" ⟨.print, 0⟩
  · exact replacesOperandOnly_of_says unary_missesOperandUnread
      fun ts => (rulesSay ts).unary "" ⟨.print, 0⟩
  · exact replacesOperandOnly_of_says atom_missesOperandUnread
      fun ts => (rulesSay ts).atom false "" ⟨.print, 0⟩ nofun

end Replaced

end Grammar

open Grammar

/-! ## Syntax errors -/

theorem IsLexeme.ofList_eq {kind : Token.Kind} {text : List Char} (h : IsLexeme kind text)
    {spelling : String} (hspelling : spelling ∈ kind.spelling?) : .ofList text = spelling := by
  rcases h with h | h | h | h <;> cases h <;> cases hspelling <;> rfl

/-- The tokens of a source are spelled as their kinds are. -/
theorem isSpelled_of_scan {name source : String} {ts : List Token} (h : scan name source = .ok ts)
    {t : Token} (ht : t ∈ ts) : t.IsSpelled := by
  obtain rfl | ⟨before, text, after, -, hof⟩ := (scanFrom_eq_iff_tokenised.mp h).exists_isOf rfl ht
  · exact nofun
  · intro spelling hspelling
    rw [hof.lexeme_eq, hof.isLexeme.ofList_eq hspelling]

/-- The tenth character tells the messages apart from that of a missing operand. -/
theorem expectedBehind_tenth (line : List Token) :
    (expectedBehind line).toList[9]? = some '\'' ∨ (expectedBehind line).toList[9]? = some 'e' := by
  rw [expectedBehind]
  split
  · exact .inl rfl
  · split
    · refine .inr ?_
      rw [String.append_assoc, String.toList_append, List.getElem?_append_left (by decide)]
      rfl
    · refine .inl ?_
      split
      · rfl
      · split
        · rfl
        · split <;> rfl

/-- No message begins as that of a missing operand does. -/
theorem expectedBehind_append_ne (line : List Token) (more more' : String) :
    expectedBehind line ++ more ≠ "Expected int, float, string, identifier or '('" ++ more' := by
  intro h
  have htenth := expectedBehind_tenth line
  have hlength : 9 < (expectedBehind line).toList.length := by
    obtain htenth | htenth := htenth
    · exact (List.getElem?_eq_some_iff.mp htenth).1
    · exact (List.getElem?_eq_some_iff.mp htenth).1
  have hline : (expectedBehind line ++ more).toList[9]? = (expectedBehind line).toList[9]? := by
    rw [String.toList_append, List.getElem?_append_left hlength]
  rw [← hline, h, String.toList_append, List.getElem?_append_left (by decide)] at htenth
  revert htenth
  decide

/-- The kinds of token that an operand may end with. -/
def operandEnds : List Token.Kind :=
  [.integer, .float, .string, .identifier, .rightParen]

/-- Reading `ts` as a program stops behind `read` and in front of `misfit`, and the diagnostic says
so in words that the tokens before `misfit` on its line give. -/
structure TellsContext (ts : List Token) (d : Diagnostic) (read : List Token) (misfit : Token) :
    Prop where
  stands : ∃ behind, ts = read ++ misfit :: behind
  /-- `read` was taken, no more and no less. -/
  read_append_ahead : read ++ (Reader.ofTokens ts).readProgram.2.ahead = (Reader.ofTokens ts).ahead
  span_eq : d.span = misfit.span
  message_eq : d.message = expectedBehind (lastTokens read) ++ ", found " ++ misfit.named
  /-- What does not ask for an operand ends one. -/
  last_kind : ∀ last ∈ (lastTokens read).getLast?,
    last.kind ∈ operandAskers ∨ last.kind ∈ operandEnds
  head_kind : ∀ first ∈ (lastTokens read).head?, first.kind = .say ∨ first.kind = .identifier
  /-- What the rule of an operand is missing is not told. -/
  message_ne : ∀ more, d.message ≠ "Expected int, float, string, identifier or '('" ++ more

theorem mem_operandAskers_or_mem_operandEnds {kind : Token.Kind} (hnewline : kind ≠ .newline)
    (hend : kind ≠ .endOfInput) : kind ∈ operandAskers ∨ kind ∈ operandEnds := by
  cases kind <;> simp [operandAskers, operandEnds] at hnewline hend ⊢

theorem kind_of_mem_lastTokens {p q : Place} {read : List Token} (h : p.reach read = some q)
    {t : Token} (ht : t ∈ lastTokens read) : t.kind ∈ operandAskers ∨ t.kind ∈ operandEnds := by
  have hnewline : t.kind ≠ .newline := by simpa using List.mem_rtakeWhile_imp ht
  have hmem : t ∈ read := (List.rtakeWhile_suffix _ _).mem ht
  exact mem_operandAskers_or_mem_operandEnds hnewline (Place.kind_ne_of_reach h t hmem)

/-- What a place wants is told in words that the tokens before it give. -/
theorem SyntaxFault.message_wanted {read : List Token} {p : Place}
    (h : p.IsBehind (lastTokens read)) (misfit : Token) :
    (SyntaxFault.mk p.wanted misfit.found).message =
      expectedBehind (lastTokens read) ++ (", found " ++ misfit.named) := by
  rw [← h.message_wanted, ← misfit.describe_found, ← String.append_assoc]
  rfl

/-- A syntax error is told in the words that the tokens before it on its line give, and nothing that
goes wrong inside of an operand is lost when a rule puts other words for a missing one. -/
theorem syntax_error_by_context {name source : String} {ts : List Token}
    {fault : Located SyntaxFault} (hscan : scan name source = .ok ts)
    (hparse : parse ts = .error fault) :
    (∃ read misfit, TellsContext ts (.ofFault (fault.map .parsing)) read misfit) ∧
    ∀ rule ∈ [expression, term, unary, atom], ReplacesOperandOnly rule := by
  refine ⟨?_, replacesOperandOnly⟩
  obtain ⟨ahead, rfl, hahead⟩ := scan_ok hscan
  obtain ⟨missing, rest, hstatements, rfl⟩ := parse_eq_error_iff.mp hparse
  have hleft : (Reader.ofTokens (ahead ++ [.atEnd (endOfText name source)])).readProgram.2.ahead =
      rest := by
    rw [Reader.readProgram, hstatements]
  have hreader : Reader.ofTokens (ahead ++ [.atEnd (endOfText name source)]) =
      ⟨ahead, .atEnd (endOfText name source)⟩ := Reader.ofTokens_concat hahead rfl
  rw [hreader] at hstatements
  obtain ⟨read, p, rfl, hread, -, rfl⟩ := statements_error_iff.mp hstatements
  have hspelled : ∀ t ∈ read, t.IsSpelled := fun t ht =>
    isSpelled_of_scan hscan (List.mem_append_left _ (List.mem_append_left _ ht))
  have hbehind := Place.isBehind_of_reach hspelled hread
  have hmessage := SyntaxFault.message_wanted hbehind
  refine ⟨read, rest.headD (.atEnd (endOfText name source)), {
    stands := ?_
    read_append_ahead := by rw [hleft, hreader]
    span_eq := by rw [hreader]; rfl
    message_eq := by rw [hreader, String.append_assoc]; exact hmessage _
    last_kind := fun last hlast => kind_of_mem_lastTokens hread (List.mem_of_getLast? hlast)
    head_kind := hbehind.head_kind
    message_ne := fun more => ?_ }⟩
  · cases rest with
    | nil => exact ⟨[], by simp⟩
    | cons misfit rest => exact ⟨rest ++ [.atEnd (endOfText name source)], by simp⟩
  · rw [hreader]
    exact (hmessage _).trans_ne (expectedBehind_append_ne _ _ _)

/-- A comma does not fit inside of parentheses, which are to be closed first. -/
theorem syntax_error_by_context_comma :
    ∃ ts fault, scan "a.peng" "say 1\nx is (2 * (3, 4)" = .ok ts ∧ parse ts = .error fault ∧
      (∃ read misfit, TellsContext ts (.ofFault (fault.map .parsing)) read misfit) ∧
      ∀ rule ∈ [expression, term, unary, atom], ReplacesOperandOnly rule := by
  have hstops : ((scan "a.peng" "say 1\nx is (2 * (3, 4)").toOption.map
      fun ts => (parse ts).isOk) = some false := by
    decide +kernel
  cases hscan : scan "a.peng" "say 1\nx is (2 * (3, 4)" with
  | error fault =>
    rw [hscan] at hstops
    cases hstops
  | ok ts =>
    rw [hscan] at hstops
    cases hparse : parse ts with
    | ok program =>
      rw [Except.toOption, Option.map_some, hparse] at hstops
      cases hstops
    | error fault => exact ⟨ts, fault, rfl, hparse, syntax_error_by_context hscan hparse⟩

end Peng
