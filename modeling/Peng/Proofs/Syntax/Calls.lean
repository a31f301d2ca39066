import Peng.Proofs.Source.Turns
import Peng.Proofs.Syntax.Resumption

/-!
# Calls between rules

The rules of the grammar call each other and themselves, and most of them take no token before they
do. `Call.Makes` says which calls a call makes, and `Call.replyFrom` what a rule does with the
answers. That no other call has a part in what a rule replies is `Call.replyFrom_eq_reply`.

The main statement is `scanning_and_parsing_progress`. An expression is entered again behind an
opening parenthesis only, a turn of a loop takes an operator and an operand, and a rule that is
entered again below itself has fewer tokens left; so calls come to an end, whatever the tokens are.

## Shape of the proof

A call has no more tokens left than the one that makes it, and where it has as many it is of a lower
rank (`Call.Makes.below`). What is said about calls far below one another follows, as `Call.Below`
is transitive and well-founded. Answers to calls are plain: nothing in their type says how much they
leave.
-/

namespace Peng

/-! ## Readings -/

/-- What was read or was wanted, and the tokens that are left. -/
abbrev Reading (α : Type) : Type :=
  Except (Wanted × List Token) (α × List Token)

namespace Reading

variable {α β : Type}

/-- The reading of an operand from `ts` on that must follow what is written `before`. -/
def following (before : String) (ts : List Token) (r : Reading α) : Reading α :=
  r.mapError fun (wanted, rest) =>
    (if rest.length = ts.length then .operandAfter before else wanted, rest)

theorem eq_ok_of_following {before : String} {ts rest : List Token} {r : Reading α} {value : α}
    (h : r.following before ts = .ok (value, rest)) : r = .ok (value, rest) := by
  cases r with
  | error failure => cases h
  | ok reading => exact h

/-- It matters only how it goes on behind what was read. -/
theorem bind_congr {r : Reading α} {next next' : α × List Token → Reading β}
    (h : ∀ value rest, r = .ok (value, rest) → next (value, rest) = next' (value, rest)) :
    r.bind next = r.bind next' := by
  cases r with
  | error failure => rfl
  | ok reading => exact h reading.1 reading.2 rfl

end Reading

namespace Reply

variable {α : Type} {n m : Nat}

/-- The reply without its bound. -/
def reading : Reply α n → Reading α
  | .read value rest _ => .ok (value, rest)
  | .stuck wanted rest _ => .error (wanted, rest)

/-- Nothing was read. -/
def IsStuck : Reply α n → Prop
  | .read _ _ _ => False
  | .stuck _ _ _ => True

@[simp] theorem reading_widen (h : n ≤ m) (reply : Reply α n) :
    (reply.widen h).reading = reply.reading := by
  cases reply <;> rfl

theorem reading_following {ts : List Token} (before : String) (reply : Reply α ts.length) :
    (reply.following before).reading = reply.reading.following before ts := by
  cases reply <;> rfl

/-- What is read takes tokens from the front of those that are there. -/
theorem exists_taken {reply : Reply α n} {value : α} {ts rest : List Token}
    (h : reply.reading = .ok (value, rest)) (hsuffix : reply.rest <:+ ts) (hn : n ≤ ts.length) :
    ∃ taken ≠ [], taken ++ rest = ts := by
  cases reply with
  | read value' rest' shorter =>
    cases h
    obtain ⟨taken, rfl⟩ := hsuffix
    refine ⟨taken, ?_, rfl⟩
    rintro rfl
    exact absurd hn (Nat.not_le_of_lt shorter)
  | stuck => cases h

end Reply

namespace Grammar

/-! ## Calls -/

/-- A rule, and what it is applied to. -/
inductive Call where
  | expression (ts : List Token)
  | moreTerms (left : Expr) (ts : List Token)
  | term (ts : List Token)
  | moreFactors (left : Expr) (ts : List Token)
  | unary (ts : List Token)
  | atom (ts : List Token)
  | moreValues (ts : List Token)
  | print (ts : List Token)
  | assignment (name : Token) (ts : List Token)
  | statement (t : Token) (ts : List Token)
  | statements (ts : List Token)

namespace Call

/-- What the rule reads. -/
abbrev Value : Call → Type
  | expression _ | moreTerms _ _ | term _ | moreFactors _ _ | unary _ | atom _ => Expr
  | moreValues _ => List Expr
  | print _ | assignment _ _ | statement _ _ => Statement
  | statements _ => List Statement

/-- What the rule replies. All statements together leave nothing. -/
def reply : (c : Call) → Reading c.Value
  | expression ts => (Grammar.expression ts).reading
  | moreTerms left ts => (Grammar.moreTerms left ts).reading
  | term ts => (Grammar.term ts).reading
  | moreFactors left ts => (Grammar.moreFactors left ts).reading
  | unary ts => (Grammar.unary ts).reading
  | atom ts => (Grammar.atom ts).reading
  | moreValues ts => (Grammar.moreValues ts).reading
  | print ts => (Grammar.print ts).reading
  | assignment name ts => (Grammar.assignment name ts).reading
  | statement t ts => (Grammar.statement t ts).reading
  | statements ts => (Grammar.statements ts).map (·, [])

/-- The tokens that are left before the end of the input when the rule is called. -/
def ahead : Call → List Token
  | expression ts | moreTerms _ ts | term ts | moreFactors _ ts | unary ts | atom ts
  | moreValues ts | print ts | assignment _ ts | statements ts => ts
  | statement t ts => t :: ts

/-- Where a call leaves all tokens to another one, that is one of a lower rank. -/
def rank : Call → Nat
  | atom _ | moreTerms _ _ | moreFactors _ _ | moreValues _ | assignment _ _ | statement _ _ => 0
  | unary _ | statements _ => 1
  | term _ => 2
  | expression _ => 3
  | print _ => 4

/-- What a rule replies if the calls that it makes are answered so. -/
def replyFrom (answer : (c : Call) → Reading c.Value) : (c : Call) → Reading c.Value
  | expression ts =>
    (answer (term ts)).bind fun (left, rest) => answer (moreTerms left rest)
  | moreTerms left [] => .ok (left, [])
  | moreTerms left (t :: ts) =>
    match t.kind.sum? with
    | none => .ok (left, t :: ts)
    | some op =>
      ((answer (term ts)).following t.lexeme ts).bind fun (right, rest) =>
        answer (moreTerms (left.join op right) rest)
  | term ts =>
    (answer (unary ts)).bind fun (left, rest) => answer (moreFactors left rest)
  | moreFactors left [] => .ok (left, [])
  | moreFactors left (t :: ts) =>
    match t.kind.product? with
    | none => .ok (left, t :: ts)
    | some op =>
      ((answer (unary ts)).following t.lexeme ts).bind fun (right, rest) =>
        answer (moreFactors (left.join op right) rest)
  | unary [] => answer (atom [])
  | unary (t :: ts) =>
    match t.kind.sign? with
    | none => answer (atom (t :: ts))
    | some sign =>
      ((answer (atom ts)).following t.lexeme ts).bind fun (operand, rest) =>
        .ok (.signed sign operand (t.span.upTo operand.span), rest)
  | atom [] => .error (.operand, [])
  | atom (t :: ts) =>
    if t.kind = .leftParen then
      ((answer (expression ts)).following "(" ts).bind fun
        | (_, []) => .error (.closingParen, [])
        | (inner, close :: rest) =>
          if close.kind = .rightParen then .ok (inner, rest)
          else .error (.closingParen, close :: rest)
    else
      match t.leaf? with
      | some leaf => .ok (leaf, ts)
      | none => .error (.operand, t :: ts)
  | moreValues [] => .ok ([], [])
  | moreValues (t :: ts) =>
    if t.kind = .comma then
      ((answer (expression ts)).following "," ts).bind fun (value, rest) =>
        (answer (moreValues rest)).bind fun (values, rest') => .ok (value :: values, rest')
    else .ok ([], t :: ts)
  | print ts =>
    ((answer (expression ts)).following "say" ts).bind fun (first, rest) =>
      (answer (moreValues rest)).bind fun (more, rest') =>
        (ending .endOfPrint rest').reading.bind fun (_, rest'') =>
          .ok (printOf first more, rest'')
  | assignment _ [] => .error (.assignment, [])
  | assignment name (t :: ts) =>
    if t.kind = .is then
      ((answer (expression ts)).following "is" ts).bind fun (value, rest) =>
        (ending .endOfAssignment rest).reading.bind fun (_, rest') =>
          .ok (.assign name.lexeme value (name.span.upTo value.span), rest')
    else .error (.assignment, t :: ts)
  | statement t ts =>
    if t.kind = .say then answer (print ts)
    else if t.kind = .identifier then answer (assignment t ts)
    else .error (.statement, t :: ts)
  | statements [] => .ok ([], [])
  | statements (t :: ts) =>
    if t.kind = .newline then answer (statements ts)
    else
      (answer (statement t ts)).bind fun (first, rest) =>
        (answer (statements rest)).bind fun (more, rest') => .ok (first :: more, rest')

/-- A call makes another one, as it comes to it when the calls that it makes before reply as they
do. -/
inductive Makes : Call → Call → Prop where
  | expression_term {ts : List Token} : Makes (expression ts) (term ts)
  | expression_moreTerms {ts rest : List Token} {left : Expr}
      (h : (term ts).reply = .ok (left, rest)) : Makes (expression ts) (moreTerms left rest)
  | moreTerms_term {left : Expr} {t : Token} {ts : List Token} {op : BinaryOp}
      (hop : t.kind.sum? = some op) : Makes (moreTerms left (t :: ts)) (term ts)
  | moreTerms_moreTerms {left right : Expr} {t : Token} {ts rest : List Token} {op : BinaryOp}
      (hop : t.kind.sum? = some op) (h : (term ts).reply = .ok (right, rest)) :
      Makes (moreTerms left (t :: ts)) (moreTerms (left.join op right) rest)
  | term_unary {ts : List Token} : Makes (term ts) (unary ts)
  | term_moreFactors {ts rest : List Token} {left : Expr}
      (h : (unary ts).reply = .ok (left, rest)) : Makes (term ts) (moreFactors left rest)
  | moreFactors_unary {left : Expr} {t : Token} {ts : List Token} {op : BinaryOp}
      (hop : t.kind.product? = some op) : Makes (moreFactors left (t :: ts)) (unary ts)
  | moreFactors_moreFactors {left right : Expr} {t : Token} {ts rest : List Token} {op : BinaryOp}
      (hop : t.kind.product? = some op) (h : (unary ts).reply = .ok (right, rest)) :
      Makes (moreFactors left (t :: ts)) (moreFactors (left.join op right) rest)
  | unary_atom {ts : List Token} (h : ∀ t ∈ ts.head?, t.kind.sign? = none) :
      Makes (unary ts) (atom ts)
  | signed_atom {t : Token} {ts : List Token} {sign : Sign} (hsign : t.kind.sign? = some sign) :
      Makes (unary (t :: ts)) (atom ts)
  | atom_expression {t : Token} {ts : List Token} (ht : t.kind = .leftParen) :
      Makes (atom (t :: ts)) (expression ts)
  | moreValues_expression {t : Token} {ts : List Token} (ht : t.kind = .comma) :
      Makes (moreValues (t :: ts)) (expression ts)
  | moreValues_moreValues {t : Token} {ts rest : List Token} {value : Expr} (ht : t.kind = .comma)
      (h : (expression ts).reply = .ok (value, rest)) :
      Makes (moreValues (t :: ts)) (moreValues rest)
  | print_expression {ts : List Token} : Makes (print ts) (expression ts)
  | print_moreValues {ts rest : List Token} {first : Expr}
      (h : (expression ts).reply = .ok (first, rest)) : Makes (print ts) (moreValues rest)
  | assignment_expression {name t : Token} {ts : List Token} (ht : t.kind = .is) :
      Makes (assignment name (t :: ts)) (expression ts)
  | statement_print {t : Token} {ts : List Token} (ht : t.kind = .say) :
      Makes (statement t ts) (print ts)
  | statement_assignment {t : Token} {ts : List Token} (ht : t.kind = .identifier) :
      Makes (statement t ts) (assignment t ts)
  | skip_newline {t : Token} {ts : List Token} (ht : t.kind = .newline) :
      Makes (statements (t :: ts)) (statements ts)
  | statements_statement {t : Token} {ts : List Token} (ht : t.kind ≠ .newline) :
      Makes (statements (t :: ts)) (statement t ts)
  | statements_statements {t : Token} {ts rest : List Token} {first : Statement}
      (ht : t.kind ≠ .newline) (h : (statement t ts).reply = .ok (first, rest)) :
      Makes (statements (t :: ts)) (statements rest)

variable {c d : Call}

/-! ## A call and the calls that it makes -/

section Rules

variable (ts : List Token)

theorem replyFrom_expression :
    replyFrom reply (expression ts) = (Grammar.expression ts).reading := by
  rw [Grammar.expression]
  simp only [replyFrom, reply]
  cases Grammar.term ts with
  | read left rest h => exact (Reply.reading_widen _ _).symm
  | stuck => rfl

theorem replyFrom_moreTerms (left : Expr) :
    replyFrom reply (moreTerms left ts) = (Grammar.moreTerms left ts).reading := by
  cases ts with
  | nil =>
    rw [Grammar.moreTerms]
    rfl
  | cons t ts =>
    rw [Grammar.moreTerms]
    simp only [replyFrom, reply, ← Reply.reading_following]
    cases t.kind.sum? with
    | none => rfl
    | some op =>
      cases (Grammar.term ts).following t.lexeme with
      | read right rest h => exact (Reply.reading_widen _ _).symm
      | stuck => rfl

theorem replyFrom_term : replyFrom reply (term ts) = (Grammar.term ts).reading := by
  rw [Grammar.term]
  simp only [replyFrom, reply]
  cases Grammar.unary ts with
  | read left rest h => exact (Reply.reading_widen _ _).symm
  | stuck => rfl

theorem replyFrom_moreFactors (left : Expr) :
    replyFrom reply (moreFactors left ts) = (Grammar.moreFactors left ts).reading := by
  cases ts with
  | nil =>
    rw [Grammar.moreFactors]
    rfl
  | cons t ts =>
    rw [Grammar.moreFactors]
    simp only [replyFrom, reply, ← Reply.reading_following]
    cases t.kind.product? with
    | none => rfl
    | some op =>
      cases (Grammar.unary ts).following t.lexeme with
      | read right rest h => exact (Reply.reading_widen _ _).symm
      | stuck => rfl

theorem replyFrom_unary : replyFrom reply (unary ts) = (Grammar.unary ts).reading := by
  cases ts with
  | nil =>
    rw [Grammar.unary]
    rfl
  | cons t ts =>
    rw [Grammar.unary]
    simp only [replyFrom, reply, ← Reply.reading_following]
    cases t.kind.sign? with
    | none => rfl
    | some sign => cases (Grammar.atom ts).following t.lexeme <;> rfl

theorem replyFrom_atom : replyFrom reply (atom ts) = (Grammar.atom ts).reading := by
  cases ts with
  | nil =>
    rw [Grammar.atom]
    rfl
  | cons t ts =>
    rw [Grammar.atom]
    simp only [replyFrom, reply, ← Reply.reading_following]
    split
    case isTrue ht =>
      rcases (Grammar.expression ts).following "(" with ⟨inner, _ | ⟨close, rest⟩, h⟩ | ⟨_, _, _⟩
      · rfl
      · dsimp only [Reply.reading, Except.bind]
        split <;> rfl
      · rfl
    case isFalse ht => cases t.leaf? <;> rfl

theorem replyFrom_moreValues :
    replyFrom reply (moreValues ts) = (Grammar.moreValues ts).reading := by
  cases ts with
  | nil =>
    rw [Grammar.moreValues]
    rfl
  | cons t ts =>
    rw [Grammar.moreValues]
    simp only [replyFrom, reply, ← Reply.reading_following]
    split
    case isTrue ht =>
      rcases (Grammar.expression ts).following "," with ⟨value, rest, h⟩ | ⟨_, _, _⟩
      · dsimp only [Reply.reading, Except.bind]
        cases Grammar.moreValues rest <;> rfl
      · rfl
    case isFalse ht => rfl

theorem replyFrom_print : replyFrom reply (print ts) = (Grammar.print ts).reading := by
  rw [Grammar.print]
  simp only [replyFrom, reply, ← Reply.reading_following]
  rcases (Grammar.expression ts).following "say" with ⟨first, rest, h⟩ | ⟨_, _, _⟩
  · dsimp only [Reply.reading, Except.bind]
    rcases Grammar.moreValues rest with ⟨more, rest', h'⟩ | ⟨_, _, _⟩
    · dsimp only
      cases ending .endOfPrint rest' <;> rfl
    · rfl
  · rfl

theorem replyFrom_assignment (name : Token) :
    replyFrom reply (assignment name ts) = (Grammar.assignment name ts).reading := by
  cases ts with
  | nil =>
    rw [Grammar.assignment]
    rfl
  | cons t ts =>
    rw [Grammar.assignment]
    simp only [replyFrom, reply, ← Reply.reading_following]
    split
    case isTrue ht =>
      rcases (Grammar.expression ts).following "is" with ⟨value, rest, h⟩ | ⟨_, _, _⟩
      · dsimp only [Reply.reading, Except.bind]
        cases ending .endOfAssignment rest <;> rfl
      · rfl
    case isFalse ht => rfl

theorem replyFrom_statement (t : Token) :
    replyFrom reply (statement t ts) = (Grammar.statement t ts).reading := by
  fun_cases Grammar.statement t ts with
  | case1 ht => exact if_pos ht
  | case2 ht => exact (if_neg (by simp [ht])).trans (if_pos ht)
  | case3 hsay hidentifier => exact (if_neg hsay).trans (if_neg hidentifier)

theorem replyFrom_statements :
    replyFrom reply (statements ts) = (Grammar.statements ts).map (·, []) := by
  cases ts with
  | nil =>
    rw [Grammar.statements]
    rfl
  | cons t ts =>
    rw [Grammar.statements]
    simp only [replyFrom, reply]
    split
    case isTrue ht => rfl
    case isFalse ht =>
      rcases Grammar.statement t ts with ⟨first, rest, h⟩ | ⟨_, _, _⟩
      · dsimp only [Reply.reading, Except.bind]
        cases Grammar.statements rest <;> rfl
      · rfl

end Rules

/-- The rules reply what they make of their own replies. -/
theorem replyFrom_reply (c : Call) : replyFrom reply c = c.reply := by
  cases c with
  | expression ts => exact replyFrom_expression ts
  | moreTerms left ts => exact replyFrom_moreTerms ts left
  | term ts => exact replyFrom_term ts
  | moreFactors left ts => exact replyFrom_moreFactors ts left
  | unary ts => exact replyFrom_unary ts
  | atom ts => exact replyFrom_atom ts
  | moreValues ts => exact replyFrom_moreValues ts
  | print ts => exact replyFrom_print ts
  | assignment name ts => exact replyFrom_assignment ts name
  | statement t ts => exact replyFrom_statement ts t
  | statements ts => exact replyFrom_statements ts

/-- Of all answers, a rule looks at those to the calls that it makes. -/
theorem replyFrom_congr {answer : (c : Call) → Reading c.Value}
    (h : ∀ d, Makes c d → answer d = d.reply) : replyFrom answer c = replyFrom reply c := by
  -- call by call in the order of the rule: what a later call is applied to is known from the reply
  -- to an earlier one, and `Reading.bind_congr` hands that on
  cases c with
  | expression ts =>
    simp only [replyFrom]
    rw [h _ .expression_term]
    refine Reading.bind_congr fun left rest hleft => ?_
    exact h _ (.expression_moreTerms hleft)
  | moreTerms left ts =>
    cases ts with
    | nil => rfl
    | cons t ts =>
      simp only [replyFrom]
      cases hop : t.kind.sum? with
      | none => rfl
      | some op =>
        rw [h _ (.moreTerms_term hop)]
        refine Reading.bind_congr fun right rest hright => ?_
        exact h _ (.moreTerms_moreTerms hop (Reading.eq_ok_of_following hright))
  | term ts =>
    simp only [replyFrom]
    rw [h _ .term_unary]
    refine Reading.bind_congr fun left rest hleft => ?_
    exact h _ (.term_moreFactors hleft)
  | moreFactors left ts =>
    cases ts with
    | nil => rfl
    | cons t ts =>
      simp only [replyFrom]
      cases hop : t.kind.product? with
      | none => rfl
      | some op =>
        rw [h _ (.moreFactors_unary hop)]
        refine Reading.bind_congr fun right rest hright => ?_
        exact h _ (.moreFactors_moreFactors hop (Reading.eq_ok_of_following hright))
  | unary ts =>
    cases ts with
    | nil => exact h _ (.unary_atom (by simp))
    | cons t ts =>
      simp only [replyFrom]
      cases hsign : t.kind.sign? with
      | none => exact h _ (.unary_atom (by simpa using hsign))
      | some sign => rw [h _ (.signed_atom hsign)]
  | atom ts =>
    cases ts with
    | nil => rfl
    | cons t ts =>
      simp only [replyFrom]
      refine ite_congr rfl (fun ht => ?_) fun _ => rfl
      rw [h _ (.atom_expression ht)]
  | moreValues ts =>
    cases ts with
    | nil => rfl
    | cons t ts =>
      simp only [replyFrom]
      refine ite_congr rfl (fun ht => ?_) fun _ => rfl
      rw [h _ (.moreValues_expression ht)]
      refine Reading.bind_congr fun value rest hvalue => ?_
      rw [h _ (.moreValues_moreValues ht (Reading.eq_ok_of_following hvalue))]
  | print ts =>
    simp only [replyFrom]
    rw [h _ .print_expression]
    refine Reading.bind_congr fun first rest hfirst => ?_
    rw [h _ (.print_moreValues (Reading.eq_ok_of_following hfirst))]
  | assignment name ts =>
    cases ts with
    | nil => rfl
    | cons t ts =>
      simp only [replyFrom]
      refine ite_congr rfl (fun ht => ?_) fun _ => rfl
      rw [h _ (.assignment_expression ht)]
  | statement t ts =>
    simp only [replyFrom]
    refine ite_congr rfl (fun ht => h _ (.statement_print ht)) fun _ => ?_
    exact ite_congr rfl (fun ht => h _ (.statement_assignment ht)) fun _ => rfl
  | statements ts =>
    cases ts with
    | nil => rfl
    | cons t ts =>
      simp only [replyFrom]
      refine ite_congr rfl (fun ht => h _ (.skip_newline ht)) fun ht => ?_
      rw [h _ (.statements_statement ht)]
      refine Reading.bind_congr fun first rest hfirst => ?_
      rw [h _ (.statements_statements ht hfirst)]

/-- A rule replies what it makes of the answers to its calls. -/
theorem replyFrom_eq_reply {answer : (c : Call) → Reading c.Value}
    (h : ∀ d, Makes c d → answer d = d.reply) : replyFrom answer c = c.reply :=
  (replyFrom_congr h).trans (replyFrom_reply c)

/-! ## Calls have less and less ahead -/

/-- The tokens that are left are an end of those of the other call, and are fewer where the rank is
not lower. -/
structure Below (d c : Call) : Prop where
  suffix : d.ahead <:+ c.ahead
  descends : d.ahead.length < c.ahead.length ∨ d.rank < c.rank

theorem Below.trans {e : Call} (h : e.Below d) (h' : d.Below c) : e.Below c := by
  refine ⟨h.suffix.trans h'.suffix, ?_⟩
  have hle := h.suffix.length_le
  have hle' := h'.suffix.length_le
  have hdescends := h.descends
  have hdescends' := h'.descends
  omega

theorem rank_le (c : Call) : c.rank ≤ 4 := by
  cases c <;> simp [rank]

theorem wellFounded_below : WellFounded Below := by
  -- one token counts for more than all ranks
  refine Subrelation.wf ?_ (measure fun c : Call => 5 * c.ahead.length + c.rank).wf
  intro d c h
  have hle := h.suffix.length_le
  have hdescends := h.descends
  have hrank := d.rank_le
  show 5 * d.ahead.length + d.rank < 5 * c.ahead.length + c.rank
  omega

/-- Behind the first tokens less is left. -/
theorem below_of_append {taken : List Token} (hne : taken ≠ []) (h : taken ++ d.ahead = c.ahead) :
    d.Below c := by
  refine ⟨⟨taken, h⟩, .inl ?_⟩
  have hpos := List.length_pos_iff.mpr hne
  rw [← h, List.length_append]
  omega

/-- So it is behind what another rule has read. -/
theorem below_of_read {α : Type} {n : Nat} {reply : Reply α n} {value : α}
    (h : reply.reading = .ok (value, d.ahead)) (hsuffix : reply.rest <:+ c.ahead)
    (hn : n ≤ c.ahead.length) : d.Below c := by
  obtain ⟨taken, hne, htaken⟩ := Reply.exists_taken h hsuffix hn
  exact below_of_append hne htaken

/-- A call that leaves everything to a lower one. -/
theorem below_of_rank_lt (h : d.ahead = c.ahead) (hrank : d.rank < c.rank) : d.Below c :=
  ⟨h ▸ List.suffix_rfl, .inr hrank⟩

/-- The turn of a loop from these tokens to those takes a token of one of the kinds, and at least
one more. -/
def TakesTurn (kinds : List Token.Kind) (ts us : List Token) : Prop :=
  ∃ t operand, t.kind ∈ kinds ∧ operand ≠ [] ∧ t :: operand ++ us = ts

theorem moreTerms_takes_turn {left left' : Expr} {ts us : List Token}
    (h : Makes (moreTerms left ts) (moreTerms left' us)) : TakesTurn [.plus, .minus] ts us := by
  cases h with
  | @moreTerms_moreTerms _ _ t ts _ op hop h =>
    obtain ⟨operand, hne, rfl⟩ := Reply.exists_taken h (rulesLeave ts).term (Nat.le_refl _)
    exact ⟨t, operand, List.mem_map_of_mem (f := Prod.fst) (mem_sums.mpr hop), hne, rfl⟩

theorem moreFactors_takes_turn {left left' : Expr} {ts us : List Token}
    (h : Makes (moreFactors left ts) (moreFactors left' us)) : TakesTurn [.star, .slash] ts us := by
  cases h with
  | @moreFactors_moreFactors _ _ t ts _ op hop h =>
    obtain ⟨operand, hne, rfl⟩ := Reply.exists_taken h (rulesLeave ts).unary (Nat.le_refl _)
    exact ⟨t, operand, List.mem_map_of_mem (f := Prod.fst) (mem_products.mpr hop), hne, rfl⟩

theorem moreValues_takes_turn {ts us : List Token} (h : Makes (moreValues ts) (moreValues us)) :
    TakesTurn [.comma] ts us := by
  cases h with
  | @moreValues_moreValues t ts _ _ ht h =>
    obtain ⟨operand, hne, rfl⟩ := Reply.exists_taken h (rulesLeave ts).expression (Nat.le_refl _)
    exact ⟨t, operand, List.mem_singleton.mpr ht, hne, rfl⟩

theorem TakesTurn.below {kinds : List Token.Kind} (h : TakesTurn kinds c.ahead d.ahead) :
    d.Below c := by
  obtain ⟨t, operand, -, -, h⟩ := h
  exact below_of_append (List.cons_ne_nil t operand) h

/-- What a call can do to what is left. -/
theorem Makes.below (hmakes : Makes c d) : d.Below c := by
  have h := hmakes
  cases h with
  | expression_term | term_unary | unary_atom | print_expression | statements_statement =>
    exact below_of_rank_lt rfl (by simp [rank])
  | moreTerms_term | moreFactors_unary | signed_atom | atom_expression | moreValues_expression
  | assignment_expression | statement_print | statement_assignment | skip_newline =>
    exact below_of_append (List.cons_ne_nil _ []) rfl
  | expression_moreTerms h => exact below_of_read h (rulesLeave _).term (Nat.le_refl _)
  | term_moreFactors h => exact below_of_read h (rulesLeave _).unary (Nat.le_refl _)
  | print_moreValues h => exact below_of_read h (rulesLeave _).expression (Nat.le_refl _)
  | statements_statements ht h => exact below_of_read h ((rulesLeave _).statement _) (Nat.le_refl _)
  | moreTerms_moreTerms => exact (moreTerms_takes_turn hmakes).below
  | moreFactors_moreFactors => exact (moreFactors_takes_turn hmakes).below
  | moreValues_moreValues => exact (moreValues_takes_turn hmakes).below

/-- So it is however many calls are between the two. -/
theorem below_of_transGen (h : Relation.TransGen Makes c d) : d.Below c := by
  induction h with
  | single h => exact h.below
  | tail _ h ih => exact h.below.trans ih

theorem suffix_of_reflTransGen (h : Relation.ReflTransGen Makes c d) : d.ahead <:+ c.ahead := by
  induction h with
  | refl => exact List.suffix_rfl
  | tail _ h ih => exact h.below.suffix.trans ih

theorem wellFounded_makes : WellFounded fun d c => Makes c d :=
  Subrelation.wf Makes.below wellFounded_below

/-- Only the rules themselves answer every call by what they make of the answers. -/
theorem eq_reply_of_replyFrom {answer : (c : Call) → Reading c.Value}
    (h : ∀ c, replyFrom answer c = answer c) (c : Call) : answer c = c.reply := by
  induction c using wellFounded_makes.induction with
  | _ c ih =>
    rw [← h c]
    exact replyFrom_eq_reply ih

/-! ## Entering an expression again -/

/-- The calls of which expressions are made up. -/
def IsOperand : Call → Prop
  | expression _ | moreTerms _ _ | term _ | moreFactors _ _ | unary _ | atom _ => True
  | moreValues _ | print _ | assignment _ _ | statement _ _ | statements _ => False

theorem IsOperand.of_makes (hc : c.IsOperand) (h : Makes c d) : d.IsOperand := by
  cases h <;> trivial

theorem IsOperand.of_reflTransGen (hc : c.IsOperand) (h : Relation.ReflTransGen Makes c d) :
    d.IsOperand := by
  induction h with
  | refl => exact hc
  | tail _ h ih => exact ih.of_makes h

/-- Of these calls, one in front of a parenthesis makes that of an expression. -/
theorem IsOperand.exists_leftParen {us : List Token} (hc : c.IsOperand)
    (h : Makes c (expression us)) : ∃ t, t.kind = .leftParen ∧ c = atom (t :: us) := by
  cases h with
  | @atom_expression t _ ht => exact ⟨t, ht, rfl⟩
  | moreValues_expression | print_expression | assignment_expression => exact hc.elim

/-- An expression below another one stands behind a parenthesis of it. -/
theorem exists_leftParen_of_transGen {ts us : List Token}
    (h : Relation.TransGen Makes (expression ts) (expression us)) :
    ∃ before t, t.kind = .leftParen ∧ before ++ t :: us = ts := by
  -- what enters the inner expression is itself made for the outer one, so it is an atom of it
  obtain ⟨c, hc, hlast⟩ := Relation.TransGen.tail'_iff.mp h
  have hoperand : c.IsOperand := IsOperand.of_reflTransGen (c := expression ts) trivial hc
  obtain ⟨t, ht, rfl⟩ := hoperand.exists_leftParen hlast
  obtain ⟨before, hbefore⟩ := suffix_of_reflTransGen hc
  exact ⟨before, t, ht, hbefore⟩

end Call

/-- The rules that read one operand. -/
def operandRules : List ((ts : List Token) → Reply Expr ts.length) :=
  [expression, term, unary, atom]

theorem operandRules_leave : ∀ rule ∈ operandRules, ∀ ts : List Token, (rule ts).rest <:+ ts := by
  simp only [operandRules, List.forall_mem_cons]
  exact ⟨fun ts => (rulesLeave ts).expression, fun ts => (rulesLeave ts).term,
    fun ts => (rulesLeave ts).unary, fun ts => (rulesLeave ts).atom,
    fun _ h => absurd h List.not_mem_nil⟩

end Grammar

/-! ## Places -/

namespace Reader

/-- The tokens that are left before the end of the input, from a place on. -/
def aheadFrom (ts : List Token) (k : Nat) : List Token :=
  (ofTokens ((held ts).drop k)).ahead

/-- Reading has come from the place `k` to the place `k'`, where these tokens are left: `k'` is not
before `k`, there is a token at it, and no end of the input is between. -/
structure Onward (ts : List Token) (k k' : Nat) (rest : List Token) : Prop where
  le : k ≤ k'
  lt_length : k' < (held ts).length
  not_passed : ∀ t ∈ ((held ts).drop k).take (k' - k), t.kind ≠ .endOfInput
  rest_eq : aheadFrom ts k' = rest
  count : k' - k + rest.length = (aheadFrom ts k).length

variable {ts : List Token}

/-- The last token that is held ends the input. -/
theorem exists_held_concat (ts : List Token) :
    ∃ before last, last.kind = .endOfInput ∧ held ts = before ++ [last] := by
  rw [held]
  split
  case h_1 => exact ⟨[], _, rfl, rfl⟩
  case h_2 last hlast =>
    split
    case isTrue hkind =>
      obtain ⟨before, rfl⟩ := List.getLast?_eq_some_iff.mp hlast
      exact ⟨before, last, hkind, rfl⟩
    case isFalse => exact ⟨ts, _, rfl, rfl⟩

/-- From every place on some tokens are left, and then the input ends. -/
theorem exists_drop_held {k : Nat} (hk : k < (held ts).length) :
    ∃ e behind, e.kind = .endOfInput ∧ (held ts).drop k = aheadFrom ts k ++ e :: behind := by
  obtain ⟨before, last, hlast, hheld⟩ := exists_held_concat ts
  have hmem : last ∈ (held ts).drop k := by
    rw [hheld, List.length_append, List.length_singleton] at hk
    rw [hheld, List.drop_append_of_le_length (by omega)]
    exact List.mem_append_right _ (List.mem_singleton_self last)
  rw [aheadFrom]
  cases hfind : ((held ts).drop k).find? (·.kind = .endOfInput) with
  | none =>
    have hnone : ∀ t ∈ (held ts).drop k, t.kind ≠ .endOfInput := by simpa using hfind
    exact absurd hlast (hnone last hmem)
  | some e =>
    obtain ⟨he, pre, post, hdrop, hpre⟩ := List.find?_eq_some_iff_append.mp hfind
    have he : e.kind = .endOfInput := by simpa using he
    refine ⟨e, post, he, ?_⟩
    rw [hdrop, ofTokens_append_cons (by simpa using hpre) he]

/-- Where an end of the tokens is left, reading has come on. -/
theorem exists_onward_of_suffix {k : Nat} {rest : List Token} (hk : k < (held ts).length)
    (h : rest <:+ aheadFrom ts k) : ∃ k', Onward ts k k' rest := by
  obtain ⟨e, behind, he, hdrop⟩ := exists_drop_held hk
  obtain ⟨taken, htaken⟩ := h
  have hahead : ∀ t ∈ taken ++ rest, t.kind ≠ .endOfInput := by
    rw [htaken]
    exact fun t ht => kind_ne_of_mem_ahead ht
  rw [← htaken, List.append_assoc] at hdrop
  have hrest : (held ts).drop (k + taken.length) = rest ++ e :: behind := by
    rw [← List.drop_drop, hdrop, List.drop_left]
  refine ⟨k + taken.length, Nat.le_add_right _ _, ?_, ?_, ?_, ?_⟩
  · have hlength := congrArg List.length hrest
    simp only [List.length_drop, List.length_append, List.length_cons] at hlength
    omega
  · rw [hdrop, Nat.add_sub_cancel_left, List.take_left]
    exact fun t ht => hahead t (List.mem_append_left rest ht)
  · rw [aheadFrom, hrest,
      ofTokens_append_cons (fun t ht => hahead t (List.mem_append_right taken ht)) he]
  · rw [← htaken, List.length_append]
    omega

end Reader

open Reader Grammar Grammar.Call Relation

/-- Reading a list of tokens gets on, whatever the tokens are, and comes to an end. -/
structure ParsingProgress (ts : List Token) : Prop where
  /-- What a rule replies depends on no calls other than those that it makes. -/
  calls_known : ∀ (answer : (c : Call) → Reading c.Value) (c : Call),
    (∀ d, Makes c d → answer d = d.reply) → replyFrom answer c = c.reply
  /-- A reader calls for statements at the place that it has come to. -/
  reader_calls : ∀ n, ((ofTokens ts).after n).ahead = aheadFrom ts (place ts n)
  /-- At every place a rule of operands is stuck or takes a token, and in any case goes neither back
  nor past the end of the input. -/
  rules_advance : ∀ k < (held ts).length, ∀ rule ∈ operandRules,
    ∃ k', Onward ts k k' (rule (aheadFrom ts k)).rest ∧
      ((rule (aheadFrom ts k)).IsStuck ∨ k < k')
  /-- Nor does any call that a rule makes, or that is made below it. -/
  calls_onward : ∀ k < (held ts).length, ∀ c d : Call, c.ahead = aheadFrom ts k →
    ReflTransGen Makes c d → ∃ k', Onward ts k k' d.ahead
  /-- An expression is entered again only behind a parenthesis that was taken. -/
  expression_again : ∀ us vs, TransGen Makes (.expression us) (.expression vs) →
    ∃ before t, t.kind = .leftParen ∧ before ++ t :: vs = us
  /-- Each turn of a loop takes an operator and an operand. -/
  terms_turn : ∀ left left' us vs, Makes (.moreTerms left us) (.moreTerms left' vs) →
    TakesTurn [.plus, .minus] us vs
  factors_turn : ∀ left left' us vs, Makes (.moreFactors left us) (.moreFactors left' vs) →
    TakesTurn [.star, .slash] us vs
  values_turn : ∀ us vs, Makes (.moreValues us) (.moreValues vs) → TakesTurn [.comma] us vs
  /-- Below a call there is none of the same rule, or of another that is not lower, unless fewer
  tokens are left before the end of the input. -/
  fewer_left : ∀ c d, TransGen Makes c d → c.rank ≤ d.rank → d.ahead.length < c.ahead.length
  /-- No calls go on for ever, and so there is one way only to answer them all. -/
  calls_end : WellFounded fun d c => Makes c d
  answers_unique : ∀ answer : (c : Call) → Reading c.Value, (∀ c, replyFrom answer c = answer c) →
    ∀ c, answer c = c.reply

theorem parsingProgress (ts : List Token) : ParsingProgress ts where
  calls_known _ _ := replyFrom_eq_reply
  reader_calls n := congrArg Reader.ahead (ofTokens_drop_held ts n).symm
  rules_advance k hk rule hrule := by
    obtain ⟨k', hk'⟩ := exists_onward_of_suffix hk (operandRules_leave rule hrule (aheadFrom ts k))
    refine ⟨k', hk', ?_⟩
    have hcount := hk'.count
    cases hreply : rule (aheadFrom ts k) with
    | read value rest shorter =>
      rw [hreply] at hcount
      change k' - k + rest.length = (aheadFrom ts k).length at hcount
      exact .inr (by omega)
    | stuck => exact .inl trivial
  calls_onward k hk c d hc h := exists_onward_of_suffix hk (hc ▸ suffix_of_reflTransGen h)
  expression_again _ _ := exists_leftParen_of_transGen
  terms_turn _ _ _ _ := moreTerms_takes_turn
  factors_turn _ _ _ _ := moreFactors_takes_turn
  values_turn _ _ := moreValues_takes_turn
  fewer_left c d h hrank := by
    have hdescends := (below_of_transGen h).descends
    omega
  calls_end := wellFounded_makes
  answers_unique _ := eq_reply_of_replyFrom

/-- Scanning and reading get on with every turn and every call, whatever the source and the tokens
are: at most one turn is taken for each character, and calls go on only as long as there are tokens
left before the end of the input. -/
theorem scanning_and_parsing_progress (name source : String) (ts : List Token) :
    ScanningProgress name source ∧ ParsingProgress ts :=
  ⟨scanningProgress name source, parsingProgress ts⟩

end Peng
