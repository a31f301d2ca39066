import Peng.Proofs.Syntax.Derivation

/-!
# The extent of nodes

The span of a node is put together from those of its operands, and parentheses leave nothing
behind. Still it never leaves the tokens that the node was derived from: it reaches from one of
them to another (`Derivation.standsIn_tokens`). None of these is a newline, and so the node
stands on one line of the source (`ProgramDerivation.exists_line_of_mem`).
-/

namespace Peng

/-- The expressions that an expression is made of, itself included. Operands come before what is
made of them. -/
def Expr.nodes : Expr → List Expr
  | .number x span => [.number x span]
  | .text s span => [.text s span]
  | .variable name span => [.variable name span]
  | .binary op left right span => left.nodes ++ right.nodes ++ [.binary op left right span]
  | .signed sign operand span => operand.nodes ++ [.signed sign operand span]

theorem Expr.mem_nodes_self (e : Expr) : e ∈ e.nodes := by
  cases e <;> simp [nodes]

/-- The expressions that a statement evaluates, in order. -/
def Statement.expressions : Statement → List Expr
  | .print values _ => values
  | .assign _ e _ => [e]

/-! ## Spans within tokens -/

/-- The span reaches from one of the tokens to the same or a later one. -/
def Span.Within (s : Span) (ts : List Token) : Prop :=
  ∃ first more, first :: more <:+: ts ∧ s = first.span.upTo (more.getLastD first).span

namespace Span.Within

variable {s s' : Span} {ts us : List Token}

theorem singleton (t : Token) : t.span.Within [t] :=
  ⟨t, [], List.infix_refl _, rfl⟩

theorem mono (h : s.Within ts) (hsub : ts <:+: us) : s.Within us := by
  obtain ⟨first, more, hpart, rfl⟩ := h
  exact ⟨first, more, hpart.trans hsub, rfl⟩

/-- The span that joins two others reaches over the tokens between them. -/
theorem upTo (h : s.Within ts) (h' : s'.Within us) : (s.upTo s').Within (ts ++ us) := by
  obtain ⟨first, more, ⟨before, after, rfl⟩, rfl⟩ := h
  obtain ⟨first', more', ⟨before', after', rfl⟩, rfl⟩ := h'
  refine ⟨first, more ++ after ++ before' ++ first' :: more', ⟨before, after', by simp⟩, ?_⟩
  have hlast : (more ++ after ++ before' ++ first' :: more').getLastD first =
      more'.getLastD first' := by
    simp [List.getLastD_eq_getLast?, List.getLast?_cons]
  rw [hlast]
  rfl

end Span.Within

/-- All nodes of the expression have their spans within the tokens. -/
def Expr.StandsIn (e : Expr) (ts : List Token) : Prop :=
  ∀ node ∈ e.nodes, node.span.Within ts

namespace Expr.StandsIn

variable {e left right : Expr} {ts us : List Token}

theorem span_within (h : e.StandsIn ts) : e.span.Within ts :=
  h e e.mem_nodes_self

theorem mono (h : e.StandsIn ts) (hsub : ts <:+: us) : e.StandsIn us :=
  fun node hnode => (h node hnode).mono hsub

theorem leaf {t : Token} (h : t.IsLeaf e) : e.StandsIn [t] := by
  cases h <;> simpa [StandsIn, nodes, span] using Span.Within.singleton t

theorem join (hleft : left.StandsIn ts) (hright : right.StandsIn us) (op : BinaryOp) :
    (left.join op right).StandsIn (ts ++ us) := by
  intro node hnode
  simp only [Expr.join, nodes, List.mem_append, List.mem_singleton] at hnode
  rcases hnode with (hnode | hnode) | rfl
  · exact (hleft node hnode).mono (List.infix_append' [] ts us)
  · exact (hright node hnode).mono (List.suffix_append ts us).isInfix
  · exact hleft.span_within.upTo hright.span_within

theorem signed {t : Token} (h : e.StandsIn ts) (sign : Sign) :
    (Expr.signed sign e (t.span.upTo e.span)).StandsIn (t :: ts) := by
  intro node hnode
  simp only [nodes, List.mem_append, List.mem_singleton] at hnode
  rcases hnode with hnode | rfl
  · exact (h node hnode).mono (List.suffix_cons t ts).isInfix
  · exact (Span.Within.singleton t).upTo h.span_within

end Expr.StandsIn

/-! ## Derived tokens -/

namespace Grammar

/-- What a rule stands for has its spans within the tokens. A repeated part has no node of its
own: it keeps within its tokens and those of the operand that it is joined to. -/
def Rule.StandsIn : (r : Rule) → r.Meaning → List Token → Prop
  | .moreTerms, more, ts | .moreFactors, more, ts =>
    ∀ left lts, Expr.StandsIn left lts → (joinAll left more).StandsIn (lts ++ ts)
  | .expression, e, ts | .term, e, ts | .unary, e, ts | .atom, e, ts => Expr.StandsIn e ts

theorem standsIn_joinAll_cons {right : Expr} {rts mts : List Token} {t : Token} {op : BinaryOp}
    {more : List (BinaryOp × Expr)} (hright : right.StandsIn rts)
    (hmore : ∀ left lts, Expr.StandsIn left lts → (joinAll left more).StandsIn (lts ++ mts))
    (left : Expr) (lts : List Token) (hleft : left.StandsIn lts) :
    (joinAll left ((op, right) :: more)).StandsIn (lts ++ t :: (rts ++ mts)) := by
  have hjoin := hleft.join (hright.mono (List.suffix_cons t rts).isInfix) op
  have hall := hmore _ _ hjoin
  rwa [List.append_assoc, List.cons_append] at hall

/-- The nodes of a derivation keep within its tokens. -/
theorem Derivation.standsIn_tokens {r : Rule} (d : Derivation r) :
    r.StandsIn d.meaning d.tokens := by
  induction d with
  | sum first more ihfirst ihmore => exact ihmore _ _ ihfirst
  | noMoreTerms =>
    intro left lts hleft
    rwa [tokens, List.append_nil]
  | nextTerm t op hop right more ihright ihmore => exact standsIn_joinAll_cons ihright ihmore
  | product first more ihfirst ihmore => exact ihmore _ _ ihfirst
  | noMoreFactors =>
    intro left lts hleft
    rwa [tokens, List.append_nil]
  | nextFactor t op hop right more ihright ihmore => exact standsIn_joinAll_cons ihright ihmore
  | unsigned operand ih => exact ih
  | signed t sign hsign operand ih => exact Expr.StandsIn.signed ih sign
  | leaf t e hleaf => exact .leaf hleaf
  | parenthesised left right hleft hright inner ih =>
    exact Expr.StandsIn.mono ih ⟨[left], [right], by simp [tokens]⟩

/-- No newline is part of an expression. -/
theorem Derivation.kind_ne_newline {r : Rule} (d : Derivation r) :
    ∀ t ∈ d.tokens, t.kind ≠ .newline := by
  induction d with
  | sum first more ihfirst ihmore | product first more ihfirst ihmore =>
    exact List.forall_mem_append.mpr ⟨ihfirst, ihmore⟩
  | noMoreTerms | noMoreFactors => exact fun t ht => absurd ht List.not_mem_nil
  | nextTerm t op hop right more ihright ihmore =>
    have ht : t.kind ≠ .newline := fun h => by simp [h, sums] at hop
    exact List.forall_mem_cons.mpr ⟨ht, List.forall_mem_append.mpr ⟨ihright, ihmore⟩⟩
  | nextFactor t op hop right more ihright ihmore =>
    have ht : t.kind ≠ .newline := fun h => by simp [h, products] at hop
    exact List.forall_mem_cons.mpr ⟨ht, List.forall_mem_append.mpr ⟨ihright, ihmore⟩⟩
  | unsigned operand ih => exact ih
  | signed t sign hsign operand ih =>
    have ht : t.kind ≠ .newline := fun h => by simp [h, signs] at hsign
    exact List.forall_mem_cons.mpr ⟨ht, ih⟩
  | leaf t e hleaf =>
    have ht : t.kind ≠ .newline := fun h => by simpa [h] using kind_of_isLeaf hleaf
    exact List.forall_mem_singleton.mpr ht
  | parenthesised left right hleft hright inner ih =>
    simp only [tokens, List.forall_mem_cons, List.forall_mem_append]
    exact ⟨by simp [hleft], ih, by simp [hright]⟩

/-! ## Statements and programs -/

theorem NextValue.kind_ne_newline (values : List NextValue) :
    ∀ t ∈ tokens values, t.kind ≠ .newline := by
  intro t ht
  obtain ⟨v, -, ht⟩ := List.mem_flatMap.mp ht
  rcases List.mem_cons.mp ht with rfl | ht
  · simp [v.hcomma]
  · exact v.value.kind_ne_newline t ht

theorem NextValue.infix_tokens {values : List NextValue} {v : NextValue} (h : v ∈ values) :
    v.value.tokens <:+: tokens values := by
  obtain ⟨before, after, rfl⟩ := List.append_of_mem h
  exact ⟨tokens before ++ [v.comma], tokens after, by simp [tokens]⟩

namespace StatementDerivation

theorem kind_ne_newline (d : StatementDerivation) : ∀ t ∈ d.tokens, t.kind ≠ .newline := by
  cases d with
  | print say hsay first more =>
    refine List.forall_mem_cons.mpr ⟨by simp [hsay], List.forall_mem_append.mpr ⟨?_, ?_⟩⟩
    · exact first.kind_ne_newline
    · exact NextValue.kind_ne_newline more
  | assign name is hname his value =>
    refine List.forall_mem_cons.mpr ⟨by simp [hname], List.forall_mem_cons.mpr ⟨by simp [his], ?_⟩⟩
    exact value.kind_ne_newline

/-- The expressions of a statement keep within its tokens. -/
theorem standsIn_tokens (d : StatementDerivation) :
    ∀ e ∈ d.meaning.expressions, e.StandsIn d.tokens := by
  cases d with
  | print say hsay first more =>
    simp only [meaning, printOf, Statement.expressions, List.forall_mem_cons, List.forall_mem_map]
    constructor
    · exact first.standsIn_tokens.mono ⟨[say], NextValue.tokens more, by simp [tokens]⟩
    · intro v hv
      have hvalue := v.value.standsIn_tokens.mono (NextValue.infix_tokens hv)
      exact hvalue.mono (List.suffix_append (say :: first.tokens) _).isInfix
  | assign name is hname his value =>
    have hvalue := value.standsIn_tokens.mono (List.suffix_append [name, is] _).isInfix
    exact List.forall_mem_singleton.mpr hvalue

end StatementDerivation

namespace ProgramDerivation

/-- The tokens of each statement follow each other in the program. -/
theorem exists_statement_of_mem (d : ProgramDerivation) {s : Statement} (h : s ∈ d.statements) :
    ∃ d' : StatementDerivation, d'.meaning = s ∧ d'.tokens <:+: d.tokens := by
  induction d with
  | done => exact absurd h List.not_mem_nil
  | newline t ht more ih =>
    obtain ⟨d', hmeaning, hinfix⟩ := ih h
    exact ⟨d', hmeaning, hinfix.trans (List.suffix_cons t _).isInfix⟩
  | statement first t ht more ih =>
    rcases List.mem_cons.mp h with rfl | h
    · exact ⟨first, rfl, (List.prefix_append _ _).isInfix⟩
    · obtain ⟨d', hmeaning, hinfix⟩ := ih h
      refine ⟨d', hmeaning, hinfix.trans ?_⟩
      exact ((List.suffix_cons t _).trans (List.suffix_append _ _)).isInfix
  | last only =>
    obtain rfl := List.mem_singleton.mp h
    exact ⟨only, rfl, List.infix_refl _⟩

/-- Every node of a program keeps within tokens of one line. -/
theorem exists_line_of_mem (d : ProgramDerivation) {s : Statement} (hs : s ∈ d.statements)
    {e : Expr} (he : e ∈ s.expressions) {node : Expr} (hnode : node ∈ e.nodes) :
    ∃ line, line <:+: d.tokens ∧ (∀ t ∈ line, t.kind ≠ .newline) ∧ node.span.Within line := by
  obtain ⟨d', rfl, hinfix⟩ := d.exists_statement_of_mem hs
  exact ⟨d'.tokens, hinfix, d'.kind_ne_newline, d'.standsIn_tokens e he node hnode⟩

/-- Without a newline there is at most one statement. -/
theorem length_statements_le_one (d : ProgramDerivation) (h : ∀ t ∈ d.tokens, t.kind ≠ .newline) :
    d.statements.length ≤ 1 := by
  cases d with
  | done => exact Nat.zero_le 1
  | newline t ht more => exact absurd ht (h t List.mem_cons_self)
  | statement first t ht more =>
    exact absurd ht (h t (List.mem_append_right _ List.mem_cons_self))
  | last only => exact Nat.le_refl 1

end ProgramDerivation

end Grammar

end Peng
