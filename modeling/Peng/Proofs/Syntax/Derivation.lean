import Peng.Syntax.Grammar

/-!
# Derivations

The grammar, without a way of reading it:

    program    := (NEWLINE | statement)*
    statement  := ('say' expression (',' expression)* | NAME 'is' expression) (NEWLINE | END)
    expression := term (('+' | '-') term)*
    term       := unary (('*' | '/') unary)*
    unary      := ('+' | '-') atom | atom
    atom       := leaf | '(' expression ')'

A derivation is a tree over these rules with tokens at its leaves. Its `tokens`, from left to
right, are what it derives, and its `meaning` is the syntax tree it stands for.

## Shape of the uniqueness proof

`Derivation.eq_of_tokens_append` compares two derivations that begin at the same place of the
same tokens, and does not ask that they end at the same place. It is enough that neither is
followed by an operator that would carry its rule on: then each token decides the rule that is
applied to it, and the derivations are the same.
-/

namespace Peng

/-- The tokens that are an operand by themselves, each with its expression. A literal counts
only on a token of its kind; digits that no whole literal holds have a floating-point one. -/
inductive Token.IsLeaf (t : Token) : Expr → Prop where
  | integer {v : Int} (hkind : t.kind = .integer) (hliteral : t.literal = some (.int v)) :
      t.IsLeaf (.number (nearestWhole v) t.span)
  | largeInteger {x : Float} (hkind : t.kind = .integer)
      (hliteral : t.literal = some (.float x)) : t.IsLeaf (.number x t.span)
  | float {x : Float} (hkind : t.kind = .float) (hliteral : t.literal = some (.float x)) :
      t.IsLeaf (.number x t.span)
  | text {s : String} (hkind : t.kind = .string) (hliteral : t.literal = some (.text s)) :
      t.IsLeaf (.text s t.span)
  | name (hkind : t.kind = .identifier) : t.IsLeaf (.variable t.lexeme t.span)

namespace Grammar

/-- The operators between terms. -/
def sums : List (Token.Kind × BinaryOp) := [(.plus, .add), (.minus, .subtract)]

/-- The operators between the factors of a term. -/
def products : List (Token.Kind × BinaryOp) := [(.star, .multiply), (.slash, .divide)]

/-- The signs of an atom. -/
def signs : List (Token.Kind × Sign) := [(.plus, .plus), (.minus, .minus)]

/-- The rules of expressions. `moreTerms` and `moreFactors` are the repeated parts of an
expression and of a term. -/
inductive Rule where
  | expression
  | moreTerms
  | term
  | moreFactors
  | unary
  | atom

/-- The derivations of a rule. -/
inductive Derivation : Rule → Type where
  | sum (first : Derivation .term) (more : Derivation .moreTerms) : Derivation .expression
  | noMoreTerms : Derivation .moreTerms
  | nextTerm (t : Token) (op : BinaryOp) (hop : (t.kind, op) ∈ sums)
      (right : Derivation .term) (more : Derivation .moreTerms) : Derivation .moreTerms
  | product (first : Derivation .unary) (more : Derivation .moreFactors) : Derivation .term
  | noMoreFactors : Derivation .moreFactors
  | nextFactor (t : Token) (op : BinaryOp) (hop : (t.kind, op) ∈ products)
      (right : Derivation .unary) (more : Derivation .moreFactors) : Derivation .moreFactors
  | unsigned (operand : Derivation .atom) : Derivation .unary
  | signed (t : Token) (sign : Sign) (hsign : (t.kind, sign) ∈ signs)
      (operand : Derivation .atom) : Derivation .unary
  | leaf (t : Token) (e : Expr) (hleaf : t.IsLeaf e) : Derivation .atom
  | parenthesised (left right : Token) (hleft : left.kind = .leftParen)
      (hright : right.kind = .rightParen) (inner : Derivation .expression) : Derivation .atom

/-- What a derivation stands for: an expression, and for a repeated part the operators with
their right operands, in order. -/
abbrev Rule.Meaning : Rule → Type
  | .moreTerms | .moreFactors => List (BinaryOp × Expr)
  | .expression | .term | .unary | .atom => Expr

/-- Operators and right operands applied to the left operand, grouped to the left. -/
def joinAll (left : Expr) (operands : List (BinaryOp × Expr)) : Expr :=
  operands.foldl (fun e operand => e.join operand.1 operand.2) left

namespace Derivation

/-- The tokens that are derived. -/
def tokens {r : Rule} : Derivation r → List Token
  | sum first more => first.tokens ++ more.tokens
  | noMoreTerms => []
  | nextTerm t _ _ right more => t :: (right.tokens ++ more.tokens)
  | product first more => first.tokens ++ more.tokens
  | noMoreFactors => []
  | nextFactor t _ _ right more => t :: (right.tokens ++ more.tokens)
  | unsigned operand => operand.tokens
  | signed t _ _ operand => t :: operand.tokens
  | leaf t _ _ => [t]
  | parenthesised left right _ _ inner => left :: (inner.tokens ++ [right])

/-- The syntax tree of a derivation. A sign takes one atom; parentheses leave nothing. -/
def meaning {r : Rule} : Derivation r → r.Meaning
  | sum first more => joinAll first.meaning more.meaning
  | noMoreTerms => []
  | nextTerm _ op _ right more => (op, right.meaning) :: more.meaning
  | product first more => joinAll first.meaning more.meaning
  | noMoreFactors => []
  | nextFactor _ op _ right more => (op, right.meaning) :: more.meaning
  | unsigned operand => operand.meaning
  | signed t sign _ operand =>
    .signed sign operand.meaning (t.span.upTo (Expr.span operand.meaning))
  | leaf _ e _ => e
  | parenthesised _ _ _ _ inner => inner.meaning

end Derivation

/-! ## What a token decides -/

theorem mem_sums {k : Token.Kind} {op : BinaryOp} : (k, op) ∈ sums ↔ k.sum? = some op := by
  cases k <;> cases op <;> simp [sums, Token.Kind.sum?]

theorem mem_products {k : Token.Kind} {op : BinaryOp} :
    (k, op) ∈ products ↔ k.product? = some op := by
  cases k <;> cases op <;> simp [products, Token.Kind.product?]

theorem mem_signs {k : Token.Kind} {sign : Sign} : (k, sign) ∈ signs ↔ k.sign? = some sign := by
  cases k <;> cases sign <;> simp [signs, Token.Kind.sign?]

/-- A token is a leaf for the expression that is read off it, and for no other. -/
theorem isLeaf_iff {t : Token} {e : Expr} : t.IsLeaf e ↔ t.leaf? = some e := by
  constructor
  · rintro (⟨hkind, hliteral⟩ | ⟨hkind, hliteral⟩ | ⟨hkind, hliteral⟩ | ⟨hkind, hliteral⟩ | hkind)
      <;> simp [Token.leaf?, *]
  · intro h
    unfold Token.leaf? at h
    split at h
    case h_6 => cases h
    all_goals obtain rfl := Option.some.inj h
    · exact .integer ‹_› ‹_›
    · exact .largeInteger ‹_› ‹_›
    · exact .float ‹_› ‹_›
    · exact .text ‹_› ‹_›
    · exact .name ‹_›

theorem kind_of_isLeaf {t : Token} {e : Expr} (h : t.IsLeaf e) :
    t.kind ∈ [.integer, .float, .string, .identifier] := by
  cases h <;> simp [*]

/-! ## Where a rule ends -/

/-- The operators that carry a rule on. -/
def Rule.continuations : Rule → List Token.Kind
  | .expression | .moreTerms => [.plus, .minus, .star, .slash]
  | .term | .moreFactors => [.star, .slash]
  | .unary | .atom => []

/-- `rest` does not carry the rule on. -/
def Rule.EndsBefore (r : Rule) (rest : List Token) : Prop :=
  ∀ t ∈ rest.head?, t.kind ∉ r.continuations

theorem mem_continuations_of_mem_sums {k : Token.Kind} {op : BinaryOp} (h : (k, op) ∈ sums) :
    k ∈ Rule.moreTerms.continuations := by
  cases k <;> simp [sums, Rule.continuations] at h ⊢

theorem mem_continuations_of_mem_products {k : Token.Kind} {op : BinaryOp}
    (h : (k, op) ∈ products) : k ∈ Rule.moreFactors.continuations := by
  cases k <;> simp [products, Rule.continuations] at h ⊢

theorem exists_product_of_mem_continuations {k : Token.Kind}
    (h : k ∈ Rule.moreFactors.continuations) : ∃ op, (k, op) ∈ products := by
  cases k <;> simp [products, Rule.continuations] at h ⊢

theorem exists_sum_of_mem_continuations {k : Token.Kind}
    (h : k ∈ Rule.moreTerms.continuations) (hterm : k ∉ Rule.term.continuations) :
    ∃ op, (k, op) ∈ sums := by
  cases k <;> simp [sums, Rule.continuations] at h hterm ⊢

theorem endsBefore_nil (r : Rule) : r.EndsBefore [] := by
  simp [Rule.EndsBefore]

theorem endsBefore_unary (rest : List Token) : Rule.unary.EndsBefore rest :=
  fun _ _ => List.not_mem_nil

theorem endsBefore_atom (rest : List Token) : Rule.atom.EndsBefore rest :=
  fun _ _ => List.not_mem_nil

theorem endsBefore_rightParen {t : Token} (h : t.kind = .rightParen) {rest : List Token} :
    Rule.expression.EndsBefore (t :: rest) := by
  rintro u ⟨⟩
  simp [h, Rule.continuations]

namespace Derivation

/-- What follows an expression does not carry on its last term, whatever was added to it. -/
theorem endsBefore_moreTerms_append (more : Derivation .moreTerms) {rest : List Token}
    (h : Rule.expression.EndsBefore rest) : Rule.term.EndsBefore (more.tokens ++ rest) := by
  intro t ht hk
  cases more with
  | noMoreTerms => exact h t ht (List.mem_cons_of_mem _ (List.mem_cons_of_mem _ hk))
  | nextTerm u op hop right more =>
    obtain rfl := Option.some.inj ht
    rw [mem_sums] at hop
    generalize u.kind = k at hop hk
    cases k <;> simp [Token.Kind.sum?, Rule.continuations] at hop hk

/-- An atom does not begin with a sign. -/
theorem sign?_of_atom_append (d : Derivation .atom) {rest ts : List Token} {t : Token}
    (h : d.tokens ++ rest = t :: ts) : t.kind.sign? = none := by
  cases d with
  | leaf u e hleaf =>
    obtain ⟨rfl, -⟩ := List.cons.inj h
    have hk := kind_of_isLeaf hleaf
    generalize u.kind = k at hk
    cases k <;> simp [Token.Kind.sign?] at hk ⊢
  | parenthesised left right hleft hright inner =>
    obtain ⟨rfl, -⟩ := List.cons.inj h
    rw [hleft]
    rfl

/-- Two derivations of one rule that begin at the same place are the same, if neither could
have been carried on where it ends. -/
theorem eq_of_tokens_append {r : Rule} (d d' : Derivation r) {rest rest' : List Token}
    (h : d.tokens ++ rest = d'.tokens ++ rest') (hrest : r.EndsBefore rest)
    (hrest' : r.EndsBefore rest') : d = d' ∧ rest = rest' := by
  induction d generalizing rest rest' with
  | sum first more ihfirst ihmore =>
    cases d' with | sum first' more' =>
    simp only [tokens, List.append_assoc] at h
    -- a term ends before what is added to it, so the terms agree and then so do the additions
    obtain ⟨rfl, hmore⟩ := ihfirst first' h (endsBefore_moreTerms_append more hrest)
      (endsBefore_moreTerms_append more' hrest')
    obtain ⟨rfl, rfl⟩ := ihmore more' hmore hrest hrest'
    exact ⟨rfl, rfl⟩
  | noMoreTerms =>
    cases d' with
    | noMoreTerms => exact ⟨rfl, h⟩
    | nextTerm u op' hop' right' more' =>
      -- the operator that `d'` goes on with stands behind `d`, which it would carry on
      obtain rfl : rest = u :: _ := h
      exact absurd (mem_continuations_of_mem_sums hop') (hrest u rfl)
  | nextTerm t op hop right more ihright ihmore =>
    cases d' with
    | noMoreTerms =>
      obtain rfl : t :: _ = rest' := h
      exact absurd (mem_continuations_of_mem_sums hop) (hrest' t rfl)
    | nextTerm u op' hop' right' more' =>
      simp only [tokens, List.cons_append, List.append_assoc, List.cons.injEq] at h
      obtain ⟨rfl, hright⟩ := h
      obtain rfl := Option.some.inj ((mem_sums.mp hop).symm.trans (mem_sums.mp hop'))
      obtain ⟨rfl, hmore⟩ := ihright right' hright (endsBefore_moreTerms_append more hrest)
        (endsBefore_moreTerms_append more' hrest')
      obtain ⟨rfl, rfl⟩ := ihmore more' hmore hrest hrest'
      exact ⟨rfl, rfl⟩
  | product first more ihfirst ihmore =>
    cases d' with | product first' more' =>
    simp only [tokens, List.append_assoc] at h
    obtain ⟨rfl, hmore⟩ := ihfirst first' h (endsBefore_unary _) (endsBefore_unary _)
    obtain ⟨rfl, rfl⟩ := ihmore more' hmore hrest hrest'
    exact ⟨rfl, rfl⟩
  | noMoreFactors =>
    cases d' with
    | noMoreFactors => exact ⟨rfl, h⟩
    | nextFactor u op' hop' right' more' =>
      obtain rfl : rest = u :: _ := h
      exact absurd (mem_continuations_of_mem_products hop') (hrest u rfl)
  | nextFactor t op hop right more ihright ihmore =>
    cases d' with
    | noMoreFactors =>
      obtain rfl : t :: _ = rest' := h
      exact absurd (mem_continuations_of_mem_products hop) (hrest' t rfl)
    | nextFactor u op' hop' right' more' =>
      simp only [tokens, List.cons_append, List.append_assoc, List.cons.injEq] at h
      obtain ⟨rfl, hright⟩ := h
      obtain rfl := Option.some.inj ((mem_products.mp hop).symm.trans (mem_products.mp hop'))
      obtain ⟨rfl, hmore⟩ := ihright right' hright (endsBefore_unary _) (endsBefore_unary _)
      obtain ⟨rfl, rfl⟩ := ihmore more' hmore hrest hrest'
      exact ⟨rfl, rfl⟩
  | unsigned operand ih =>
    cases d' with
    | unsigned operand' =>
      obtain ⟨rfl, rfl⟩ := ih operand' h hrest hrest'
      exact ⟨rfl, rfl⟩
    | signed u sign' hsign' operand' =>
      -- the first token is a sign, and no atom begins with one
      have hnone := sign?_of_atom_append operand h
      rw [mem_signs.mp hsign'] at hnone
      cases hnone
  | signed t sign hsign operand ih =>
    cases d' with
    | unsigned operand' =>
      have hnone := sign?_of_atom_append operand' h.symm
      rw [mem_signs.mp hsign] at hnone
      cases hnone
    | signed u sign' hsign' operand' =>
      simp only [tokens, List.cons_append, List.cons.injEq] at h
      obtain ⟨rfl, hoperand⟩ := h
      obtain rfl := Option.some.inj ((mem_signs.mp hsign).symm.trans (mem_signs.mp hsign'))
      obtain ⟨rfl, rfl⟩ := ih operand' hoperand hrest hrest'
      exact ⟨rfl, rfl⟩
  | leaf t e hleaf =>
    cases d' with
    | leaf u e' hleaf' =>
      obtain ⟨rfl, rfl⟩ := List.cons.inj h
      obtain rfl := Option.some.inj ((isLeaf_iff.mp hleaf).symm.trans (isLeaf_iff.mp hleaf'))
      exact ⟨rfl, rfl⟩
    | parenthesised left' right' hleft' hright' inner' =>
      obtain ⟨rfl, -⟩ := List.cons.inj h
      have hk := kind_of_isLeaf hleaf
      simp [hleft'] at hk
  | parenthesised left right hleft hright inner ih =>
    cases d' with
    | leaf u e' hleaf' =>
      obtain ⟨rfl, -⟩ := List.cons.inj h
      have hk := kind_of_isLeaf hleaf'
      simp [hleft] at hk
    | parenthesised left' right' hleft' hright' inner' =>
      simp only [tokens, List.cons_append, List.append_assoc, List.cons.injEq] at h
      obtain ⟨rfl, hinner⟩ := h
      obtain ⟨rfl, hclose⟩ := ih inner' hinner (endsBefore_rightParen hright)
        (endsBefore_rightParen hright')
      obtain ⟨rfl, rfl⟩ := List.cons.inj hclose
      exact ⟨rfl, rfl⟩

end Derivation

/-! ## Statements and programs -/

/-- A value of a print behind the first one, with the comma before it. -/
structure NextValue where
  comma : Token
  hcomma : comma.kind = .comma
  value : Derivation .expression

/-- The tokens of values with their commas. -/
def NextValue.tokens (values : List NextValue) : List Token :=
  values.flatMap fun v => v.comma :: v.value.tokens

/-- The derivations of a statement, without what ends it. -/
inductive StatementDerivation where
  | print (say : Token) (hsay : say.kind = .say) (first : Derivation .expression)
      (more : List NextValue)
  | assign (name is : Token) (hname : name.kind = .identifier) (his : is.kind = .is)
      (value : Derivation .expression)

/-- The derivations of a program. Every statement but the last one ends with a newline. -/
inductive ProgramDerivation where
  | done
  | newline (t : Token) (ht : t.kind = .newline) (more : ProgramDerivation)
  | statement (first : StatementDerivation) (t : Token) (ht : t.kind = .newline)
      (more : ProgramDerivation)
  | last (only : StatementDerivation)

namespace StatementDerivation

/-- The tokens that are derived. -/
def tokens : StatementDerivation → List Token
  | print say _ first more => say :: (first.tokens ++ NextValue.tokens more)
  | assign name is _ _ value => name :: is :: value.tokens

/-- The statement that a derivation stands for. -/
def meaning : StatementDerivation → Statement
  | print _ _ first more =>
    printOf first.meaning (more.map fun v => v.value.meaning)
  | assign name _ _ _ value =>
    .assign name.lexeme value.meaning (name.span.upTo (Expr.span value.meaning))

/-- `rest` may stand behind a statement. -/
def EndsBefore (rest : List Token) : Prop :=
  ∀ t ∈ rest.head?, t.kind = .newline

theorem endsBefore_nil : EndsBefore [] := by
  rintro t ⟨⟩

theorem endsBefore_newline {t : Token} (h : t.kind = .newline) {rest : List Token} :
    EndsBefore (t :: rest) := by
  rintro u ⟨⟩
  exact h

theorem endsBefore_expression {rest : List Token} (h : EndsBefore rest) :
    Rule.expression.EndsBefore rest := by
  intro t ht
  simp [h t ht, Rule.continuations]

theorem endsBefore_values_append (values : List NextValue) {rest : List Token}
    (h : EndsBefore rest) : Rule.expression.EndsBefore (NextValue.tokens values ++ rest) := by
  cases values with
  | nil => exact endsBefore_expression h
  | cons v values =>
    rintro t ⟨⟩
    simp [v.hcomma, Rule.continuations]

theorem values_eq_of_tokens_append {values values' : List NextValue} {rest rest' : List Token}
    (h : NextValue.tokens values ++ rest = NextValue.tokens values' ++ rest')
    (hrest : EndsBefore rest) (hrest' : EndsBefore rest') : values = values' ∧ rest = rest' := by
  induction values generalizing values' with
  | nil =>
    cases values' with
    | nil => exact ⟨rfl, h⟩
    | cons v' values' =>
      obtain rfl : rest = v'.comma :: _ := h
      have hk := hrest v'.comma rfl
      simp [v'.hcomma] at hk
  | cons v values ih =>
    cases values' with
    | nil =>
      obtain rfl : v.comma :: _ = rest' := h
      have hk := hrest' v.comma rfl
      simp [v.hcomma] at hk
    | cons v' values' =>
      obtain ⟨comma, hcomma, value⟩ := v
      obtain ⟨comma', hcomma', value'⟩ := v'
      simp only [NextValue.tokens, List.flatMap_cons, List.cons_append, List.append_assoc,
        List.cons.injEq] at h
      obtain ⟨rfl, hvalue⟩ := h
      obtain ⟨rfl, hvalues⟩ := Derivation.eq_of_tokens_append value value' hvalue
        (endsBefore_values_append values hrest) (endsBefore_values_append values' hrest')
      obtain ⟨rfl, rfl⟩ := ih hvalues
      exact ⟨rfl, rfl⟩

theorem eq_of_tokens_append (d d' : StatementDerivation) {rest rest' : List Token}
    (h : d.tokens ++ rest = d'.tokens ++ rest') (hrest : EndsBefore rest)
    (hrest' : EndsBefore rest') : d = d' ∧ rest = rest' := by
  cases d with
  | print say hsay first more =>
    cases d' with
    | print say' hsay' first' more' =>
      simp only [tokens, List.cons_append, List.append_assoc, List.cons.injEq] at h
      obtain ⟨rfl, hfirst⟩ := h
      obtain ⟨rfl, hmore⟩ := Derivation.eq_of_tokens_append first first' hfirst
        (endsBefore_values_append more hrest) (endsBefore_values_append more' hrest')
      obtain ⟨rfl, rfl⟩ := values_eq_of_tokens_append hmore hrest hrest'
      exact ⟨rfl, rfl⟩
    | assign name is hname his value =>
      obtain ⟨rfl, -⟩ := List.cons.inj h
      simp [hsay] at hname
  | assign name is hname his value =>
    cases d' with
    | print say' hsay' first' more' =>
      obtain ⟨rfl, -⟩ := List.cons.inj h
      simp [hname] at hsay'
    | assign name' is' hname' his' value' =>
      simp only [tokens, List.cons_append, List.cons.injEq] at h
      obtain ⟨rfl, rfl, hvalue⟩ := h
      obtain ⟨rfl, rfl⟩ := Derivation.eq_of_tokens_append value value' hvalue
        (endsBefore_expression hrest) (endsBefore_expression hrest')
      exact ⟨rfl, rfl⟩

theorem tokens_append_ne_nil (d : StatementDerivation) (rest : List Token) :
    d.tokens ++ rest ≠ [] := by
  cases d <;> exact List.cons_ne_nil _ _

/-- A statement does not begin with a newline. -/
theorem tokens_append_ne_cons (d : StatementDerivation) {t : Token} (ht : t.kind = .newline)
    (rest ts : List Token) : d.tokens ++ rest ≠ t :: ts := by
  intro h
  cases d with
  | print say hsay first more =>
    obtain ⟨rfl, -⟩ := List.cons.inj h
    simp [hsay] at ht
  | assign name is hname his value =>
    obtain ⟨rfl, -⟩ := List.cons.inj h
    simp [hname] at ht

end StatementDerivation

namespace ProgramDerivation

/-- The tokens that are derived. -/
def tokens : ProgramDerivation → List Token
  | done => []
  | newline t _ more => t :: more.tokens
  | statement first t _ more => first.tokens ++ t :: more.tokens
  | last only => only.tokens

/-- The statements that a derivation stands for, in order. -/
def statements : ProgramDerivation → List Statement
  | done => []
  | newline _ _ more => more.statements
  | statement first _ _ more => first.meaning :: more.statements
  | last only => [only.meaning]

/-- The grammar is unambiguous: no tokens have two derivations. -/
theorem eq_of_tokens_eq (d d' : ProgramDerivation) (h : d.tokens = d'.tokens) : d = d' := by
  induction d generalizing d' with
  | done =>
    cases d' with
    | done => rfl
    | newline t' ht' more' => cases h
    | statement first' t' ht' more' => exact absurd h.symm (first'.tokens_append_ne_nil _)
    | last only' => exact absurd ((List.append_nil _).trans h.symm) (only'.tokens_append_ne_nil [])
  | newline t ht more ih =>
    cases d' with
    | done => cases h
    | newline t' ht' more' =>
      obtain ⟨rfl, hmore⟩ := List.cons.inj h
      rw [ih more' hmore]
    | statement first' t' ht' more' => exact absurd h.symm (first'.tokens_append_ne_cons ht _ _)
    | last only' =>
      exact absurd ((List.append_nil _).trans h.symm) (only'.tokens_append_ne_cons ht [] _)
  | statement first t ht more ih =>
    cases d' with
    | done => exact absurd h (first.tokens_append_ne_nil _)
    | newline t' ht' more' => exact absurd h (first.tokens_append_ne_cons ht' _ _)
    | statement first' t' ht' more' =>
      obtain ⟨rfl, hrest⟩ := StatementDerivation.eq_of_tokens_append first first' h
        (StatementDerivation.endsBefore_newline ht) (StatementDerivation.endsBefore_newline ht')
      obtain ⟨rfl, hmore⟩ := List.cons.inj hrest
      rw [ih more' hmore]
    | last only' =>
      -- the newline behind one of two equal statements would be all that is behind the other
      obtain ⟨-, hrest⟩ := StatementDerivation.eq_of_tokens_append first only'
        (h.trans (List.append_nil _).symm) (StatementDerivation.endsBefore_newline ht)
        StatementDerivation.endsBefore_nil
      cases hrest
  | last only =>
    cases d' with
    | done => exact absurd ((List.append_nil _).trans h) (only.tokens_append_ne_nil [])
    | newline t' ht' more' =>
      exact absurd ((List.append_nil _).trans h) (only.tokens_append_ne_cons ht' [] _)
    | statement first' t' ht' more' =>
      obtain ⟨-, hrest⟩ := StatementDerivation.eq_of_tokens_append only first'
        ((List.append_nil _).trans h) StatementDerivation.endsBefore_nil
        (StatementDerivation.endsBefore_newline ht')
      cases hrest
    | last only' =>
      obtain ⟨rfl, -⟩ := StatementDerivation.eq_of_tokens_append only only'
        (congrArg (· ++ []) h) StatementDerivation.endsBefore_nil
        StatementDerivation.endsBefore_nil
      rfl

end ProgramDerivation

end Grammar

end Peng
