import Peng.Proofs.Diagnostic.Location

/-!
# Spans of nodes

Where the nodes of a program stand, told by the tokens that they are written as. The main statement
is `node_spans_exact`: the span of a node reaches from its leftmost leaf or sign to its rightmost
leaf, the spans of its parts are inside of it and apart from each other, and every statement has a
line of its own.

## Shape of the proof

`Expr.WrittenAs` says which tokens an expression is written as and what its span is. It follows the
tree and not the rules, for a node of an expression may have been joined from parts of several
rules. Derivations give it (`Derivation.writtenAs`), and every node has it again
(`Expr.WrittenAs.of_mem_nodes`), so that each law is shown of one node and its parts. How spans lie
to each other then comes from the order of the tokens (`InOrder`).
-/

namespace Peng

open Grammar

/-! ## As it is written -/

/-- The expression is written as the tokens `ts`. Of the leaves and signs among them `first` is the
leftmost one, and of the leaves `last` is the rightmost one. A span reaches from the one to the
other, and parentheses around them are left out. -/
inductive Expr.WrittenAs : Expr → List Token → Token → Token → Prop where
  | leaf {t : Token} {e : Expr} (h : t.IsLeaf e) : WrittenAs e [t] t t
  | parenthesised {e : Expr} {ts : List Token} {left right first last : Token}
      (hleft : left.kind = .leftParen) (hright : right.kind = .rightParen)
      (h : e.WrittenAs ts first last) : WrittenAs e (left :: (ts ++ [right])) first last
  | signed {e : Expr} {ts : List Token} {t first last : Token} {sign : Sign}
      (hsign : (t.kind, sign) ∈ signs) (h : e.WrittenAs ts first last) :
      WrittenAs (.signed sign e (t.span.upTo last.span)) (t :: ts) t last
  | binary {left right : Expr} {ts us : List Token} {t first last first' last' : Token}
      {op : BinaryOp} (hop : (t.kind, op) ∈ sums ++ products)
      (hleft : left.WrittenAs ts first last) (hright : right.WrittenAs us first' last') :
      WrittenAs (.binary op left right (first.span.upTo last'.span)) (ts ++ t :: us) first last'

/-- The values of a print are written as the tokens, with commas between them. -/
inductive ValuesWrittenAs : List Expr → List Token → Prop where
  | single {e : Expr} {ts : List Token} {first last : Token} (h : e.WrittenAs ts first last) :
      ValuesWrittenAs [e] ts
  | cons {e : Expr} {es : List Expr} {ts us : List Token} {comma first last : Token}
      (hcomma : comma.kind = .comma) (h : e.WrittenAs ts first last)
      (more : ValuesWrittenAs es us) : ValuesWrittenAs (e :: es) (ts ++ comma :: us)

/-- The statement is written as the tokens. A print reaches from its first value to the last one,
and an assignment from its name to its value. -/
inductive Statement.WrittenAs : Statement → List Token → Prop where
  | print {say : Token} {e : Expr} {more : List Expr} {ts : List Token} (hsay : say.kind = .say)
      (h : ValuesWrittenAs (e :: more) ts) :
      WrittenAs (.print (e :: more) (e.span.upTo (more.getLastD e).span)) (say :: ts)
  | assign {name is first last : Token} {value : Expr} {ts : List Token}
      (hname : name.kind = .identifier) (his : is.kind = .is)
      (h : value.WrittenAs ts first last) :
      WrittenAs (.assign name.lexeme value (name.span.upTo value.span)) (name :: is :: ts)

theorem infix_append_cons (ts us : List Token) (t : Token) : us <:+: ts ++ t :: us :=
  ((List.suffix_cons t us).trans (List.suffix_append ts _)).isInfix

namespace Expr.WrittenAs

variable {e : Expr} {ts : List Token} {first last : Token}

theorem span_eq (h : e.WrittenAs ts first last) : e.span = first.span.upTo last.span := by
  induction h with
  | leaf h => cases h <;> rfl
  | parenthesised hleft hright h ih => exact ih
  | signed hsign h ih => rfl
  | binary hop hleft hright ihleft ihright => rfl

theorem span_within (h : e.WrittenAs ts first last) : e.span.Within ts := by
  induction h with
  | leaf h => exact (StandsIn.leaf h).span_within
  | parenthesised hleft hright h ih =>
    exact ih.mono ⟨[_], [_], rfl⟩
  | @signed e ts t first last sign hsign h ih =>
    have hspan := (Span.Within.singleton t).upTo ih
    rwa [h.span_eq] at hspan
  | @binary left right ts us t first last first' last' op hop hleft hright ihleft ihright =>
    have hspan := ihleft.upTo (ihright.mono (List.suffix_cons t us).isInfix)
    rwa [hleft.span_eq, hright.span_eq] at hspan

/-- Every node is written as tokens that follow each other. -/
theorem of_mem_nodes (h : e.WrittenAs ts first last) {node : Expr} (hnode : node ∈ e.nodes) :
    ∃ us first' last', us <:+: ts ∧ node.WrittenAs us first' last' := by
  induction h with
  | @leaf t e h =>
    have hself : e.nodes = [e] := by cases h <;> rfl
    rw [hself, List.mem_singleton] at hnode
    exact ⟨[t], t, t, List.infix_refl _, hnode ▸ .leaf h⟩
  | @parenthesised e ts left right first last hleft hright h ih =>
    obtain ⟨us, first', last', hus, hnode⟩ := ih hnode
    exact ⟨us, first', last', hus.trans ⟨[left], [right], rfl⟩, hnode⟩
  | @signed e ts t first last sign hsign h ih =>
    rw [nodes, List.mem_append, List.mem_singleton] at hnode
    obtain hnode | rfl := hnode
    · obtain ⟨us, first', last', hus, hnode⟩ := ih hnode
      exact ⟨us, first', last', hus.trans (List.suffix_cons t ts).isInfix, hnode⟩
    · exact ⟨_, _, _, List.infix_refl _, .signed hsign h⟩
  | @binary left right ts us t first last first' last' op hop hleft hright ihleft ihright =>
    rw [nodes, List.mem_append, List.mem_append, List.mem_singleton] at hnode
    obtain (hnode | hnode) | rfl := hnode
    · obtain ⟨vs, first', last', hvs, hnode⟩ := ihleft hnode
      exact ⟨vs, first', last', hvs.trans (List.prefix_append ts _).isInfix, hnode⟩
    · obtain ⟨vs, first', last', hvs, hnode⟩ := ihright hnode
      exact ⟨vs, first', last', hvs.trans (infix_append_cons ts us t), hnode⟩
    · exact ⟨_, _, _, List.infix_refl _, .binary hop hleft hright⟩

end Expr.WrittenAs

/-- Only parentheses stand before `first` and behind `last`, and these are a leaf or a sign and a
leaf. -/
structure AreEdges (ts : List Token) (first last : Token) : Prop where
  opens : ∃ before behind, ts = before ++ first :: behind ∧ ∀ t ∈ before, t.kind = .leftParen
  closes : ∃ before behind, ts = before ++ last :: behind ∧ ∀ t ∈ behind, t.kind = .rightParen
  first_eq : (∃ e, first.IsLeaf e) ∨ ∃ sign, (first.kind, sign) ∈ signs
  last_eq : ∃ e, last.IsLeaf e

theorem Expr.WrittenAs.areEdges {e : Expr} {ts : List Token} {first last : Token}
    (h : e.WrittenAs ts first last) : AreEdges ts first last := by
  induction h with
  | @leaf t e h =>
    exact ⟨⟨[], [], rfl, by simp⟩, ⟨[], [], rfl, by simp⟩, .inl ⟨e, h⟩, ⟨e, h⟩⟩
  | @parenthesised e ts left right first last hleft hright h ih =>
    obtain ⟨⟨before, behind, hopens, hbefore⟩, ⟨before', behind', hcloses, hbehind⟩, hfirst,
      hlast⟩ := ih
    refine ⟨⟨left :: before, behind ++ [right], by simp [hopens], ?_⟩,
      ⟨left :: before', behind' ++ [right], by simp [hcloses], ?_⟩, hfirst, hlast⟩
    · exact List.forall_mem_cons.mpr ⟨hleft, hbefore⟩
    · exact List.forall_mem_append.mpr ⟨hbehind, List.forall_mem_singleton.mpr hright⟩
  | @signed e ts t first last sign hsign h ih =>
    obtain ⟨before', behind', hcloses, hbehind⟩ := ih.closes
    exact ⟨⟨[], ts, rfl, by simp⟩, ⟨t :: before', behind', by simp [hcloses], hbehind⟩,
      .inr ⟨sign, hsign⟩, ih.last_eq⟩
  | @binary left right ts us t first last first' last' op hop hleft hright ihleft ihright =>
    obtain ⟨before, behind, hopens, hbefore⟩ := ihleft.opens
    obtain ⟨before', behind', hcloses, hbehind⟩ := ihright.closes
    exact ⟨⟨before, behind ++ t :: us, by simp [hopens], hbefore⟩,
      ⟨ts ++ t :: before', behind', by simp [hcloses], hbehind⟩, ihleft.first_eq, ihright.last_eq⟩

/-! ## Derived tokens -/

namespace Grammar

/-- What a rule stands for is written as the tokens. A repeated part is written behind the operand
that it is joined to, which keeps its first token. -/
def Rule.WrittenAs : (r : Rule) → r.Meaning → List Token → Prop
  | .moreTerms, more, ts | .moreFactors, more, ts => ∀ left lts first last,
    Expr.WrittenAs left lts first last →
      ∃ last', (joinAll left more).WrittenAs (lts ++ ts) first last'
  | .expression, e, ts | .term, e, ts | .unary, e, ts | .atom, e, ts =>
    ∃ first last, Expr.WrittenAs e ts first last

theorem writtenAs_joinAll_cons {right : Expr} {rts mts : List Token} {t first' last' : Token}
    {op : BinaryOp} {more : List (BinaryOp × Expr)} (hop : (t.kind, op) ∈ sums ++ products)
    (hright : right.WrittenAs rts first' last')
    (hmore : ∀ left lts first last, Expr.WrittenAs left lts first last →
      ∃ last', (joinAll left more).WrittenAs (lts ++ mts) first last')
    (left : Expr) (lts : List Token) (first last : Token) (hleft : left.WrittenAs lts first last) :
    ∃ last', (joinAll left ((op, right) :: more)).WrittenAs (lts ++ t :: (rts ++ mts)) first
      last' := by
  -- the operands are joined to the left, so what was joined is the left operand of what follows
  have hjoin : (left.join op right).WrittenAs (lts ++ t :: rts) first last' := by
    rw [Expr.join, hleft.span_eq, hright.span_eq]
    exact .binary hop hleft hright
  obtain ⟨last'', hall⟩ := hmore _ _ _ _ hjoin
  rw [List.append_assoc, List.cons_append] at hall
  exact ⟨last'', hall⟩

/-- What a derivation stands for is written as its tokens. -/
theorem Derivation.writtenAs {r : Rule} (d : Derivation r) : r.WrittenAs d.meaning d.tokens := by
  induction d with
  | sum left more ihleft ihmore | product left more ihleft ihmore =>
    obtain ⟨first, last, hleft⟩ := ihleft
    exact ⟨first, ihmore _ _ _ _ hleft⟩
  | noMoreTerms | noMoreFactors =>
    intro left lts first last hleft
    rw [tokens, List.append_nil]
    exact ⟨last, hleft⟩
  | nextTerm t op hop right more ihright ihmore =>
    obtain ⟨first, last, hright⟩ := ihright
    exact writtenAs_joinAll_cons (List.mem_append_left _ hop) hright ihmore
  | nextFactor t op hop right more ihright ihmore =>
    obtain ⟨first, last, hright⟩ := ihright
    exact writtenAs_joinAll_cons (List.mem_append_right _ hop) hright ihmore
  | unsigned operand ih => exact ih
  | signed t sign hsign operand ih =>
    obtain ⟨first, last, hoperand⟩ := ih
    refine ⟨t, last, ?_⟩
    rw [meaning, hoperand.span_eq]
    exact .signed hsign hoperand
  | leaf t e hleaf => exact ⟨t, t, .leaf hleaf⟩
  | parenthesised left right hleft hright inner ih =>
    obtain ⟨first, last, hinner⟩ := ih
    exact ⟨first, last, .parenthesised hleft hright hinner⟩

theorem NextValue.writtenAs {e : Expr} {ts : List Token} {first last : Token}
    (h : e.WrittenAs ts first last) (values : List NextValue) :
    ValuesWrittenAs (e :: values.map fun v => v.value.meaning) (ts ++ tokens values) := by
  induction values generalizing e ts first last with
  | nil =>
    rw [tokens, List.flatMap_nil, List.append_nil]
    exact .single h
  | cons v values ih =>
    obtain ⟨first', last', hvalue⟩ := v.value.writtenAs
    exact .cons v.hcomma h (ih hvalue)

/-- The statement of a derivation is written as its tokens. -/
theorem StatementDerivation.writtenAs (d : StatementDerivation) :
    d.meaning.WrittenAs d.tokens := by
  cases d with
  | print say hsay value more =>
    obtain ⟨first, last, hvalue⟩ := value.writtenAs
    exact .print hsay (NextValue.writtenAs hvalue more)
  | assign name is hname his value =>
    obtain ⟨first, last, hvalue⟩ := value.writtenAs
    exact .assign hname his hvalue

end Grammar

/-! ## The order of tokens -/

theorem Position.advanceOver_line (p : Position) (text : List Char) :
    (p.advanceOver text).line = p.line + text.count '\n' := by
  induction text generalizing p with
  | nil => rfl
  | cons c text ih =>
    rw [advanceOver_cons, ih, advance, List.count_cons]
    split
    case isTrue hc => simp [hc, Nat.add_comm, Nat.add_left_comm]
    case isFalse hc => simp [hc]

/-- The tokens come one behind the other, none of them is empty, and a newline ends its line. -/
structure InOrder (ts : List Token) : Prop where
  pairwise : ts.Pairwise fun t u =>
    t.span.finish.offset ≤ u.span.start.offset ∧ t.span.finish.line ≤ u.span.start.line
  offset_lt : ∀ t ∈ ts, t.span.start.offset < t.span.finish.offset
  line_lt : ∀ t ∈ ts, t.kind = .newline → t.span.start.line < t.span.finish.line

theorem Scanned.pairwise_line {p : Position} {cs : List Char} {ts : List Token}
    (h : Scanned p cs ts) : ts.Pairwise fun t u => t.span.finish.line ≤ u.span.start.line := by
  induction h with
  | done => exact List.pairwise_singleton _ _
  | token hgap ht htext more ih =>
    refine List.pairwise_cons.mpr ⟨fun u hu => ?_, ih⟩
    obtain ⟨before, text, after, -, hu⟩ := more.exists_covers hu
    rw [ht.span_eq, hu.span_eq]
    simp [Span.covering, Position.advanceOver_line]

/-- The tokens before the end of a source are in order. -/
theorem Scanned.inOrder {p : Position} {cs : List Char} {ts us : List Token}
    (h : Scanned p cs ts) (hus : us <:+: ts) (hend : ∀ t ∈ us, t.kind ≠ .endOfInput) :
    InOrder us where
  pairwise := (h.pairwise.and h.pairwise_line).sublist hus.sublist
  offset_lt t ht := by
    obtain ⟨before, text, after, -, hcovers⟩ := h.exists_covers (hus.subset ht)
    have hlength : 0 < text.length :=
      List.length_pos_iff.mpr fun hnil => hend t ht (hcovers.text_eq_nil_iff.mp hnil)
    rw [hcovers.span_eq]
    simp only [Span.covering, Position.advanceOver_offset]
    omega
  line_lt t ht hnewline := by
    obtain ⟨before, text, after, -, hcovers⟩ := h.exists_covers (hus.subset ht)
    rw [hcovers.span_eq, hcovers.keepsLine.1 hnewline]
    simp only [Span.covering, Position.advanceOver_line]
    simp

/-- The one stretch ends before the other begins. -/
def Span.Before (s t : Span) : Prop :=
  s.finish.offset < t.start.offset

/-- The stretches `inner` are inside of `outer`, one behind the other. -/
structure Span.Holds (outer : Span) (inner : List Span) : Prop where
  inside : ∀ s ∈ inner,
    outer.start.offset ≤ s.start.offset ∧ s.finish.offset ≤ outer.finish.offset
  apart : inner.Pairwise Before

theorem Span.Holds.singleton {outer s : Span} (hstart : outer.start.offset ≤ s.start.offset)
    (hfinish : s.finish.offset ≤ outer.finish.offset) : outer.Holds [s] where
  inside := List.forall_mem_singleton.mpr ⟨hstart, hfinish⟩
  apart := List.pairwise_singleton _ _

/-- Stretches that lie apart are inside of the one from the first to the last of them. -/
theorem Span.holds_upTo {s : Span} {more : List Span} (hapart : (s :: more).Pairwise Before)
    (hlt : ∀ t ∈ s :: more, t.start.offset < t.finish.offset) :
    (s.upTo (more.getLastD s)).Holds (s :: more) := by
  refine ⟨fun t ht => ⟨?_, ?_⟩, hapart⟩
  · obtain rfl | hmore := List.mem_cons.mp ht
    · exact Nat.le_refl _
    · have hs := hlt s List.mem_cons_self
      have hbefore : s.finish.offset < t.start.offset := (List.pairwise_cons.mp hapart).1 t hmore
      exact (hs.trans hbefore).le
  · rcases more.eq_nil_or_concat with rfl | ⟨front, last, rfl⟩
    · obtain rfl := List.mem_singleton.mp ht
      exact Nat.le_refl _
    · rw [List.concat_eq_append] at hapart hlt ht ⊢
      rw [List.getLastD_concat]
      rw [← List.cons_append] at hapart hlt ht
      obtain hfront | hlast := List.mem_append.mp ht
      · have hlast := hlt last (by simp)
        have hbefore : t.finish.offset < last.start.offset :=
          (List.pairwise_append.mp hapart).2.2 t hfront last (by simp)
        exact (hbefore.trans hlast).le
      · obtain rfl := List.mem_singleton.mp hlast
        exact Nat.le_refl _

namespace Span.Within

variable {s s' : Span} {ts us : List Token}

theorem exists_edges (h : s.Within ts) :
    ∃ first ∈ ts, ∃ last ∈ ts, s = first.span.upTo last.span := by
  obtain ⟨first, more, hpart, rfl⟩ := h
  exact ⟨first, hpart.subset List.mem_cons_self, _, hpart.subset List.getLastD_mem_cons, rfl⟩

end Span.Within

namespace InOrder

variable {s s' : Span} {ts us : List Token} {t : Token}

theorem mono (h : InOrder us) (hts : ts <:+: us) : InOrder ts where
  pairwise := h.pairwise.sublist hts.sublist
  offset_lt t ht := h.offset_lt t (hts.subset ht)
  line_lt t ht := h.line_lt t (hts.subset ht)

theorem front (h : InOrder (ts ++ t :: us)) : InOrder ts :=
  h.mono (List.prefix_append ts _).isInfix

theorem behind (h : InOrder (ts ++ t :: us)) : InOrder us :=
  h.mono (infix_append_cons ts us t)

/-- A span within tokens is not empty. -/
theorem start_lt_finish (h : InOrder ts) (hs : s.Within ts) :
    s.start.offset < s.finish.offset := by
  obtain ⟨first, more, hpart, rfl⟩ := hs
  have hpart := h.mono hpart
  have hfirst := hpart.offset_lt first List.mem_cons_self
  rcases more.eq_nil_or_concat with rfl | ⟨front, last, rfl⟩
  · exact hfirst
  · have hlast := hpart.offset_lt last (List.mem_cons_of_mem first (by simp))
    have hle := ((List.pairwise_cons.mp hpart.pairwise).1 last (by simp)).1
    simp only [Span.upTo, List.concat_eq_append, List.getLastD_concat]
    omega

/-- Spans with a token between them. -/
theorem before_of_within (h : InOrder (ts ++ t :: us)) (hs : s.Within ts) (hs' : s'.Within us) :
    s.Before s' ∧ (t.kind = .newline → s.finish.line < s'.start.line) := by
  -- the last token of the one and the first of the other have `t` between them
  obtain ⟨-, -, last, hlast, rfl⟩ := hs.exists_edges
  obtain ⟨first, hfirst, -, -, rfl⟩ := hs'.exists_edges
  obtain ⟨-, hbehind, hbefore⟩ := List.pairwise_append.mp h.pairwise
  have ht : t ∈ ts ++ t :: us := by simp
  have hlast := hbefore last hlast t List.mem_cons_self
  have hfirst := (List.pairwise_cons.mp hbehind).1 first hfirst
  constructor
  · exact Nat.lt_of_le_of_lt hlast.1 (Nat.lt_of_lt_of_le (h.offset_lt t ht) hfirst.1)
  · intro hnewline
    exact Nat.lt_of_le_of_lt hlast.2 (Nat.lt_of_lt_of_le (h.line_lt t ht hnewline) hfirst.2)

/-- A token and a span behind it. -/
theorem finish_le_of_within (h : InOrder (t :: ts)) (hs : s.Within ts) :
    t.span.finish.offset ≤ s.start.offset := by
  obtain ⟨first, hfirst, -, -, rfl⟩ := hs.exists_edges
  exact ((List.pairwise_cons.mp h.pairwise).1 first hfirst).1

theorem start_le_of_within (h : InOrder (t :: ts)) (hs : s.Within ts) :
    t.span.start.offset ≤ s.start.offset :=
  (h.offset_lt t List.mem_cons_self).le.trans (h.finish_le_of_within hs)

end InOrder

/-! ## Nodes and their parts -/

/-- The operands of a node. -/
def Expr.children : Expr → List Expr
  | .binary _ left right _ => [left, right]
  | .signed _ operand _ => [operand]
  | .number .. | .text .. | .variable .. => []

/-- The spans of the operands are inside of that of the node. -/
theorem Expr.WrittenAs.holds {e : Expr} {ts : List Token} {first last : Token}
    (h : e.WrittenAs ts first last) (hts : InOrder ts) :
    e.span.Holds (e.children.map Expr.span) := by
  induction h with
  | leaf h =>
    cases h <;> exact ⟨by simp [children], by simp [children]⟩
  | parenthesised hleft hright h ih => exact ih (hts.mono ⟨[_], [_], rfl⟩)
  | @signed e ts t first last sign hsign h ih =>
    refine .singleton (hts.start_le_of_within h.span_within) ?_
    rw [h.span_eq]
    exact Nat.le_refl _
  | @binary left right ts us t first last first' last' op hop hleft hright ihleft ihright =>
    have hbefore := (hts.before_of_within hleft.span_within hright.span_within).1
    have hleft' := hts.front.start_lt_finish hleft.span_within
    have hright' := hts.behind.start_lt_finish hright.span_within
    have hholds := @Span.holds_upTo left.span [right.span] (by simpa using hbefore)
      (List.forall_mem_cons.mpr ⟨hleft', List.forall_mem_singleton.mpr hright'⟩)
    have hspan : left.span.upTo right.span = first.span.upTo last'.span := by
      rw [hleft.span_eq, hright.span_eq]
      rfl
    rw [Expr.span, ← hspan]
    exact hholds

namespace ValuesWrittenAs

variable {e : Expr} {es more : List Expr} {ts : List Token}

theorem exists_writtenAs (h : ValuesWrittenAs es ts) : ∀ e ∈ es,
    ∃ us first last, us <:+: ts ∧ e.WrittenAs us first last := by
  induction h with
  | single h => exact List.forall_mem_singleton.mpr ⟨_, _, _, List.infix_refl _, h⟩
  | @cons e es ts us comma first last hcomma h more ih =>
    refine List.forall_mem_cons.mpr ⟨?_, fun e' he' => ?_⟩
    · exact ⟨ts, first, last, (List.prefix_append ts _).isInfix, h⟩
    · obtain ⟨vs, first', last', hvs, hvalue⟩ := ih e' he'
      exact ⟨vs, first', last', hvs.trans (infix_append_cons ts us comma), hvalue⟩

theorem span_within (h : ValuesWrittenAs es ts) : ∀ e ∈ es, e.span.Within ts := by
  intro e he
  obtain ⟨us, first, last, hus, hvalue⟩ := h.exists_writtenAs e he
  exact hvalue.span_within.mono hus

/-- The values of a print lie apart from each other. -/
theorem apart (h : ValuesWrittenAs es ts) (hts : InOrder ts) :
    (es.map Expr.span).Pairwise Span.Before := by
  induction h with
  | single h => exact List.pairwise_singleton _ _
  | cons hcomma h more ih =>
    refine List.pairwise_cons.mpr ⟨List.forall_mem_map.mpr fun e' he' => ?_, ih hts.behind⟩
    exact (hts.before_of_within h.span_within (more.span_within e' he')).1

theorem holds (h : ValuesWrittenAs (e :: more) ts) (hts : InOrder ts) :
    (e.span.upTo (more.getLastD e).span).Holds ((e :: more).map Expr.span) := by
  rw [← getLastD_map Expr.span]
  refine Span.holds_upTo (h.apart hts) ?_
  rw [← List.map_cons, List.forall_mem_map]
  exact fun e' he' => hts.start_lt_finish (h.span_within e' he')

/-- All values together keep within their tokens. -/
theorem upTo_within (h : ValuesWrittenAs (e :: more) ts) :
    (e.span.upTo (more.getLastD e).span).Within ts := by
  induction more generalizing e ts with
  | nil =>
    cases h with
    | single h => exact h.span_within
    | cons hcomma h more => cases more
  | cons e' more ih =>
    cases h with | @cons _ _ ts us comma first last hcomma h hmore =>
    have hspan := h.span_within.upTo ((ih hmore).mono (List.suffix_cons comma us).isInfix)
    rw [List.getLastD_cons]
    exact hspan

end ValuesWrittenAs

namespace Statement.WrittenAs

variable {s : Statement} {ts : List Token}

theorem exists_writtenAs (h : s.WrittenAs ts) : ∀ e ∈ s.expressions,
    ∃ us first last, us <:+: ts ∧ e.WrittenAs us first last := by
  cases h with
  | @print say e more ts hsay h =>
    intro e' he'
    obtain ⟨us, first, last, hus, hvalue⟩ := h.exists_writtenAs e' he'
    exact ⟨us, first, last, hus.trans (List.suffix_cons say ts).isInfix, hvalue⟩
  | @assign name is first last value ts hname his h =>
    exact List.forall_mem_singleton.mpr
      ⟨ts, first, last, (List.suffix_append [name, is] ts).isInfix, h⟩

theorem span_within (h : s.WrittenAs ts) : s.span.Within ts := by
  cases h with
  | @print say e more ts hsay h =>
    exact h.upTo_within.mono (List.suffix_cons say ts).isInfix
  | @assign name is first last value ts hname his h =>
    exact (Span.Within.singleton name).upTo (h.span_within.mono (List.suffix_cons is ts).isInfix)

/-- The spans of the values are inside of that of the statement. -/
theorem holds (h : s.WrittenAs ts) (hts : InOrder ts) :
    s.span.Holds (s.expressions.map Expr.span) := by
  cases h with
  | @print say e more ts hsay h => exact h.holds (hts.mono (List.suffix_cons say ts).isInfix)
  | @assign name is first last value ts hname his h =>
    refine .singleton ?_ (Nat.le_refl _)
    exact hts.start_le_of_within (h.span_within.mono (List.suffix_cons is ts).isInfix)

end Statement.WrittenAs

/-! ## Programs -/

namespace Grammar.ProgramDerivation

theorem exists_writtenAs (d : ProgramDerivation) : ∀ s ∈ d.statements,
    ∃ ts, ts <:+: d.tokens ∧ (∀ t ∈ ts, t.kind ≠ .newline) ∧ s.WrittenAs ts := by
  intro s hs
  obtain ⟨d', rfl, hinfix⟩ := d.exists_statement_of_mem hs
  exact ⟨d'.tokens, hinfix, d'.kind_ne_newline, d'.writtenAs⟩

theorem span_within (d : ProgramDerivation) : ∀ s ∈ d.statements, s.span.Within d.tokens := by
  intro s hs
  obtain ⟨ts, hts, -, hwritten⟩ := d.exists_writtenAs s hs
  exact hwritten.span_within.mono hts

/-- The statements lie apart from each other, and on lines of their own. -/
theorem pairwise (d : ProgramDerivation) (h : InOrder d.tokens) :
    d.statements.Pairwise fun s s' =>
      s.span.Before s'.span ∧ s.span.finish.line < s'.span.start.line := by
  induction d with
  | done => exact .nil
  | newline t ht more ih => exact ih (h.mono (List.suffix_cons t _).isInfix)
  | statement first t ht more ih =>
    refine List.pairwise_cons.mpr ⟨fun s hs => ?_, ih h.behind⟩
    have hbefore := h.before_of_within first.writtenAs.span_within (more.span_within s hs)
    exact ⟨hbefore.1, hbefore.2 ht⟩
  | last only => exact List.pairwise_singleton _ _

end Grammar.ProgramDerivation

/-- The spans of a program are those of the tokens of its source that it is written as. -/
structure HasExactSpans (name source : String) (tokens : List Token) (program : Program) :
    Prop where
  /-- Statements, with all of their nodes, are written as tokens that follow each other. -/
  statement_written : ∀ s ∈ program.statements, ∃ ts, ts <:+: tokens ∧ s.WrittenAs ts
  /-- The word before the values of a print is outside of it. -/
  say_outside : ∀ values span, .print values span ∈ program.statements →
    ∃ say ts, say :: ts <:+: tokens ∧ say.kind = .say ∧ ValuesWrittenAs values ts ∧
      say.span.finish.offset ≤ span.start.offset
  /-- A node reaches from its leftmost leaf or sign to its rightmost leaf, without the parentheses
  that stand around them. -/
  node_written : ∀ s ∈ program.statements, ∀ e ∈ s.expressions, ∀ node ∈ e.nodes,
    ∃ ts first last, ts <:+: tokens ∧ node.WrittenAs ts first last ∧ AreEdges ts first last ∧
      node.span = first.span.upTo last.span
  /-- A program reaches from its first to its last statement. -/
  program_span : ∀ first more, program.statements = first :: more →
    program.span = first.span.upTo (more.getLastD first).span
  /-- One without statements is at the end of the input, which is empty. -/
  empty_span : program.statements = [] → ∃ e ∈ tokens, e.kind = .endOfInput ∧
    program.span = e.span ∧ e.span = .empty (endOfText name source)
  node_holds : ∀ s ∈ program.statements, ∀ e ∈ s.expressions, ∀ node ∈ e.nodes,
    node.span.Holds (node.children.map Expr.span)
  statement_holds : ∀ s ∈ program.statements, s.span.Holds (s.expressions.map Expr.span)
  program_holds : program.span.Holds (program.statements.map Statement.span)
  /-- Every statement stands on one line. -/
  one_line : ∀ s ∈ program.statements, s.span.start.line = s.span.finish.line ∧
    '\n' ∉ (source.toList.take s.span.finish.offset).drop s.span.start.offset
  /-- The next one stands on a later line. -/
  later_line : program.statements.Pairwise fun s s' => s.span.finish.line < s'.span.start.line

/-- A span within tokens of one line stands on that line. -/
theorem Scanned.one_line_of_within {name source : String} {ts line : List Token}
    (h : Scanned (.start name) source.toList ts) (hline : line <:+: ts)
    (hkinds : ∀ t ∈ line, t.kind ≠ .newline ∧ t.kind ≠ .endOfInput) {s : Span}
    (hs : s.Within line) : s.start.line = s.finish.line ∧
      '\n' ∉ (source.toList.take s.finish.offset).drop s.start.offset := by
  obtain ⟨before, text, after, hsource, rfl, -, hnewline⟩ := h.exists_of_within hline hkinds hs
  have hcount : text.count '\n' = 0 := List.count_eq_zero.mpr hnewline
  constructor
  · simp only [Span.covering, Position.advanceOver_line, hcount, Nat.add_zero]
  · rw [Span.covering, ← hsource]
    simp only [Position.advanceOver_offset, Position.start_offset, Nat.zero_add]
    rw [← List.length_append, List.take_left, List.drop_left]
    exact hnewline

/-- The spans of statements that lie apart are inside of that of the program. -/
theorem Reader.programOf_holds (r : Reader) {ss : List Statement}
    (hapart : ss.Pairwise fun s s' => s.span.Before s'.span)
    (hlt : ∀ s ∈ ss, s.span.start.offset < s.span.finish.offset) :
    (r.programOf ss).span.Holds (ss.map Statement.span) := by
  cases ss with
  | nil => exact ⟨nofun, .nil⟩
  | cons first more =>
    rw [programOf, ← getLastD_map Statement.span]
    refine Span.holds_upTo ?_ ?_
    · rw [← List.map_cons]
      exact List.pairwise_map.mpr hapart
    · rw [← List.map_cons, List.forall_mem_map]
      exact hlt

/-- In a source that is a program, every node stands where its tokens do: parts are inside of what
they are part of, and every statement has a line of its own. -/
theorem node_spans_exact {name source : String} {tokens : List Token} {program : Program}
    (hscan : scan name source = .ok tokens) (hparse : parse tokens = .ok program) :
    HasExactSpans name source tokens program := by
  have hscanned := Scanned.of_scanFrom hscan
  obtain ⟨ahead, rfl, hahead⟩ := scan_ok hscan
  obtain ⟨ss, hstatements, rfl⟩ := parse_eq_ok_iff.mp hparse
  rw [Reader.ofTokens_concat hahead rfl] at hstatements ⊢
  obtain ⟨d, rfl, rfl⟩ := statements_ok_iff.mp hstatements
  have hinfix : d.tokens <:+: d.tokens ++ [.atEnd (endOfText name source)] :=
    (List.prefix_append _ _).isInfix
  have horder : InOrder d.tokens := hscanned.inOrder hinfix hahead
  have hpairwise := d.pairwise horder
  have hnode : ∀ s ∈ d.statements, ∀ e ∈ s.expressions, ∀ node ∈ e.nodes,
      ∃ ts first last, ts <:+: d.tokens ∧ node.WrittenAs ts first last := by
    intro s hs e he node hnode
    obtain ⟨ts, hts, -, hwritten⟩ := d.exists_writtenAs s hs
    obtain ⟨us, first, last, hus, hvalue⟩ := hwritten.exists_writtenAs e he
    obtain ⟨vs, first', last', hvs, hnode⟩ := hvalue.of_mem_nodes hnode
    exact ⟨vs, first', last', (hvs.trans hus).trans hts, hnode⟩
  constructor
  all_goals rw [Reader.statements_programOf]
  case statement_written =>
    intro s hs
    obtain ⟨ts, hts, -, hwritten⟩ := d.exists_writtenAs s hs
    exact ⟨ts, hts.trans hinfix, hwritten⟩
  case say_outside =>
    intro values span hprint
    obtain ⟨ts, hts, -, hwritten⟩ := d.exists_writtenAs _ hprint
    cases hwritten with | @print say e more ts hsay h =>
    refine ⟨say, ts, hts.trans hinfix, hsay, h, ?_⟩
    exact (horder.mono hts).finish_le_of_within h.upTo_within
  case node_written =>
    intro s hs e he node hmem
    obtain ⟨ts, first, last, hts, hwritten⟩ := hnode s hs e he node hmem
    exact ⟨ts, first, last, hts.trans hinfix, hwritten, hwritten.areEdges, hwritten.span_eq⟩
  case program_span =>
    intro first more hstatements
    rw [hstatements]
    rfl
  case empty_span =>
    intro hnil
    refine ⟨.atEnd (endOfText name source), by simp, rfl, ?_, rfl⟩
    rw [hnil]
    rfl
  case node_holds =>
    intro s hs e he node hmem
    obtain ⟨ts, first, last, hts, hwritten⟩ := hnode s hs e he node hmem
    exact hwritten.holds (horder.mono hts)
  case statement_holds =>
    intro s hs
    obtain ⟨ts, hts, -, hwritten⟩ := d.exists_writtenAs s hs
    exact hwritten.holds (horder.mono hts)
  case program_holds =>
    exact Reader.programOf_holds _ (hpairwise.imp And.left)
      fun s hs => horder.start_lt_finish (d.span_within s hs)
  case one_line =>
    intro s hs
    obtain ⟨ts, hts, hnewline, hwritten⟩ := d.exists_writtenAs s hs
    exact hscanned.one_line_of_within (hts.trans hinfix)
      (fun t ht => ⟨hnewline t ht, hahead t (hts.subset ht)⟩) hwritten.span_within
  case later_line => exact hpairwise.imp And.right

/-- Parentheses at both edges of operands, a print of two values, and an empty line. -/
theorem node_spans_exact_parenthesised :
    ∃ tokens program, scan "a.peng" "say -(1 + x) * (2), (x)\n\ny is ((3) / 4) - 5" = .ok tokens ∧
      parse tokens = .ok program ∧ program.statements.length = 2 ∧
      HasExactSpans "a.peng" "say -(1 + x) * (2), (x)\n\ny is ((3) / 4) - 5" tokens program := by
  have hlength : ((scan "a.peng" "say -(1 + x) * (2), (x)\n\ny is ((3) / 4) - 5").toOption.bind
      fun tokens => (parse tokens).toOption.map (·.statements.length)) = some 2 := by
    decide +kernel
  cases hscan : scan "a.peng" "say -(1 + x) * (2), (x)\n\ny is ((3) / 4) - 5" with
  | error fault =>
    rw [hscan] at hlength
    cases hlength
  | ok tokens =>
    rw [hscan] at hlength
    cases hparse : parse tokens with
    | error fault =>
      rw [Except.toOption, Option.bind_some, hparse] at hlength
      cases hlength
    | ok program =>
      rw [Except.toOption, Option.bind_some, hparse] at hlength
      exact ⟨tokens, program, rfl, hparse, Option.some.inj hlength, node_spans_exact hscan hparse⟩

end Peng
