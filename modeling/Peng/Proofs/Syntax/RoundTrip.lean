import Mathlib.Data.List.Forall2
import Peng.Proofs.Source.Lines
import Peng.Proofs.Syntax.Rendering

/-!
# Parsing what was rendered

Source text that statements were rendered as is parsed into the same statements again. The main
statement is `parse_rendered`.

## Shape of the proof

Of the tokens that an expression is scanned as, `ReadsAt` says that some rule of the grammar derives
them: the more tightly the words hold together, the deeper the rule (`ReadsAt.of_le`). The induction
over a rendering is `Expr.Renders.readsAt`. An operator is put behind what is there of a sum or a
product already (`Derivation.exists_sum`, `Derivation.exists_product`), for the grammar groups to
the left while the derivation of a repeated part begins at its first operator.
-/

namespace Peng

open Grammar

/-! ## Operators behind a repeated part -/

namespace Grammar.Derivation

theorem exists_moreTerms_concat (t : Token) {op : BinaryOp} (hop : (t.kind, op) ∈ sums)
    (right : Derivation .term) :
    (more : Derivation .moreTerms) → ∃ more' : Derivation .moreTerms,
      more'.tokens = more.tokens ++ t :: right.tokens ∧
      more'.meaning = more.meaning ++ [(op, right.meaning)]
  | .noMoreTerms => ⟨.nextTerm t op hop right .noMoreTerms, by simp [tokens], rfl⟩
  | .nextTerm u op' hop' right' more => by
    obtain ⟨more', htokens, hmeaning⟩ := exists_moreTerms_concat t hop right more
    refine ⟨.nextTerm u op' hop' right' more', ?_, ?_⟩
    · simp [tokens, htokens]
    · simp [meaning, hmeaning]

theorem exists_moreFactors_concat (t : Token) {op : BinaryOp} (hop : (t.kind, op) ∈ products)
    (right : Derivation .unary) :
    (more : Derivation .moreFactors) → ∃ more' : Derivation .moreFactors,
      more'.tokens = more.tokens ++ t :: right.tokens ∧
      more'.meaning = more.meaning ++ [(op, right.meaning)]
  | .noMoreFactors => ⟨.nextFactor t op hop right .noMoreFactors, by simp [tokens], rfl⟩
  | .nextFactor u op' hop' right' more => by
    obtain ⟨more', htokens, hmeaning⟩ := exists_moreFactors_concat t hop right more
    refine ⟨.nextFactor u op' hop' right' more', ?_, ?_⟩
    · simp [tokens, htokens]
    · simp [meaning, hmeaning]

/-- One more operand behind a sum. -/
theorem exists_sum (d : Derivation .expression) (t : Token) {op : BinaryOp}
    (hop : (t.kind, op) ∈ sums) (right : Derivation .term) :
    ∃ d' : Derivation .expression, d'.tokens = d.tokens ++ t :: right.tokens ∧
      d'.meaning = Expr.join op d.meaning right.meaning := by
  cases d with | sum first more =>
  obtain ⟨more', htokens, hmeaning⟩ := exists_moreTerms_concat t hop right more
  refine ⟨.sum first more', ?_, ?_⟩
  · rw [tokens, htokens, tokens, List.append_assoc]
  · rw [meaning, hmeaning]
    exact List.foldl_append

/-- One more operand behind a product. -/
theorem exists_product (d : Derivation .term) (t : Token) {op : BinaryOp}
    (hop : (t.kind, op) ∈ products) (right : Derivation .unary) :
    ∃ d' : Derivation .term, d'.tokens = d.tokens ++ t :: right.tokens ∧
      d'.meaning = Expr.join op d.meaning right.meaning := by
  cases d with | product first more =>
  obtain ⟨more', htokens, hmeaning⟩ := exists_moreFactors_concat t hop right more
  refine ⟨.product first more', ?_, ?_⟩
  · rw [tokens, htokens, tokens, List.append_assoc]
  · rw [meaning, hmeaning]
    exact List.foldl_append

end Grammar.Derivation

/-! ## Expressions -/

/-- The tokens are derived by the rule that holds them together as tightly as the number says, and
stand for the expression, wherever it is. -/
def ReadsAt (e : Expr) (ts : List Token) : Nat → Prop
  | 0 => ∃ d : Derivation .expression, d.tokens = ts ∧ Expr.unplaced d.meaning = e.unplaced
  | 1 => ∃ d : Derivation .term, d.tokens = ts ∧ Expr.unplaced d.meaning = e.unplaced
  | 2 => ∃ d : Derivation .unary, d.tokens = ts ∧ Expr.unplaced d.meaning = e.unplaced
  | _ => ∃ d : Derivation .atom, d.tokens = ts ∧ Expr.unplaced d.meaning = e.unplaced

namespace ReadsAt

variable {e left right : Expr} {ts lefts rights : List Token} {m n : Nat} {t : Token}

theorem of_succ (h : ReadsAt e ts (n + 1)) : ReadsAt e ts n := by
  match n, h with
  | 0, ⟨d, htokens, hmeaning⟩ =>
    refine ⟨.sum d .noMoreTerms, ?_, hmeaning⟩
    rw [Derivation.tokens, Derivation.tokens, List.append_nil, htokens]
  | 1, ⟨d, htokens, hmeaning⟩ =>
    refine ⟨.product d .noMoreFactors, ?_, hmeaning⟩
    rw [Derivation.tokens, Derivation.tokens, List.append_nil, htokens]
  | 2, ⟨d, htokens, hmeaning⟩ => exact ⟨.unsigned d, htokens, hmeaning⟩
  | _ + 3, h => exact h

/-- What holds together tightly holds together. -/
theorem of_le (hle : m ≤ n) (h : ReadsAt e ts n) : ReadsAt e ts m := by
  induction hle with
  | refl => exact h
  | step _ ih => exact ih h.of_succ

/-- A node is what it is, wherever its operands are. -/
theorem unplaced_join {e e' : Expr} (he : e.unplaced = left.unplaced)
    (he' : e'.unplaced = right.unplaced) (op : BinaryOp) (span : Span) :
    (e.join op e').unplaced = (Expr.binary op left right span).unplaced := by
  rw [Expr.unplaced, Expr.join, Expr.relocate, ← Expr.unplaced, ← Expr.unplaced, he, he']
  rfl

theorem binary {op : BinaryOp} (hleft : ReadsAt left lefts m) (hright : ReadsAt right rights n)
    (hm : op.precedence ≤ m) (hn : op.precedence < n) (ht : t.kind = (Word.operator op).kind)
    (span : Span) : ReadsAt (.binary op left right span) (lefts ++ t :: rights) op.precedence := by
  have hleft := hleft.of_le hm
  have hright := hright.of_le hn
  cases op with
  | add | subtract =>
    obtain ⟨d, rfl, hd⟩ := hleft
    obtain ⟨d', rfl, hd'⟩ := hright
    obtain ⟨both, htokens, hmeaning⟩ := d.exists_sum t (mem_sums.mpr (by rw [ht]; rfl)) d'
    exact ⟨both, htokens, hmeaning ▸ unplaced_join hd hd' _ span⟩
  | multiply | divide =>
    obtain ⟨d, rfl, hd⟩ := hleft
    obtain ⟨d', rfl, hd'⟩ := hright
    obtain ⟨both, htokens, hmeaning⟩ := d.exists_product t (mem_products.mpr (by rw [ht]; rfl)) d'
    exact ⟨both, htokens, hmeaning ▸ unplaced_join hd hd' _ span⟩

theorem signed {sign : Sign} (h : ReadsAt e ts tightest) (ht : t.kind = (Word.sign sign).kind)
    (span : Span) : ReadsAt (.signed sign e span) (t :: ts) 2 := by
  obtain ⟨d, rfl, hd⟩ := h
  have hsign : (t.kind, sign) ∈ signs := mem_signs.mpr (by rw [ht]; cases sign <;> rfl)
  refine ⟨.signed t sign hsign d, rfl, ?_⟩
  rw [Derivation.meaning, Expr.unplaced, Expr.relocate, ← Expr.unplaced, hd]
  rfl

theorem wrapped {opens closes : Token} (h : ReadsAt e ts n) (hopens : opens.kind = .leftParen)
    (hcloses : closes.kind = .rightParen) : ReadsAt e (opens :: (ts ++ [closes])) tightest := by
  obtain ⟨d, rfl, hd⟩ := h.of_le (Nat.zero_le n)
  exact ⟨.parenthesised opens closes hopens hcloses d, rfl, hd⟩

theorem leaf {e' : Expr} (h : t.IsLeaf e') (he : e'.unplaced = e.unplaced) :
    ReadsAt e [t] tightest :=
  ⟨.leaf t e' h, rfl, he⟩

end ReadsAt

/-- A whole number is the nearest number to its digits. -/
theorem nearestWhole_of_whole? {text : List Char} {v : Int} {x : Float} (h : whole? text = some v)
    (hx : decimal? text = some x) : nearestWhole v = x := by
  unfold whole? at h
  split at h
  case isTrue hdigits =>
    have hdecimal := decimal?_whole hdigits.1 (List.all_eq_true.mp hdigits.2.1)
    obtain rfl := Option.some.inj (hdecimal.symm.trans hx)
    obtain rfl := Option.some.inj h
    rw [nearestWhole, if_neg (by omega), readNumeral, List.append_nil]
    rfl
  case isFalse => cases h

/-- The token of a number lexeme stands for the number that is nearest to it. -/
theorem exists_isLeaf_of_number {kind : Token.Kind} {text : List Char} {x : Float} {t : Token}
    (h : IsNumber kind text) (hx : decimal? text = some x) (ht : (Word.number h).Gives t) :
    t.IsLeaf (.number x t.span) := by
  have hkind : t.kind = kind := ht.kind_eq
  have hdenotes : Denotes kind text t.literal := ht.denotes
  generalize hliteral : t.literal = literal at hdenotes
  cases hdenotes with
  | whole hwhole => exact nearestWhole_of_whole? hwhole hx ▸ .integer hkind hliteral
  | large hwhole hx' =>
    obtain rfl := Option.some.inj (hx'.symm.trans hx)
    exact .largeInteger hkind hliteral
  | decimal hx' =>
    obtain rfl := Option.some.inj (hx'.symm.trans hx)
    exact .float hkind hliteral
  | text => cases h
  | nothing hinteger hfloat _ =>
    obtain ⟨hkind, -⟩ | ⟨hkind, -⟩ := h.count_point
    · exact absurd hkind hinteger
    · exact absurd hkind hfloat

theorem exists_append_of_forall₂ {words more : List Word} {ts : List Token}
    (h : List.Forall₂ Word.Gives (words ++ more) ts) :
    ∃ us vs, ts = us ++ vs ∧ List.Forall₂ Word.Gives words us ∧ List.Forall₂ Word.Gives more vs := by
  induction words generalizing ts with
  | nil => exact ⟨[], ts, rfl, .nil, h⟩
  | cons w words ih =>
    obtain ⟨t, ts, ht, hts, rfl⟩ := List.forall₂_cons_left_iff.mp h
    obtain ⟨us, vs, rfl, hus, hvs⟩ := ih hts
    exact ⟨t :: us, vs, rfl, .cons ht hus, hvs⟩

theorem exists_singleton_of_forall₂ {w : Word} {ts : List Token}
    (h : List.Forall₂ Word.Gives [w] ts) : ∃ t, ts = [t] ∧ w.Gives t := by
  obtain ⟨t, us, ht, hus, rfl⟩ := List.forall₂_cons_left_iff.mp h
  obtain rfl := List.forall₂_nil_left_iff.mp hus
  exact ⟨t, rfl, ht⟩

/-- A rendered expression is read as it was written. -/
theorem Expr.Renders.readsAt {e : Expr} {n : Nat} {words : List Word} (h : e.Renders n words)
    {ts : List Token} (hts : List.Forall₂ Word.Gives words ts) : ReadsAt e ts n := by
  induction h generalizing ts with
  | number h hx =>
    obtain ⟨t, rfl, ht⟩ := exists_singleton_of_forall₂ hts
    exact .leaf (exists_isLeaf_of_number h hx ht) rfl
  | text h =>
    obtain ⟨t, rfl, ht⟩ := exists_singleton_of_forall₂ hts
    have hliteral := ht.denotes.unique Denotes.text
    rw [h.decode_eq, String.ofList_toList] at hliteral
    exact .leaf (.text ht.kind_eq hliteral) rfl
  | @identifier name span h =>
    obtain ⟨t, rfl, ht⟩ := exists_singleton_of_forall₂ hts
    have hname : t.lexeme = name := ht.lexeme_eq.trans String.ofList_toList
    refine .leaf (.name ht.kind_eq) ?_
    rw [hname]
    rfl
  | binary hleft hright hm hn ihleft ihright =>
    obtain ⟨lefts, us, rfl, hlefts, hus⟩ := exists_append_of_forall₂ hts
    obtain ⟨t, rights, ht, hrights, rfl⟩ := List.forall₂_cons_left_iff.mp hus
    exact (ihleft hlefts).binary (ihright hrights) hm hn ht.kind_eq _
  | signed h ih =>
    obtain ⟨t, us, ht, hus, rfl⟩ := List.forall₂_cons_left_iff.mp hts
    exact (ih hus).signed ht.kind_eq _
  | wrapped h ih =>
    obtain ⟨t, us, ht, hus, rfl⟩ := List.forall₂_cons_left_iff.mp hts
    obtain ⟨inner, last, rfl, hinner, hlast⟩ := exists_append_of_forall₂ hus
    obtain ⟨u, rfl, hu⟩ := exists_singleton_of_forall₂ hlast
    exact (ih hinner).wrapped ht.kind_eq hu.kind_eq

/-! ## Statements -/

/-- The tokens are derived as a statement, which is that one wherever it is. -/
def ReadsStatement (s : Statement) (ts : List Token) : Prop :=
  ∃ d : StatementDerivation, d.tokens = ts ∧ d.meaning.unplaced = s.unplaced

theorem RendersValues.exists_derivation {values : List Expr} {words : List Word}
    (h : RendersValues values words) {ts : List Token}
    (hts : List.Forall₂ Word.Gives words ts) :
    ∃ (first : Derivation .expression) (more : List NextValue),
      first.tokens ++ NextValue.tokens more = ts ∧
      (first.meaning :: more.map fun v => v.value.meaning).map Expr.unplaced =
        values.map Expr.unplaced := by
  induction h generalizing ts with
  | last h =>
    obtain ⟨d, rfl, hd⟩ := (h.readsAt hts).of_le (Nat.zero_le _)
    exact ⟨d, [], List.append_nil _, congrArg (· :: []) hd⟩
  | next h hmore ih =>
    obtain ⟨us, behind, rfl, hus, hbehind⟩ := exists_append_of_forall₂ hts
    obtain ⟨comma, vs, hcomma, hvs, rfl⟩ := List.forall₂_cons_left_iff.mp hbehind
    obtain ⟨d, rfl, hd⟩ := (h.readsAt hus).of_le (Nat.zero_le _)
    obtain ⟨first, more, rfl, hvalues⟩ := ih hvs
    have hcomma : comma.kind = .comma := hcomma.kind_eq
    exact ⟨d, ⟨comma, hcomma, first⟩ :: more, rfl, congrArg₂ List.cons hd hvalues⟩

/-- A rendered statement is read as it was written. -/
theorem Statement.Renders.readsStatement {s : Statement} {words : List Word} (h : s.Renders words)
    {ts : List Token} (hts : List.Forall₂ Word.Gives words ts) : ReadsStatement s ts := by
  cases h with
  | print h =>
    obtain ⟨say, us, hsay, hus, rfl⟩ := List.forall₂_cons_left_iff.mp hts
    obtain ⟨first, more, rfl, hvalues⟩ := h.exists_derivation hus
    exact ⟨.print say hsay.kind_eq first more, rfl, congrArg (Statement.print · _) hvalues⟩
  | @assign name e span n words hname h =>
    obtain ⟨target, us, htarget, hus, rfl⟩ := List.forall₂_cons_left_iff.mp hts
    obtain ⟨is, vs, his, hvs, rfl⟩ := List.forall₂_cons_left_iff.mp hus
    obtain ⟨d, rfl, hd⟩ := (h.readsAt hvs).of_le (Nat.zero_le _)
    obtain rfl : target.lexeme = name := htarget.lexeme_eq.trans String.ofList_toList
    refine ⟨.assign target is htarget.kind_eq his.kind_eq d, rfl, ?_⟩
    exact congrArg (Statement.assign target.lexeme · _) hd

/-! ## Programs -/

/-- Rendered statements are scanned as the tokens of a program, which consists of them. -/
theorem RendersLines.exists_derivation {ss : List Statement} {text : List Char}
    (h : RendersLines ss text) (p : Position) :
    ∃ d : ProgramDerivation, scanFrom p text = .ok (d.tokens ++ [.atEnd (p.advanceOver text)]) ∧
      d.statements.map Statement.unplaced = ss.map Statement.unplaced := by
  induction h generalizing p with
  | none => exact ⟨.done, by rw [scanFrom]; rfl, rfl⟩
  | last h hline =>
    obtain ⟨ts, hscan, hgives⟩ := hline.exists_tokens p
    obtain ⟨d, rfl, hd⟩ := h.readsStatement hgives
    exact ⟨.last d, hscan, congrArg (· :: []) hd⟩
  | @next s ss words line rest h hline more ih =>
    obtain ⟨ts, hscan, hgives⟩ := hline.exists_tokens p
    obtain ⟨d, rfl, hd⟩ := h.readsStatement hgives
    obtain ⟨d', hscan', hd'⟩ := ih ((p.advanceOver line).advance '\n')
    have hnewline : (Token.newlineAt (p.advanceOver line)).kind = .newline := rfl
    refine ⟨.statement d (.newlineAt (p.advanceOver line)) hnewline d', ?_, ?_⟩
    · rw [scanFrom_append_newline, hscan, hscan', Position.advanceOver_append,
        Position.advanceOver_cons]
      dsimp only
      rw [List.dropLast_concat, ProgramDerivation.tokens, List.append_assoc, List.cons_append]
    · rw [ProgramDerivation.statements, List.map_cons, hd, hd', List.map_cons]

/-- Source text that statements were rendered as is parsed into the same statements, and everything
writable has a rendering. -/
theorem parse_rendered {ss : List Statement} (h : ∀ s ∈ ss, s.IsWritable) :
    (∃ source : String, RendersLines ss source.toList) ∧
    ∀ name source, RendersLines ss source.toList →
      ∃ ts program, scan name source = .ok ts ∧ parse ts = .ok program ∧
        program.statements.map Statement.unplaced = ss.map Statement.unplaced := by
  constructor
  · obtain ⟨text, htext⟩ := exists_rendersLines h
    exact ⟨.ofList text, by rwa [String.toList_ofList]⟩
  · intro name source hsource
    obtain ⟨d, hscan, hstatements⟩ := hsource.exists_derivation (.start name)
    obtain ⟨ahead, htokens, hahead⟩ := scan_ok hscan
    obtain rfl := List.append_inj_left' htokens rfl
    have hreader : Reader.ofTokens (d.tokens ++ [.atEnd (endOfText name source)]) =
        ⟨d.tokens, .atEnd (endOfText name source)⟩ := Reader.ofTokens_concat hahead rfl
    refine ⟨_, _, hscan, parse_eq_ok_iff.mpr ⟨d.statements, ?_, rfl⟩, ?_⟩
    · rw [htokens, hreader]
      exact statements_ok_iff.mpr ⟨d, rfl, rfl⟩
    · rw [Reader.statements_programOf, hstatements]

/-- A difference on the right of another, a signed product, and a quote in quotes. -/
theorem parse_rendered_nested :
    let here : Span := .empty (.start "")
    let difference : Expr := .binary .subtract (.number (readNumeral ['1'] []) here)
      (.binary .subtract (.variable "y" here) (.variable "z" here) here) here
    let product : Expr := .signed .minus (.binary .multiply (.variable "a" here)
      (.signed .minus (.variable "b" here) here) here) here
    let ss : List Statement :=
      [.assign "x" difference here, .print [product, .text "\"" here] here]
    (∀ s ∈ ss, s.IsWritable) ∧
    ∃ ts program,
      scan "a.peng" " x is 1 - ( y - z )\n say - ( a * - b ) , \"\\\"\"" = .ok ts ∧
      parse ts = .ok program ∧
      program.statements.map Statement.unplaced = ss.map Statement.unplaced := by
  intro here difference product ss
  have hname {c : Char} (h : isLetter c) : IsWord .identifier [c] := by
    refine .identifier (.intro h (by simp)) ?_ ?_ <;> simp
  have hx : IsWord .identifier "x".toList := hname rfl
  have hy : IsWord .identifier "y".toList := hname rfl
  have hz : IsWord .identifier "z".toList := hname rfl
  have ha : IsWord .identifier "a".toList := hname rfl
  have hb : IsWord .identifier "b".toList := hname rfl
  have hdigits : ∀ c ∈ ['1'], c.isDigit := List.forall_mem_singleton.mpr rfl
  have hone : IsNumber .integer ['1'] := .integer (by simp) hdigits
  have hvalue : decimal? ['1'] = some (readNumeral ['1'] []) := decimal?_whole (by simp) hdigits
  have hquote : Spells ['\\', '"'] "\"".toList := .escaped (by decide) .nil
  have hss : ∀ s ∈ ss, s.IsWritable := by
    refine List.forall_mem_cons.mpr ⟨?_, List.forall_mem_singleton.mpr ?_⟩
    · exact .assign hx (.binary (.number hone hvalue) (.binary (.identifier hy) (.identifier hz)))
    · refine .print (by simp) (List.forall_mem_cons.mpr ⟨?_, List.forall_mem_singleton.mpr .text⟩)
      exact .signed (.binary (.identifier ha) (.signed (.identifier hb)))
  have hdifference : difference.Renders 0 _ := .binary (.number hone hvalue)
    (.wrapped (.binary (.identifier hy) (.identifier hz) (by decide) (by decide))) (by decide)
    (by decide)
  have hproduct : product.Renders 2 _ := .signed (.wrapped (.binary (.identifier ha)
    (.signed (.identifier hb)) (by decide) (by decide)))
  have hlines : RendersLines ss _ := .next (.assign hx hdifference) (laid_lay _)
    (.last (.print (.next hproduct (.last (.text hquote)))) (laid_lay _))
  exact ⟨hss, (parse_rendered hss).2 "a.peng" _ hlines⟩

end Peng
