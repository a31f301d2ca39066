import Peng.Proofs.Source.Lines

/-!
# Reading on with one reader

One reader may be asked for a program again and again, whatever came of it before. It stands at a
place in the tokens that it holds, and all that it does next is what a new reader would do with the
tokens from there on (`reader_resumes_at_place`).

## Shape of the proof

Every rule leaves the end of the tokens that it is given (`Grammar.rulesLeave`), and so does reading
a program. Where the reader has come to is therefore known from the number of tokens that are left,
and what it holds from there on begins with just these tokens and the end of the input
(`Reader.drop_held_of_suffix`).
-/

namespace Peng

/-! ## What rules leave -/

namespace Reply

variable {α : Type} {n : Nat}

/-- The tokens that are left. -/
def rest : Reply α n → List Token
  | .read _ rest _ | .stuck _ rest _ => rest

@[simp] theorem rest_widen {m : Nat} (h : n ≤ m) (reply : Reply α n) :
    (reply.widen h).rest = reply.rest := by
  cases reply <;> rfl

@[simp] theorem rest_following (before : String) (reply : Reply α n) :
    (reply.following before).rest = reply.rest := by
  cases reply <;> rfl

theorem Says.rest_suffix {reply : Reply α n} {read : α → List Token → Prop}
    {stuck : Wanted → List Token → Prop} {ts : List Token} (h : reply.Says read stuck)
    (hread : ∀ value rest, read value rest → rest <:+ ts)
    (hstuck : ∀ missing rest, stuck missing rest → rest <:+ ts) : reply.rest <:+ ts :=
  h.elim (fun missing rest _ => hstuck missing rest) fun value rest _ => hread value rest

/-- What is left, once it is known how reading went. -/
theorem suffix_of_eq {reply reply' : Reply α n} (h : reply = reply') {ts : List Token}
    (hrest : reply.rest <:+ ts) : reply'.rest <:+ ts :=
  h ▸ hrest

end Reply

namespace Grammar

theorem Place.Halts.suffix {p : Place} {ts rest : List Token} {missing : Wanted}
    (h : p.Halts ts missing rest) : rest <:+ ts := by
  obtain ⟨pre, q, hts, -⟩ := h
  exact ⟨pre, hts⟩

theorem Reads.suffix {r : Rule} {ts rest : List Token} {meaning : r.Meaning}
    (h : Reads r ts meaning rest) : rest <:+ ts := by
  obtain ⟨d, hts, -⟩ := h
  exact ⟨d.tokens, hts⟩

theorem ReadsMore.suffix {r : Rule} {left e : Expr} {ts rest : List Token}
    {meaning : List (BinaryOp × Expr) → r.Meaning}
    (h : ReadsMore (fun ts more => Reads r ts (meaning more)) left ts e rest) : rest <:+ ts := by
  obtain ⟨more, hmore, -⟩ := h
  exact hmore.suffix

/-- Every rule leaves the end of the tokens that it is given. -/
structure RulesLeave (ts : List Token) : Prop where
  expression : (expression ts).rest <:+ ts
  moreTerms (left : Expr) : (moreTerms left ts).rest <:+ ts
  term : (term ts).rest <:+ ts
  moreFactors (left : Expr) : (moreFactors left ts).rest <:+ ts
  unary : (unary ts).rest <:+ ts
  atom : (atom ts).rest <:+ ts
  moreValues : (moreValues ts).rest <:+ ts
  ending (missing : Wanted) : (ending missing ts).rest <:+ ts
  print : (print ts).rest <:+ ts
  assignment (name : Token) : (assignment name ts).rest <:+ ts
  statement (t : Token) : (statement t ts).rest <:+ t :: ts
  statements : ∀ missing rest, statements ts = .error (missing, rest) → rest <:+ ts

section Rules

variable (ts : List Token)

/-- A rule of operands leaves what its derivation does not take, or what it halts in front of. -/
theorem operand_rest_suffix {ts : List Token} {n : Nat} {p : Place} {reply : Reply Expr n}
    {read : Expr → List Token → Prop} (h : (reply.following "").Says read (p.Halts ts))
    (hread : ∀ e rest, read e rest → rest <:+ ts) : reply.rest <:+ ts := by
  rw [← Reply.rest_following ""]
  exact h.rest_suffix hread fun _ _ => Place.Halts.suffix

theorem expression_rest_suffix : (expression ts).rest <:+ ts :=
  operand_rest_suffix ((rulesSay ts).expression "" ⟨.print, 0⟩) fun _ _ => Reads.suffix

theorem moreFactors_rest_suffix (left : Expr) : (moreFactors left ts).rest <:+ ts :=
  ((rulesSay ts).moreFactors left ⟨.print, 0⟩).rest_suffix (fun _ _ => ReadsMore.suffix)
    fun _ _ => Place.Halts.suffix

theorem moreTerms_rest_suffix (left : Expr) : (moreTerms left ts).rest <:+ ts := by
  cases ts with
  | nil =>
    rw [moreTerms]
    exact List.suffix_rfl
  | cons t ts =>
    rw [moreTerms]
    split
    case h_1 => exact List.suffix_rfl
    case h_2 op hop =>
      -- behind a term nothing carries it on, which is what the lemma of this rule asks for
      have hright := (rulesSay ts).term t.lexeme ⟨.print, 0⟩
      refine List.IsSuffix.trans ?_ (List.suffix_cons t ts)
      refine hright.elim (fun _ _ _ hhalts => hhalts.suffix) ?_
      rintro right rest h ⟨d, hts, -, hends⟩
      have hmore := (rulesSay rest).moreTerms (left.join op right) ⟨.print, 0⟩ hends
      rw [Reply.rest_widen]
      exact (hmore.rest_suffix (fun _ _ => ReadsMore.suffix) fun _ _ => Place.Halts.suffix).trans
        ⟨d.tokens, hts⟩

theorem ending_rest_suffix (missing : Wanted) : (ending missing ts).rest <:+ ts := by
  cases ts with
  | nil => exact List.suffix_rfl
  | cons t ts =>
    rw [ending]
    split
    · exact List.suffix_cons t ts
    · exact List.suffix_rfl

theorem following_rest_suffix (before : String) :
    ((expression ts).following before).rest <:+ ts := by
  rw [Reply.rest_following]
  exact expression_rest_suffix ts

theorem moreValues_rest_suffix : (moreValues ts).rest <:+ ts := by
  fun_induction moreValues ts with
  | case1 => exact List.suffix_rfl
  | case2 t ts hcomma value rest h hvalue values rest' h' hmore ih
  | case3 t ts hcomma value rest h hvalue missing rest' h' hmore ih =>
    have hrest := Reply.suffix_of_eq hvalue (following_rest_suffix ts ",")
    exact ((Reply.suffix_of_eq hmore ih).trans hrest).trans (List.suffix_cons t ts)
  | case4 t ts hcomma missing rest h hvalue =>
    have hrest := Reply.suffix_of_eq hvalue (following_rest_suffix ts ",")
    exact hrest.trans (List.suffix_cons t ts)
  | case5 t ts hcomma => exact List.suffix_rfl

theorem print_rest_suffix : (print ts).rest <:+ ts := by
  have hfollowing := following_rest_suffix ts "say"
  fun_cases print ts with
  | case1 missing rest h hfirst => exact Reply.suffix_of_eq hfirst hfollowing
  | case2 first rest h hfirst missing rest' h' hmore =>
    have hrest := Reply.suffix_of_eq hfirst hfollowing
    exact (Reply.suffix_of_eq hmore (moreValues_rest_suffix rest)).trans hrest
  | case3 first rest h hfirst more rest' h' hmore missing rest'' h'' hending
  | case4 first rest h hfirst more rest' h' hmore _ rest'' h'' hending =>
    have hrest := Reply.suffix_of_eq hfirst hfollowing
    have hrest' := Reply.suffix_of_eq hmore (moreValues_rest_suffix rest)
    exact ((Reply.suffix_of_eq hending (ending_rest_suffix rest' _)).trans hrest').trans hrest

theorem assignment_rest_suffix (name : Token) : (assignment name ts).rest <:+ ts := by
  cases ts with
  | nil => exact List.suffix_rfl
  | cons t ts =>
    rw [assignment]
    split
    case isTrue his =>
      refine List.IsSuffix.trans ?_ (List.suffix_cons t ts)
      have hrest := following_rest_suffix ts "is"
      revert hrest
      rcases (expression ts).following "is" with ⟨value, rest, h⟩ | ⟨missing, rest, h⟩
      · intro hrest
        have hending := ending_rest_suffix rest .endOfAssignment
        revert hending
        dsimp only
        rcases ending .endOfAssignment rest with ⟨_, rest', h'⟩ | ⟨missing, rest', h'⟩
        · exact fun hending => hending.trans hrest
        · exact fun hending => hending.trans hrest
      · exact id
    case isFalse his => exact List.suffix_rfl

theorem statement_rest_suffix (t : Token) : (statement t ts).rest <:+ t :: ts := by
  rw [statement]
  split
  · exact (print_rest_suffix ts).trans (List.suffix_cons t ts)
  · exact (assignment_rest_suffix ts t).trans (List.suffix_cons t ts)
  · exact List.suffix_rfl

theorem rulesLeave : RulesLeave ts where
  expression := expression_rest_suffix ts
  moreTerms := moreTerms_rest_suffix ts
  term := operand_rest_suffix ((rulesSay ts).term "" ⟨.print, 0⟩)
    fun _ _ => Reads.suffix
  moreFactors := moreFactors_rest_suffix ts
  unary := operand_rest_suffix ((rulesSay ts).unary "" ⟨.print, 0⟩)
    fun _ _ => Reads.suffix
  atom := operand_rest_suffix ((rulesSay ts).atom false "" ⟨.print, 0⟩ nofun)
    fun _ _ => Reads.suffix
  moreValues := moreValues_rest_suffix ts
  ending := ending_rest_suffix ts
  print := print_rest_suffix ts
  assignment := assignment_rest_suffix ts
  statement := statement_rest_suffix ts
  statements _ _ h := (statements_error_iff.mp h).suffix

end Rules

end Grammar

/-! ## Where a reader has come to -/

namespace Reader

/-- The tokens that a reader of a list holds: an end of the input is put behind those that have none
at their end. -/
def held (ts : List Token) : List Token :=
  match ts.getLast? with
  | none => [.atEnd (.start "<unknown>")]
  | some last => if last.kind = .endOfInput then ts else ts ++ [.atEnd last.span.finish]

/-- The reader when a program was read with it so many times. -/
def after (r : Reader) : Nat → Reader
  | 0 => r
  | times + 1 => r.readProgram.2.after times

/-- How many tokens are behind a reader of a list when a program was read so many times. -/
def place (ts : List Token) (times : Nat) : Nat :=
  (ofTokens ts).ahead.length - ((ofTokens ts).after times).ahead.length

variable {ts : List Token} {r : Reader}

theorem after_succ (r : Reader) (times : Nat) :
    r.after (times + 1) = (r.after times).readProgram.2 := by
  induction times generalizing r with
  | zero => rfl
  | succ times ih => exact ih r.readProgram.2

theorem after_add (r : Reader) (times more : Nat) :
    r.after (times + more) = (r.after times).after more := by
  induction times generalizing r with
  | zero => rw [Nat.zero_add]; rfl
  | succ times ih =>
    rw [Nat.succ_add]
    exact ih r.readProgram.2

theorem readPrograms_eq (r : Reader) (times : Nat) :
    r.readPrograms times = (List.range times).map fun n => (r.after n).readProgram.1 := by
  induction times generalizing r with
  | zero => rfl
  | succ times ih =>
    rw [readPrograms, ih, List.range_succ_eq_map, List.map_cons, List.map_map]
    rfl

/-- Reading a program leaves the end of the tokens. -/
theorem readProgram_suffix (r : Reader) : r.readProgram.2.ahead <:+ r.ahead := by
  rw [readProgram]
  cases h : Grammar.statements r.ahead with
  | ok ss => exact List.nil_suffix
  | error failure => exact (Grammar.rulesLeave r.ahead).statements _ _ h

theorem readProgram_atEnd (r : Reader) : r.readProgram.2.atEnd = r.atEnd := by
  rw [readProgram]
  cases Grammar.statements r.ahead <;> rfl

theorem after_suffix (r : Reader) (times : Nat) : (r.after times).ahead <:+ r.ahead := by
  induction times with
  | zero => exact List.suffix_rfl
  | succ times ih =>
    rw [after_succ]
    exact (r.after times).readProgram_suffix.trans ih

theorem after_atEnd (r : Reader) (times : Nat) : (r.after times).atEnd = r.atEnd := by
  induction times with
  | zero => rfl
  | succ times ih => rw [after_succ, readProgram_atEnd, ih]

/-- What stands behind an end of the input makes no difference. -/
theorem ofTokens_append_end {last : Token} (hlast : last.kind = .endOfInput)
    (before behind behind' : List Token) :
    ofTokens (before ++ last :: behind) = ofTokens (before ++ last :: behind') := by
  cases hfind : before.find? (·.kind = .endOfInput) with
  | none =>
    have hbefore : ∀ t ∈ before, t.kind ≠ .endOfInput := by simpa using hfind
    rw [ofTokens_append_cons hbefore hlast, ofTokens_append_cons hbefore hlast]
  | some e =>
    obtain ⟨he, pre, post, rfl, hpre⟩ := List.find?_eq_some_iff_append.mp hfind
    have hpre : ∀ t ∈ pre, t.kind ≠ .endOfInput := by simpa using hpre
    have he : e.kind = .endOfInput := by simpa using he
    rw [List.append_assoc, List.append_assoc, List.cons_append, List.cons_append,
      ofTokens_append_cons hpre he, ofTokens_append_cons hpre he]

theorem ofTokens_of_forall_ne (h : ∀ t ∈ ts, t.kind ≠ .endOfInput) :
    ofTokens ts = ⟨ts, endOf ts⟩ := by
  have hahead := ahead_ofTokens_append h []
  rw [List.append_nil] at hahead
  exact congrArg (Reader.mk · (endOf ts)) (hahead.trans (List.append_nil ts))

theorem endOf_of_forall_ne (h : ∀ t ∈ ts, t.kind ≠ .endOfInput) {last : Token}
    (hlast : last ∈ ts.getLast?) : endOf ts = .atEnd last.span.finish := by
  have hnone : ts.find? (·.kind = .endOfInput) = none := by simpa using h
  rw [endOf, hnone, hlast]

theorem held_of_forall_ne (h : ∀ t ∈ ts, t.kind ≠ .endOfInput) : held ts = ts ++ [endOf ts] := by
  rw [held]
  cases hlast : ts.getLast? with
  | none =>
    rw [List.getLast?_eq_none_iff.mp hlast]
    rfl
  | some last =>
    rw [endOf_of_forall_ne h hlast]
    exact if_neg (h last (List.mem_of_getLast? hlast))

/-- What is held begins with the list. -/
theorem prefix_held (ts : List Token) : ts <+: held ts := by
  rw [held]
  split
  case h_1 hlast =>
    rw [List.getLast?_eq_none_iff.mp hlast]
    exact List.nil_prefix
  case h_2 last hlast =>
    split
    · exact List.prefix_rfl
    · exact List.prefix_append _ _

/-- What is held begins with what is ahead, and the end of it. -/
theorem exists_held (ts : List Token) :
    ∃ behind, held ts = (ofTokens ts).ahead ++ (ofTokens ts).atEnd :: behind := by
  cases hfind : ts.find? (·.kind = .endOfInput) with
  | none =>
    have hts : ∀ t ∈ ts, t.kind ≠ .endOfInput := by simpa using hfind
    exact ⟨[], by rw [held_of_forall_ne hts, ofTokens_of_forall_ne hts]⟩
  | some e =>
    obtain ⟨he, pre, post, rfl, hpre⟩ := List.find?_eq_some_iff_append.mp hfind
    obtain ⟨more, hmore⟩ := prefix_held (pre ++ e :: post)
    refine ⟨post ++ more, ?_⟩
    rw [ofTokens_append_cons (by simpa using hpre) (by simpa using he), ← hmore]
    simp

/-- What is held from the place on of tokens that are still to be read. -/
theorem drop_held_of_suffix {rest : List Token} (h : rest <:+ (ofTokens ts).ahead) :
    ∃ behind, (held ts).drop ((ofTokens ts).ahead.length - rest.length) =
      rest ++ endOf ts :: behind := by
  obtain ⟨behind, hheld⟩ := exists_held ts
  refine ⟨behind, ?_⟩
  rw [hheld, List.drop_append_of_le_length (Nat.sub_le _ _), ← List.suffix_iff_eq_drop.mp h]
  rfl

/-- The token that reading has come to is one of those that are held. -/
theorem getElem?_held {rest : List Token} (h : rest <:+ (ofTokens ts).ahead) :
    (held ts)[(ofTokens ts).ahead.length - rest.length]? = some (rest.headD (endOf ts)) := by
  obtain ⟨behind, hdrop⟩ := drop_held_of_suffix h
  rw [← List.head?_drop, hdrop]
  cases rest <;> rfl

/-- A new reader of the tokens from the place on is as the one that has come there. -/
theorem ofTokens_drop_held (ts : List Token) (times : Nat) :
    ofTokens ((held ts).drop (place ts times)) = (ofTokens ts).after times := by
  have hsuffix := (ofTokens ts).after_suffix times
  obtain ⟨behind, hdrop⟩ := drop_held_of_suffix hsuffix
  have hahead : ∀ t ∈ ((ofTokens ts).after times).ahead, t.kind ≠ .endOfInput :=
    fun t ht => kind_ne_of_mem_ahead (hsuffix.mem ht)
  rw [place, hdrop, ofTokens_append_cons hahead (kind_endOf ts)]
  exact congrArg (Reader.mk _) ((ofTokens ts).after_atEnd times).symm

theorem place_add_length (ts : List Token) (times : Nat) :
    place ts times + ((ofTokens ts).after times).ahead.length = (ofTokens ts).ahead.length :=
  Nat.sub_add_cancel ((ofTokens ts).after_suffix times).length_le

theorem place_le_place {n m : Nat} (h : n ≤ m) : place ts n ≤ place ts m := by
  obtain ⟨more, rfl⟩ := Nat.exists_eq_add_of_le h
  have hle := (((ofTokens ts).after n).after_suffix more).length_le
  rw [← after_add] at hle
  exact Nat.sub_le_sub_left hle _

/-- What one more reading takes, a new reader takes of the tokens from the place on. -/
theorem place_succ (ts : List Token) (times : Nat) :
    place ts (times + 1) = place ts times + place ((held ts).drop (place ts times)) 1 := by
  have hbefore := place_add_length ts times
  have hafter := place_add_length ts (times + 1)
  have hagain := place_add_length ((held ts).drop (place ts times)) 1
  rw [ofTokens_drop_held, ← after_add] at hagain
  omega

/-- Tokens before the place do not end the input. -/
theorem kind_ne_of_mem_take (ts : List Token) (times : Nat) :
    ∀ t ∈ (held ts).take (place ts times), t.kind ≠ .endOfInput := by
  obtain ⟨behind, hheld⟩ := exists_held ts
  rw [hheld, place, List.take_append_of_le_length (Nat.sub_le _ _)]
  exact fun t ht => kind_ne_of_mem_ahead (List.mem_of_mem_take ht)

/-! ## Results that stay -/

theorem readProgram_of_ok {program : Program} (h : r.readProgram.1 = .ok program) :
    r.readProgram.2 = ⟨[], r.atEnd⟩ := by
  rw [readProgram] at h ⊢
  cases hss : Grammar.statements r.ahead with
  | ok ss => rfl
  | error failure =>
    rw [hss] at h
    cases h

theorem readProgram_nil (e : Token) :
    readProgram ⟨[], e⟩ = (.ok ⟨[], e.span⟩, ⟨[], e⟩) := by
  rw [readProgram, Grammar.statements]
  rfl

/-- A reader that reading does not move stays as it is. -/
theorem after_eq_self (h : r.readProgram.2 = r) (times : Nat) : r.after times = r := by
  induction times with
  | zero => rfl
  | succ times ih => rw [after_succ, ih, h]

/-- Once a program was read, nothing is ahead. -/
theorem after_of_ok {n m : Nat} {program : Program} (h : (r.after n).readProgram.1 = .ok program)
    (hm : n < m) : r.after m = ⟨[], r.atEnd⟩ := by
  obtain ⟨more, rfl⟩ := Nat.exists_eq_add_of_lt hm
  have hnil : r.after (n + 1) = ⟨[], r.atEnd⟩ := by
    rw [after_succ, readProgram_of_ok h, after_atEnd]
  rw [Nat.add_right_comm, after_add, hnil]
  exact after_eq_self (by rw [readProgram_nil]) more

/-- Where a reading takes nothing, no later one does. -/
theorem after_eq_of_place_eq {n m : Nat} (h : place ts (n + 1) = place ts n) (hm : n ≤ m) :
    (ofTokens ts).after m = (ofTokens ts).after n := by
  have hn := place_add_length ts n
  have hsucc := place_add_length ts (n + 1)
  have hsuffix := ((ofTokens ts).after n).readProgram_suffix
  have hahead : ((ofTokens ts).after n).readProgram.2.ahead = ((ofTokens ts).after n).ahead := by
    -- nothing was taken, and of the ends of a list only the whole is as long as it
    refine hsuffix.eq_of_length ?_
    rw [← after_succ]
    omega
  have hself : ((ofTokens ts).after n).readProgram.2 = (ofTokens ts).after n :=
    congr (congrArg Reader.mk hahead) (readProgram_atEnd _)
  obtain ⟨more, rfl⟩ := Nat.exists_eq_add_of_le hm
  rw [after_add, after_eq_self hself]

end Reader

/-! ## Reading again -/

open Reader

/-- Both lists are read alike, however often. -/
def ReadAlike (ts us : List Token) : Prop :=
  ∀ times, (ofTokens ts).readPrograms times = (ofTokens us).readPrograms times ∧
    place ts times = place us times

theorem readAlike_of_eq {ts us : List Token} (h : ofTokens ts = ofTokens us) : ReadAlike ts us := by
  intro times
  rw [place, place, h]
  exact ⟨rfl, rfl⟩

/-- With one reader of the tokens, programs can be read one after the other. -/
structure ResumesAtPlace (ts : List Token) : Prop where
  /-- What is read the first time, the second time and so on. -/
  readPrograms_eq : ∀ times, (ofTokens ts).readPrograms times =
    (List.range times).map fun n => ((ofTokens ts).after n).readProgram.1
  /-- No rule goes back behind where it began, or on behind the end of the input. -/
  rules_leave : ∀ us, Grammar.RulesLeave us
  /-- Wherever a rule is, it looks at a token that is held. -/
  looks_at_held : ∀ rest, rest <:+ (ofTokens ts).ahead →
    (held ts)[(ofTokens ts).ahead.length - rest.length]? = some (rest.headD (endOf ts))
  /-- So does the reader between two programs. -/
  next_held : ∀ n, (held ts)[place ts n]? = some ((ofTokens ts).after n).next
  place_le : ∀ n m, n ≤ m → place ts n ≤ place ts m
  not_passed : ∀ n, ∀ t ∈ (held ts).take (place ts n), t.kind ≠ .endOfInput
  /-- What is behind an end of the input makes no difference. -/
  behind_end : ∀ before e behind behind', e.kind = .endOfInput → ts = before ++ e :: behind →
    ReadAlike ts (before ++ e :: behind')
  /-- What is read next is what a new reader reads from the place on. -/
  readProgram_eq_parse : ∀ n,
    ((ofTokens ts).after n).readProgram.1 = parse ((held ts).drop (place ts n))
  /-- It also takes as many tokens. -/
  place_succ : ∀ n, place ts (n + 1) = place ts n + place ((held ts).drop (place ts n)) 1
  /-- Behind a program there is only the empty one, at the end of the input. -/
  ok_after : ∀ n program, ((ofTokens ts).after n).readProgram.1 = .ok program → ∀ m, n < m →
    ∃ e, e.kind = .endOfInput ∧ (held ts)[place ts m]? = some e ∧
      ((ofTokens ts).after m).readProgram.1 = .ok ⟨[], e.span⟩
  /-- A failure that takes nothing comes again. -/
  error_again : ∀ n fault, ((ofTokens ts).after n).readProgram.1 = .error fault →
    place ts (n + 1) = place ts n → ∀ m, n ≤ m →
      ((ofTokens ts).after m).readProgram.1 = .error fault
  /-- Where no token ends the input, it ends behind the last one. -/
  end_supplied : (∀ t ∈ ts, t.kind ≠ .endOfInput) → ∀ last ∈ ts.getLast?,
    ReadAlike ts (ts ++ [.atEnd last.span.finish])
  /-- No tokens at all are as the end of an input without a name. -/
  end_of_nothing : ts = [] → ReadAlike ts [.atEnd (.start "<unknown>")]

/-- A reader can be asked for a program again, whatever came before: it goes on from the place that
it has come to as a new reader would. -/
theorem reader_resumes_at_place (ts : List Token) : ResumesAtPlace ts where
  readPrograms_eq := (ofTokens ts).readPrograms_eq
  rules_leave := Grammar.rulesLeave
  looks_at_held _ := getElem?_held
  next_held n := by
    rw [place, getElem?_held ((ofTokens ts).after_suffix n), next, after_atEnd]
    rfl
  place_le _ _ := place_le_place
  not_passed := kind_ne_of_mem_take ts
  behind_end before e behind behind' he hts := by
    subst hts
    exact readAlike_of_eq (ofTokens_append_end he before behind behind')
  readProgram_eq_parse n := by rw [parse, ofTokens_drop_held]
  place_succ := place_succ ts
  ok_after n program hok m hm := by
    have hnil := after_of_ok hok hm
    refine ⟨endOf ts, kind_endOf ts, ?_, ?_⟩
    · rw [place, hnil]
      exact getElem?_held List.nil_suffix
    · rw [hnil, readProgram_nil]
      rfl
  error_again n fault herror hplace m hm := by rw [after_eq_of_place_eq hplace hm, herror]
  end_supplied hts last hlast := by
    apply readAlike_of_eq
    rw [ofTokens_append_cons hts rfl, ofTokens_of_forall_ne hts, endOf_of_forall_ne hts hlast]
  end_of_nothing hts := by
    subst hts
    exact readAlike_of_eq rfl

end Peng
