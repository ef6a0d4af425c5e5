import ExprLang.Proofs.Grammar.Derivation
import ExprLang.Proofs.Parser.CleanRules
import ExprLang.Proofs.Token.Spelling

/-!
# What is read is derived

In a clean run the tokens that a rule moves over derive the tree it gives. The tokens from the
current one of `p` through the current one of `q` are the list `ts` with `p.ahead = ts ++ q.rest`.
An expression read at a power is derived at the level above that power (`Level.above`), because
while it is continued the token behind it is never stronger than the level it has reached
(`expression_of_continued`). Main statement (`statements_of_parse`): a parse without errors derives
the tokens of the source, each once and in order, with the program it returns.
-/

set_option autoImplicit false

namespace ExprLang.Grammar

open Step Rule

/-! ## Levels and powers -/

namespace Level

/-- The power of the operators of a level. -/
def power : Level → Power
  | equality => .equals
  | relation => .lessGreater
  | sum => .sum
  | product => .product
  | unary => .prefixed
  | application | primary => .call

/-- The level whose operators have a power. -/
def ofPower : Power → Level
  | .lowest | .equals => equality
  | .lessGreater => relation
  | .sum => sum
  | .product => product
  | .prefixed => unary
  | .call => application

/-- The level of the expressions that are read at a power. -/
def above : Power → Level
  | .lowest => equality
  | .equals => relation
  | .lessGreater => sum
  | .sum => product
  | .product | .prefixed | .call => unary

theorem rank_above_le_unary (power : Power) : (above power).rank ≤ unary.rank := by
  cases power <;> decide

theorem rank_above_le {power power' : Power} (h : power < power') :
    (above power).rank ≤ (ofPower power').rank := by
  revert h
  cases power <;> cases power' <;> decide

theorem rank_ofPower_le {level : Level} {power : Power} (h : ¬ level.power < power) :
    (ofPower power).rank ≤ level.rank := by
  revert h
  cases power <;> cases level <;> decide

/-- A binary operator belongs to the level of its power, and its right operand to the next one. -/
theorem of_infixRule? {kind : Kind} (h : kind.infixRule? = some .binary) :
    kind ∈ (ofPower kind.power).operators ∧ (ofPower kind.power).power = kind.power ∧
      above kind.power = (ofPower kind.power).tighter := by
  revert h
  cases kind <;> decide

theorem kind_of_infixRule? {kind : Kind} (h : kind.infixRule? = some .call) :
    kind = .openParen := by
  revert h
  cases kind <;> decide

end Level

variable {strict : Bool} {p q : Parser}

/-- What a step for expressions of a power derives in a clean run. -/
def Derives (strict : Bool) (nested : Power → Step Expr) : Prop :=
  ∀ {power : Power} {p q : Parser} {e : Expr}, p.Spelled → p.options.requireSemicolons = strict →
    (nested power).Clean p e q → ∃ ts, p.ahead = ts ++ q.rest ∧
      Expression strict (.above power) ts e ∧ ¬ power < q.peek.kind.power

/-! ## Parameters and terminators -/

theorem names_of_namesRead {names : List Identifier} (h : NamesRead p names q) :
    ∃ ts closing, p.rest = ts ++ closing :: q.rest ∧ Names ts names ∧
      closing.kind = .closeParen := by
  induction h with
  | @last p hi hk =>
    have h1 := Parser.rest_of_peek (p := p) (by simp [hi])
    have h2 := Parser.rest_of_peek (p := p.advance) (by simp [hk])
    exact ⟨[p.peek], p.advance.peek, by rw [h1, h2]; rfl, .one hi, hk⟩
  | @more p q names hi hk _ ih =>
    obtain ⟨ts, closing, hts, hn, hc⟩ := ih
    have h1 := Parser.rest_of_peek (p := p) (by simp [hi])
    have h2 := Parser.rest_of_peek (p := p.advance) (by simp [hk])
    exact ⟨p.peek :: p.advance.peek :: ts, closing, by rw [h1, h2, hts]; rfl, .more hi hk hn, hc⟩

theorem parameters_of_clean {names : List Identifier} (h : parameters.Clean p names q) :
    ∃ ts closing, p.rest = ts ++ closing :: q.rest ∧ Parameters ts names ∧
      closing.kind = .closeParen := by
  rcases clean_parameters_iff.1 h with ⟨hk, rfl, rfl⟩ | h
  · exact ⟨[], p.peek, Parser.rest_of_peek (by simp [hk]), .none, hk⟩
  · obtain ⟨ts, closing, hts, hn, hc⟩ := names_of_namesRead h
    exact ⟨ts, closing, hts, .some hn, hc⟩

/-- A semicolon is moved over if it is there. -/
theorem terminator_of_skip (required : Bool) (h : required = true → p.peek.kind = .semicolon) :
    ∃ ts, p.rest = ts ++ (p.skip .semicolon).rest ∧ Terminator required ts := by
  by_cases hk : p.peek.kind = .semicolon
  · refine ⟨[p.peek], ?_, .semicolon hk⟩
    rw [Parser.skip, if_pos hk]
    exact Parser.rest_of_peek (by simp [hk])
  · refine ⟨[], by rw [Parser.skip, if_neg hk]; rfl, .omitted ?_⟩
    simpa using mt h hk

theorem terminator_of_clean (h : terminator.Clean p () q) :
    ∃ ts, p.rest = ts ++ q.rest ∧ Terminator p.options.requireSemicolons ts := by
  obtain ⟨hr, rfl⟩ := clean_terminator_iff.1 h
  exact terminator_of_skip _ hr

section
variable {nested : Power → Step Expr} (hn : ∀ power, (nested power).Steady)
  (hd : Derives strict nested)
include hn hd

/-! ## Statements -/

theorem statement_of_clean {s : Stmt} (hp : p.Spelled)
    (ho : p.options.requireSemicolons = strict) (h : (Rule.statement nested).Clean p s q) :
    ∃ ts, p.ahead = ts ++ q.rest ∧ Statement strict ts s := by
  rcases clean_statement_iff.1 h with ⟨hk, h⟩ | ⟨hk, h⟩ | ⟨hk, h⟩
  · obtain ⟨hi, ha, value, r, hv, ht, rfl⟩ := (clean_binding_iff hn).1 h
    have hr := hv.precedes (hn _)
    obtain ⟨ts, hts, hvalue, -⟩ := hd hp.advance.advance.advance ho hv
    obtain ⟨us, hus, hterm⟩ := terminator_of_clean ht
    rw [hr.options, show p.advance.advance.advance.options = p.options from rfl, ho] at hterm
    refine ⟨p.current :: p.peek :: p.advance.peek :: ts ++ us, ?_, .binding hk hi ha hvalue hterm⟩
    have h1 := Parser.ahead_of_current (p := p) (by simp [hk])
    have h2 := Parser.rest_of_peek (p := p) (by simp [hi])
    have h3 := Parser.rest_of_peek (p := p.advance) (by simp [ha])
    rw [h1, h2, h3, ← Parser.ahead_advance, hts, hus]
    simp
  · obtain ⟨value, r, hv, ht, rfl⟩ := (clean_result_iff hn).1 h
    have hr := hv.precedes (hn _)
    obtain ⟨ts, hts, hvalue, -⟩ := hd hp.advance ho hv
    obtain ⟨us, hus, hterm⟩ := terminator_of_clean ht
    rw [hr.options, show p.advance.options = p.options from rfl, ho] at hterm
    refine ⟨p.current :: ts ++ us, ?_, .result hk hvalue hterm⟩
    rw [Parser.ahead_of_current (p := p) (by simp [hk]), ← Parser.ahead_advance, hts, hus]
    simp
  · obtain ⟨value, r, hv, rfl, rfl⟩ := (clean_expressionStatement_iff hn).1 h
    obtain ⟨ts, hts, hvalue, -⟩ := hd hp ho hv
    obtain ⟨us, hus, hterm⟩ := terminator_of_skip (p := r) false (by simp)
    obtain ⟨t, ts, rfl⟩ := List.exists_cons_of_ne_nil hvalue.ne_nil
    obtain ⟨rfl, -⟩ := Parser.current_of_ahead hts
    refine ⟨p.current :: ts ++ us, ?_, .expression hvalue hterm⟩
    rw [hts, hus]
    simp

end

/-- The rounds of a loop over statements derive them one behind the other. -/
theorem statements_of_collected {stop : Kind → Bool} {step : Step Stmt} (hs : step.Steady)
    (hstep : ∀ {p q : Parser} {s : Stmt}, p.Spelled → p.options.requireSemicolons = strict →
      step.Clean p s q → ∃ ts, p.ahead = ts ++ q.rest ∧ Statement strict ts s)
    {ss : List Stmt} (hp : p.Spelled) (ho : p.options.requireSemicolons = strict)
    (h : Collected stop step p ss q) : ∃ ts, p.ahead = ts ++ q.ahead ∧ Statements strict ts ss := by
  induction h with
  | done => exact ⟨[], rfl, .nil⟩
  | @round p q r s ss hstop hc hrest ih =>
    have hq := (hc.precedes hs).trans (Parser.precedes_advance q)
    obtain ⟨ts, hts, hstmt⟩ := hstep hp ho hc
    obtain ⟨us, hus, hstmts⟩ := ih (hp.precedes hq) (by rw [hq.options, ho])
    refine ⟨ts ++ us, ?_, .cons hstmt hstmts⟩
    rw [hts, ← Parser.ahead_advance, hus, List.append_assoc]

section
variable {nested : Power → Step Expr} (hn : ∀ power, (nested power).Steady)
  (hd : Derives strict nested)
include hn hd

theorem braces_of_clean {b : Block} (hp : p.Spelled) (ho : p.options.requireSemicolons = strict)
    (hk : p.current.kind = .openCurly) (h : (always (block nested)).Clean p b q) :
    ∃ ts, p.ahead = ts ++ q.rest ∧ Braces strict ts b := by
  obtain ⟨ss, hcol, hc, rfl⟩ := (clean_block_iff hn).1 h
  obtain ⟨ts, hts, hss⟩ := statements_of_collected (steady_statement hn)
    (statement_of_clean hn hd) hp.advance ho hcol
  refine ⟨p.current :: ts ++ [q.current], ?_, .mk hk hss hc⟩
  rw [Parser.ahead_of_current (p := p) (by simp [hk]), ← Parser.ahead_advance, hts,
    Parser.ahead_of_current (p := q) (by simp [hc])]
  simp

/-! ## What starts an expression -/

theorem alternative_of_clean {b : Option Block} (hp : p.Spelled)
    (ho : p.options.requireSemicolons = strict) (h : (alternative nested).Clean p b q) :
    ∃ ts, p.rest = ts ++ q.rest ∧ Alternative strict ts b := by
  rcases (clean_alternative_iff hn).1 h with ⟨-, rfl, rfl⟩ | ⟨hk, hc, block, hb, rfl⟩
  · exact ⟨[], rfl, .none⟩
  · obtain ⟨ts, hts, hblock⟩ := braces_of_clean hn hd hp.advance.advance ho hc hb
    refine ⟨p.peek :: ts, ?_, .some hk hblock⟩
    rw [Parser.rest_of_peek (p := p) (by simp [hk]), ← Parser.ahead_advance, hts]
    rfl

theorem grouping_of_clean {e : Expr} (hp : p.Spelled) (ho : p.options.requireSemicolons = strict)
    (hk : p.current.kind = .openParen) (h : (Rule.grouping nested).Clean p e q) :
    ∃ ts, p.ahead = ts ++ q.rest ∧ Expression strict .primary ts e := by
  obtain ⟨r, he, hc, rfl⟩ := (clean_grouping_iff hn).1 h
  obtain ⟨ts, hts, hinner, -⟩ := hd hp.advance ho he
  refine ⟨p.current :: ts ++ [r.peek], ?_, .grouping hk hinner hc⟩
  rw [Parser.ahead_of_current (p := p) (by simp [hk]), ← Parser.ahead_advance, hts,
    Parser.rest_of_peek (p := r) (by simp [hc])]
  simp

theorem conditional_of_clean {e : Expr} (hp : p.Spelled)
    (ho : p.options.requireSemicolons = strict) (hk : p.current.kind = .ifKeyword)
    (h : (Rule.conditional nested).Clean p e q) :
    ∃ ts, p.ahead = ts ++ q.rest ∧ Expression strict .primary ts e := by
  obtain ⟨ho1, condition, r, hc, hc1, hc2, consequence, s, hb, other, ha, rfl⟩ :=
    (clean_conditional_iff hn).1 h
  have hr := hc.precedes (hn _)
  have hs := hb.precedes (steady_block hn)
  have hpr := hp.advance.advance.precedes hr
  have hor : r.options.requireSemicolons = strict := by rw [hr.options]; exact ho
  obtain ⟨ts, hts, hcond, -⟩ := hd hp.advance.advance ho hc
  obtain ⟨us, hus, hblock⟩ := braces_of_clean hn hd hpr.advance.advance hor hc2 hb
  obtain ⟨vs, hvs, halt⟩ := alternative_of_clean hn hd (hpr.advance.advance.precedes hs)
    (by rw [hs.options]; exact hor) ha
  refine ⟨p.current :: p.peek :: ts ++ r.peek :: us ++ vs, ?_,
    .conditional hk ho1 hcond hc1 hblock halt⟩
  rw [Parser.ahead_of_current (p := p) (by simp [hk]), Parser.rest_of_peek (p := p) (by simp [ho1]),
    ← Parser.ahead_advance, hts, Parser.rest_of_peek (p := r) (by simp [hc1]),
    ← Parser.ahead_advance, hus, hvs]
  simp

theorem function_of_clean {e : Expr} (hp : p.Spelled) (ho : p.options.requireSemicolons = strict)
    (hk : p.current.kind = .fnKeyword) (h : (Rule.function nested).Clean p e q) :
    ∃ ts, p.ahead = ts ++ q.rest ∧ Expression strict .primary ts e := by
  obtain ⟨ho1, names, r, hparams, hc, body, hb, rfl⟩ := (clean_function_iff hn).1 h
  have hr := hparams.precedes steady_parameters
  obtain ⟨ts, closing, hts, hnames, hclosing⟩ := parameters_of_clean hparams
  obtain ⟨us, hus, hblock⟩ := braces_of_clean hn hd (hp.advance.precedes hr).advance
    (by rw [show r.advance.options = r.options from rfl, hr.options]; exact ho) hc hb
  refine ⟨p.current :: p.peek :: ts ++ closing :: us, ?_,
    .function hk ho1 hnames hclosing hblock⟩
  rw [Parser.ahead_of_current (p := p) (by simp [hk]), Parser.rest_of_peek (p := p) (by simp [ho1]),
    hts, ← Parser.ahead_advance, hus]
  simp

/-- The start of an expression reaches a level that the token behind it is not stronger than. -/
theorem start_of_clean {e : Expr} (hp : p.Spelled) (ho : p.options.requireSemicolons = strict)
    (h : (start nested).Clean p e q) : ∃ ts level, p.ahead = ts ++ q.rest ∧
      Expression strict level ts e ∧ ¬ level.power < q.peek.kind.power ∧
        Level.unary.rank ≤ level.rank := by
  obtain ⟨rule, hrule, h⟩ := clean_start_iff.1 h
  have hall (power : Power) : ¬ Power.call < power := by cases power <;> decide
  have hcur : p.current.kind ≠ .eof := fun he => by
    rw [he] at hrule
    revert hrule
    cases rule <;> decide
  -- all rules but one read a primary expression
  have hprimary (hx : ∃ ts, p.ahead = ts ++ q.rest ∧ Expression strict .primary ts e) :
      ∃ ts level, p.ahead = ts ++ q.rest ∧ Expression strict level ts e ∧
        ¬ level.power < q.peek.kind.power ∧ Level.unary.rank ≤ level.rank := by
    obtain ⟨ts, hts, he⟩ := hx
    exact ⟨ts, .primary, hts, he, hall _, by decide⟩
  cases rule with
  | identifier =>
    obtain ⟨rfl, rfl⟩ := clean_identifier_iff.1 h
    exact hprimary ⟨[q.current], Parser.ahead_of_current hcur,
      .identifier (List.mem_singleton.1 hrule)⟩
  | integer =>
    obtain ⟨value, hv, rfl, rfl⟩ := clean_integer_iff.1 h
    have hk := List.mem_singleton.1 hrule
    have hnum : Text.isNumeral q.current.literal = true := by
      have := hp q.current (by rw [Parser.ahead_of_current hcur]; exact .head _) (by simp [hk])
      simpa [Token.isSpelled, hk, Kind.allowsSpelling] using this
    exact hprimary ⟨[q.current], Parser.ahead_of_current hcur,
      .integer hk ((Text.readInt64?_eq_some_iff hnum).1 hv)⟩
  | boolean =>
    obtain ⟨rfl, rfl⟩ := clean_boolean_iff.1 h
    refine hprimary ⟨[q.current], Parser.ahead_of_current hcur, ?_⟩
    simp only [PrefixRule.kinds, List.mem_cons, List.not_mem_nil, or_false] at hrule
    rcases hrule with hk | hk
    · rw [hk]
      exact .trueLiteral hk
    · rw [hk]
      exact .falseLiteral hk
  | unary =>
    obtain ⟨right, hr, rfl⟩ := (clean_unary_iff hn).1 h
    obtain ⟨ts, hts, hright, hpow⟩ := hd hp.advance ho hr
    refine ⟨p.current :: ts, .unary, ?_, .unary hrule hright, hpow, Nat.le_refl _⟩
    rw [Parser.ahead_of_current hcur, ← Parser.ahead_advance, hts]
    rfl
  | grouping => exact hprimary (grouping_of_clean hn hd hp ho (List.mem_singleton.1 hrule) h)
  | conditional => exact hprimary (conditional_of_clean hn hd hp ho (List.mem_singleton.1 hrule) h)
  | function => exact hprimary (function_of_clean hn hd hp ho (List.mem_singleton.1 hrule) h)

/-! ## What continues an expression -/

theorem expressions_of_moreArguments {es : List Expr} {e : Expr} {ts : List Token}
    (hp : p.Spelled) (ho : p.options.requireSemicolons = strict)
    (he : Expression strict .equality ts e) (h : MoreArguments nested p es q) :
    ∃ us closing, p.rest = us ++ closing :: q.rest ∧ Expressions strict (ts ++ us) (e :: es) ∧
      closing.kind = .closeParen := by
  induction h generalizing e ts with
  | @close p hc =>
    refine ⟨[], p.peek, Parser.rest_of_peek (by simp [hc]), ?_, hc⟩
    rw [List.append_nil]
    exact .one he
  | @more p q r e' es hc he' _ ih =>
    have hq := he'.precedes (hn _)
    obtain ⟨vs, hvs, hexpr, -⟩ := hd hp.advance.advance ho he'
    obtain ⟨us, closing, hus, hmore, hclosing⟩ :=
      ih (hp.advance.advance.precedes hq) (by rw [hq.options]; exact ho) hexpr
    refine ⟨p.peek :: vs ++ us, closing, ?_, .more he hc hmore, hclosing⟩
    rw [Parser.rest_of_peek (p := p) (by simp [hc]), ← Parser.ahead_advance, hvs, hus]
    simp

theorem arguments_of_clean {es : List Expr} (hp : p.Spelled)
    (ho : p.options.requireSemicolons = strict) (h : (Rule.arguments nested).Clean p es q) :
    ∃ ts closing, p.rest = ts ++ closing :: q.rest ∧ Arguments strict ts es ∧
      closing.kind = .closeParen := by
  rcases (clean_arguments_iff hn).1 h with ⟨hk, rfl, rfl⟩ | ⟨-, e, r, more, he, hm, rfl⟩
  · exact ⟨[], p.peek, Parser.rest_of_peek (by simp [hk]), .none, hk⟩
  · have hr := he.precedes (hn _)
    obtain ⟨ts, hts, hexpr, -⟩ := hd hp.advance ho he
    obtain ⟨us, closing, hus, hes, hc⟩ := expressions_of_moreArguments hn hd
      (hp.advance.precedes hr) (by rw [hr.options]; exact ho) hexpr hm
    refine ⟨ts ++ us, closing, ?_, .some hes, hc⟩
    rw [← Parser.ahead_advance, hts, hus, List.append_assoc]

/-- While an expression is continued, the token behind it is not stronger than its level. -/
theorem expression_of_continued {power : Power} {left e : Expr} {all ts : List Token}
    {level : Level} (hp : p.Spelled) (ho : p.options.requireSemicolons = strict)
    (hall : all = ts ++ p.rest) (hl : Expression strict level ts left)
    (hpow : ¬ level.power < p.peek.kind.power) (hle : (Level.above power).rank ≤ level.rank)
    (h : Continued nested power left p e q) :
    ∃ us, all = us ++ q.rest ∧ Expression strict (.above power) us e ∧
      ¬ power < q.peek.kind.power := by
  induction h generalizing ts level with
  | stop hs => exact ⟨ts, hall, hl.loosen hle, hs⟩
  | @extend p q r left extended e rule hlt hrule hc _ ih =>
    have hq := hc.precedes (steady_continuing hn _ _ _)
    have hrest := Parser.rest_of_peek (p := p) fun he => by rw [he] at hrule; cases hrule
    -- the operator takes what has been read so far as its left operand
    have hleft := hl.loosen (Level.rank_ofPower_le hpow)
    have hnext := Level.rank_above_le hlt
    have hqs := hp.advance.precedes hq
    have hqo : q.options.requireSemicolons = strict := by rw [hq.options]; exact ho
    cases rule with
    | binary =>
      obtain ⟨right, hr, rfl⟩ := (clean_binary_iff hn).1 hc
      obtain ⟨hop, hown, habove⟩ := Level.of_infixRule? hrule
      obtain ⟨us, hus, hright, hpow'⟩ := hd hp.advance.advance ho hr
      rw [habove] at hright
      refine ih hqs hqo ?_ (.binary hop hleft hright) (by rwa [hown]) hnext
      rw [hall, hrest, ← Parser.ahead_advance, hus]
      simp [Parser.current_advance]
    | call =>
      obtain ⟨es, ha, rfl⟩ := (clean_call_iff hn).1 hc
      have hk := Level.kind_of_infixRule? hrule
      rw [hk] at hleft hnext
      obtain ⟨us, closing, hus, hargs, hclosing⟩ := arguments_of_clean hn hd hp.advance ho ha
      refine ih hqs hqo ?_ (.call hleft hk hargs hclosing) (by cases q.peek.kind <;> decide) hnext
      rw [hall, hrest, hus]
      simp [Parser.current_advance]

end

/-! ## Expressions, programs -/

theorem derives_expressionWithin (strict : Bool) (room : Nat) :
    Derives strict (Parser.expressionWithin room) := by
  induction room with
  | zero => exact fun _ _ h => absurd h Parser.not_clean_expressionWithin_zero
  | succ room ih =>
    intro power p q e hp ho h
    obtain ⟨-, left, r, s, hl, hc, rfl⟩ := Parser.clean_expressionWithin_succ_iff.1 h
    have hn := Parser.steady_expressionWithin room
    have hr := hl.precedes (steady_start hn)
    have hdeep : p.deepen.Spelled := hp
    obtain ⟨ts, level, hts, hleft, hpow, hle⟩ := start_of_clean hn ih hdeep ho hl
    obtain ⟨us, hus, he, hpow'⟩ := expression_of_continued hn ih (hdeep.precedes hr)
      (by rw [hr.options]; exact ho) hts hleft hpow
      (Nat.le_trans (Level.rank_above_le_unary power) hle) hc
    exact ⟨us, hus, he, hpow'⟩

theorem statement_of_loggedStatement {s : Stmt} (hp : p.Spelled)
    (ho : p.options.requireSemicolons = strict) (h : Parser.loggedStatement.Clean p s q) :
    ∃ ts, p.ahead = ts ++ q.rest ∧ Statement strict ts s := by
  obtain ⟨r, hr, rfl⟩ := Parser.clean_loggedStatement_iff.1 h
  obtain ⟨ts, hts, hs⟩ := statement_of_clean (Parser.steady_expressionWithin _)
    (derives_expressionWithin strict _) hp ho hr
  exact ⟨ts, hts, hs⟩

/-- A source that is read without errors is derived by the grammar, with the program read. -/
theorem statements_of_parse {source : String} {file : Option String} {options : Options}
    (h : (parse source file options).errors = []) :
    Statements options.requireSemicolons (tokenize source file).dropLast
      (parse source file options).program.statements := by
  have he : parse source file options =
      ⟨⟨(parse source file options).program.statements⟩, []⟩ := by rw [← h]
  obtain ⟨q, hq⟩ := parse_eq_iff.1 he
  obtain ⟨ts, hts, hss⟩ := statements_of_collected Parser.steady_loggedStatement
    statement_of_loggedStatement (Parser.spelled_opened source file options) rfl hq
  have hend : q.ahead = [] := TokenStream.kind_current_eq_eof_iff.1 (beq_iff_eq.1 hq.stop_current)
  rw [hend, List.append_nil] at hts
  rw [dropLast_tokenize source file options, hts]
  exact hss

/-- A program with a call, an operator in an operand and a binding. -/
theorem statements_of_parse_call :
    (parse "let x = -f(1) + 2;" none {}).errors = [] ∧
      Statements false (tokenize "let x = -f(1) + 2;" none).dropLast
        (parse "let x = -f(1) + 2;" none {}).program.statements := by
  have h : (parse "let x = -f(1) + 2;" none {}).errors = [] := by decide +kernel
  exact ⟨h, statements_of_parse h⟩

end ExprLang.Grammar
