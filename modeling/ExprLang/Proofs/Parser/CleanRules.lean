import ExprLang.Proofs.Parser.Clean
import ExprLang.Proofs.Token.Spelling

/-!
# Clean runs of the rules

What each rule does in a clean run, read off the parts that it is made of: one `clean_..._iff` for
each rule. A loop is described by the rounds it goes through and not by its bound (`Collected`,
`NamesRead`, `MoreArguments`, `Continued`), since a bound of at least the tokens that are left is
never reached.
-/

set_option autoImplicit false

namespace ExprLang

open Step

/-- The kinds of the tokens that a rule starts at. -/
def PrefixRule.kinds : PrefixRule → List Kind
  | identifier => [.identifier]
  | integer => [.integer]
  | boolean => [.trueKeyword, .falseKeyword]
  | unary => [.not, .dash]
  | grouping => [.openParen]
  | conditional => [.ifKeyword]
  | function => [.fnKeyword]

theorem Kind.prefixRule?_eq_some_iff {kind : Kind} {rule : PrefixRule} :
    kind.prefixRule? = some rule ↔ kind ∈ rule.kinds := by
  cases kind <;> cases rule <;> decide

/-- A token between two operands binds them, and does not go on with a conditional. -/
theorem Kind.power_of_mem_binaryOperators {op : Kind} (h : op ∈ binaryOperators) :
    op.power ≠ .lowest ∧ op ≠ .elseKeyword ∧ op.infixRule? = some .binary := by
  revert h
  cases op <;> decide

/-- The tokens that can start a statement. -/
def Kind.startsStatement (k : Kind) : Bool :=
  k == .letKeyword || k == .returnKeyword || k.prefixRule?.isSome

theorem Kind.startsStatement_ne {k : Kind} (h : k.startsStatement = true) :
    k ≠ .elseKeyword ∧ k ≠ .semicolon ∧ k ≠ .eof ∧ Rule.endsBlock k = false := by
  revert h
  cases k <;> decide

theorem Rule.power_of_endsBlock {k : Kind} (h : endsBlock k = true) :
    k.power = .lowest ∧ k ≠ .semicolon ∧ k ≠ .elseKeyword := by
  revert h
  cases k <;> decide

/-- No keyword of a statement starts an expression. -/
theorem Kind.statementRule?_eq_none {k : Kind} (h : k.prefixRule?.isSome = true) :
    k.statementRule? = none := by
  revert h
  cases k <;> decide

variable {p q : Parser}

/-! ## Statements up to a token -/

/-- The rounds of `Step.collect` in a clean run. -/
inductive Step.Collected {α : Type} (stop : Kind → Bool) (step : Step α) :
    Parser → List α → Parser → Prop
  | done {p : Parser} : stop p.current.kind = true → Collected stop step p [] p
  | round {p q r : Parser} {a : α} {as : List α} : stop p.current.kind = false →
      step.Clean p a q → Collected stop step q.advance as r → Collected stop step p (a :: as) r

namespace Step

variable {α : Type} {stop : Kind → Bool} {step : Step α}

theorem collected_iff_of_stop {as : List α} (h : stop p.current.kind = true) :
    Collected stop step p as q ↔ as = [] ∧ q = p := by
  constructor
  · intro hc
    cases hc with
    | done => exact ⟨rfl, rfl⟩
    | round hn => rw [h] at hn; cases hn
  · rintro ⟨rfl, rfl⟩
    exact .done h

theorem collected_iff_of_not_stop {as : List α} (h : stop p.current.kind = false) :
    Collected stop step p as q ↔
      ∃ a r bs, step.Clean p a r ∧ Collected stop step r.advance bs q ∧ as = a :: bs := by
  constructor
  · intro hc
    cases hc with
    | done hd => rw [h] at hd; cases hd
    | round _ ha hbs => exact ⟨_, _, _, ha, hbs, rfl⟩
  · rintro ⟨a, r, bs, ha, hbs, rfl⟩
    exact .round h ha hbs

theorem Collected.stop_current {as : List α} (h : Collected stop step p as q) :
    stop q.current.kind = true := by
  induction h with
  | done h => exact h
  | round _ _ _ ih => exact ih

/-- A round of the loop that does not stop is one run of the step, and one token. -/
theorem collect_succ {fuel : Nat} (h : stop p.current.kind = false) :
    collect stop step (fuel + 1) p =
      ((step p).1.toList ++ (collect stop step fuel (step p).2.advance).1,
        (collect stop step fuel (step p).2.advance).2) := by
  rw [collect]
  simp [h]

theorem collected_iff (hs : step.Steady) (hstop : stop .eof = true) {fuel : Nat} {as : List α}
    (hf : p.tokensLeft ≤ fuel) :
    collect stop step fuel p = (as, q) ∧ q.recorded = p.recorded ↔
      Collected stop step p as q := by
  induction fuel generalizing p as with
  | zero =>
    have hc : stop p.current.kind = true := by
      rw [Parser.kind_current_of_ahead_nil (List.length_eq_zero_iff.1 (Nat.le_zero.1 hf)), hstop]
    rw [collected_iff_of_stop hc, show collect stop step 0 p = ([], p) from rfl, Prod.mk.injEq]
    constructor
    · rintro ⟨⟨rfl, rfl⟩, -⟩
      exact ⟨rfl, rfl⟩
    · rintro ⟨rfl, rfl⟩
      exact ⟨⟨rfl, rfl⟩, rfl⟩
  | succ fuel ih =>
    cases hc : stop p.current.kind with
    | true =>
      rw [collected_iff_of_stop hc, collect, if_pos hc, Prod.mk.injEq]
      constructor
      · rintro ⟨⟨rfl, rfl⟩, -⟩
        exact ⟨rfl, rfl⟩
      · rintro ⟨rfl, rfl⟩
        exact ⟨⟨rfl, rfl⟩, rfl⟩
    | false =>
      have h1 := hs.precedes p
      have hleft : (step p).2.advance.tokensLeft ≤ fuel := by
        have := h1.tokensLeft_le
        rw [Parser.tokensLeft_advance]
        omega
      rw [collected_iff_of_not_stop hc, collect_succ hc]
      constructor
      · rintro ⟨h, hq⟩
        rw [Prod.mk.injEq] at h
        obtain ⟨rfl, rfl⟩ := h
        have h2 : Parser.Precedes (step p).2.advance
            (collect stop step fuel (step p).2.advance).2 := precedes_collect hs _ _
        have hr : (step p).2.recorded = p.recorded :=
          (h1.recorded.eq_of_length_le (hq ▸ h2.recorded.length_le)).symm
        obtain ⟨a, ha⟩ := hs.clean_of_recorded hr
        rw [ha.1]
        exact ⟨a, _, _, ha, (ih hleft).1 ⟨rfl, hq.trans hr.symm⟩, rfl⟩
      · rintro ⟨a, r, bs, ha, hrest, rfl⟩
        have hr := ha.2
        rw [ha.1] at hleft ⊢
        obtain ⟨hcol, hq⟩ := (ih hleft).2 hrest
        rw [hcol]
        exact ⟨rfl, hq.trans hr⟩

end Step

namespace Rule

/-! ## Words, numbers and terminators -/

theorem clean_identifier_iff {e : Expr} :
    identifier.Clean p e q ↔ e = .identifier (.ofToken p.current) ∧ q = p := by
  rw [identifier, clean_current_bind, clean_pure_iff]

theorem clean_integer_iff {e : Expr} :
    integer.Clean p e q ↔ ∃ value, Text.readInt64? p.current.literal.toList = some value ∧
      e = .integer p.current value ∧ q = p := by
  rw [integer, clean_current_bind]
  cases h : Text.readInt64? p.current.literal.toList with
  | some value => simp [clean_pure_iff]
  | none =>
    simp only [reduceCtorEq, false_and, exists_false, iff_false]
    rintro ⟨hb, hq⟩
    cases hb
    exact List.ne_cons_self hq.symm

theorem clean_boolean_iff {e : Expr} :
    boolean.Clean p e q ↔ e = .boolean p.current (p.current.kind == .trueKeyword) ∧ q = p := by
  rw [boolean, clean_current_bind, clean_pure_iff]

theorem clean_terminator_iff {u : Unit} :
    terminator.Clean p u q ↔
      (p.options.requireSemicolons = true → p.peek.kind = .semicolon) ∧ q = p.skip .semicolon := by
  rw [terminator, clean_get_bind]
  cases h : p.options.requireSemicolons with
  | true =>
    simp only [if_true, clean_expect_iff, forall_const]
    refine and_congr_right fun hk => ?_
    rw [Parser.skip, if_pos hk]
  | false =>
    simp only [Bool.false_eq_true, if_false, false_implies, true_and]
    constructor
    · rintro ⟨h, -⟩
      cases h
      rfl
    · rintro rfl
      exact ⟨rfl, Parser.recorded_skip _ p⟩

/-! ## Parameters -/

/-- The parameters that are read, and the parenthesis behind them. -/
inductive NamesRead : Parser → List Identifier → Parser → Prop
  | last {p : Parser} : p.peek.kind = .identifier → p.advance.peek.kind = .closeParen →
      NamesRead p [.ofToken p.peek] p.advance.advance
  | more {p q : Parser} {names : List Identifier} : p.peek.kind = .identifier →
      p.advance.peek.kind = .comma → NamesRead p.advance.advance names q →
      NamesRead p (.ofToken p.peek :: names) q

theorem clean_parametersWithin_iff {fuel : Nat} {names : List Identifier}
    (hf : p.tokensLeft ≤ fuel) : (parametersWithin fuel).Clean p names q ↔ NamesRead p names q := by
  induction fuel generalizing p names with
  | zero =>
    have hk : p.peek.kind = .eof := TokenStream.kind_peek_eq_eof_iff.2 (Nat.le_succ_of_le hf)
    constructor
    · intro h
      have hi := (clean_expect_bind.1 h).1
      rw [hk] at hi
      cases hi
    · intro h
      cases h <;> simp_all
  | succ fuel ih =>
    rw [parametersWithin, clean_expect_bind, clean_current_bind, clean_advance_bind,
      clean_current_bind]
    simp only [Parser.current_advance]
    have hleft : p.advance.advance.tokensLeft ≤ fuel := by
      rw [Parser.tokensLeft_advance, Parser.tokensLeft_advance]
      omega
    constructor
    · rintro ⟨hi, h⟩
      split at h
      next hk =>
        obtain ⟨names', r, hr, h⟩ := (clean_bind_iff (steady_parametersWithin fuel)
          fun _ => steady_pure _).1 h
        obtain ⟨rfl, rfl⟩ := clean_pure_iff.1 h
        exact .more hi hk ((ih hleft).1 hr)
      next hk =>
        obtain ⟨rfl, rfl⟩ := clean_pure_iff.1 h
        exact .last hi hk
      next => exact absurd h not_clean_fail
    · intro h
      cases h with
      | last hi hk =>
        refine ⟨hi, ?_⟩
        rw [hk]
        exact clean_pure_iff.2 ⟨rfl, rfl⟩
      | more hi hk h =>
        refine ⟨hi, ?_⟩
        rw [hk]
        exact (clean_bind_iff (steady_parametersWithin fuel) fun _ => steady_pure _).2
          ⟨_, _, (ih hleft).2 h, clean_pure_iff.2 ⟨rfl, rfl⟩⟩

theorem clean_parameters_iff {names : List Identifier} :
    parameters.Clean p names q ↔
      (p.peek.kind = .closeParen ∧ names = [] ∧ q = p.advance) ∨ NamesRead p names q := by
  rw [parameters, clean_peek_bind]
  by_cases hk : p.peek.kind = .closeParen
  · rw [if_pos hk, clean_advance_bind, clean_pure_iff]
    refine ⟨fun h => .inl ⟨hk, h⟩, fun h => ?_⟩
    rcases h with ⟨-, h⟩ | h
    · exact h
    · cases h <;> simp_all
  · rw [if_neg hk, clean_get_bind, clean_parametersWithin_iff (Nat.le_refl _)]
    exact ⟨.inr, fun h => h.resolve_left fun h => hk h.1⟩

section
variable {nested : Power → Step Expr}

/-- The arguments behind the first one, and the parenthesis behind them. -/
inductive MoreArguments (nested : Power → Step Expr) : Parser → List Expr → Parser → Prop
  | close {p : Parser} : p.peek.kind = .closeParen → MoreArguments nested p [] p.advance
  | more {p q r : Parser} {e : Expr} {es : List Expr} : p.peek.kind = .comma →
      (nested .lowest).Clean p.advance.advance e q → MoreArguments nested q es r →
      MoreArguments nested p (e :: es) r

/-- What is done to an expression behind its start, up to a token that is not stronger. -/
inductive Continued (nested : Power → Step Expr) (power : Power) :
    Expr → Parser → Expr → Parser → Prop
  | stop {p : Parser} {left : Expr} : ¬ power < p.peek.kind.power →
      Continued nested power left p left p
  | extend {p q r : Parser} {left extended e : Expr} {rule : InfixRule} :
      power < p.peek.kind.power → p.peek.kind.infixRule? = some rule →
      (continuing nested left p.peek.kind.power rule).Clean p.advance extended q →
      Continued nested power extended q e r → Continued nested power left p e r

theorem moreArguments_iff_of_comma {es : List Expr} (h : p.peek.kind = .comma) :
    MoreArguments nested p es q ↔ ∃ e r more, (nested .lowest).Clean p.advance.advance e r ∧
      MoreArguments nested r more q ∧ es = e :: more := by
  constructor
  · intro hm
    cases hm with
    | close hc => rw [h] at hc; cases hc
    | more _ he hm => exact ⟨_, _, _, he, hm, rfl⟩
  · rintro ⟨e, r, more, he, hm, rfl⟩
    exact .more h he hm

theorem moreArguments_iff_of_ne {es : List Expr} (h : p.peek.kind ≠ .comma) :
    MoreArguments nested p es q ↔ p.peek.kind = .closeParen ∧ es = [] ∧ q = p.advance := by
  constructor
  · intro hm
    cases hm with
    | close hc => exact ⟨hc, rfl, rfl⟩
    | more hc => exact absurd hc h
  · rintro ⟨hc, rfl, rfl⟩
    exact .close hc

theorem continued_iff_of_not_lt {power : Power} {left e : Expr}
    (h : ¬ power < p.peek.kind.power) :
    Continued nested power left p e q ↔ e = left ∧ q = p := by
  constructor
  · intro hc
    cases hc with
    | stop => exact ⟨rfl, rfl⟩
    | extend hlt => exact absurd hlt h
  · rintro ⟨rfl, rfl⟩
    exact .stop h

theorem continued_iff_of_lt {power : Power} {left e : Expr} {rule : InfixRule}
    (h : power < p.peek.kind.power) (hrule : p.peek.kind.infixRule? = some rule) :
    Continued nested power left p e q ↔
      ∃ x r, (continuing nested left p.peek.kind.power rule).Clean p.advance x r ∧
        Continued nested power x r e q := by
  constructor
  · intro hc
    cases hc with
    | stop hs => exact absurd h hs
    | extend _ hr he hc =>
      rw [hrule] at hr
      cases hr
      exact ⟨_, _, he, hc⟩
  · rintro ⟨x, r, hx, hc⟩
    exact .extend h hrule hx hc

variable (hn : ∀ power, (nested power).Steady)
include hn

/-! ## Statements -/

theorem clean_binding_iff {s : Stmt} :
    (binding nested).Clean p s q ↔ p.peek.kind = .identifier ∧
      p.advance.peek.kind = .assignment ∧ ∃ value r,
        (nested .lowest).Clean p.advance.advance.advance value r ∧ terminator.Clean r () q ∧
          s = .binding p.current (.ofToken p.peek) value := by
  rw [binding, clean_current_bind, clean_expect_bind, clean_current_bind, clean_expect_bind,
    clean_advance_bind, clean_bind_iff (hn _) fun _ =>
      steady_terminator.bind fun _ => steady_pure _]
  refine and_congr_right fun _ => and_congr_right fun _ => exists_congr fun value =>
    exists_congr fun r => and_congr_right fun _ => ?_
  rw [clean_bind_pure_iff steady_terminator]
  exact ⟨fun ⟨_, h⟩ => h, fun h => ⟨(), h⟩⟩

theorem clean_result_iff {s : Stmt} :
    (result nested).Clean p s q ↔ ∃ value r, (nested .lowest).Clean p.advance value r ∧
      terminator.Clean r () q ∧ s = .result p.current value := by
  rw [result, clean_current_bind, clean_advance_bind, clean_bind_iff (hn _) fun _ =>
    steady_terminator.bind fun _ => steady_pure _]
  refine exists_congr fun value => exists_congr fun r => and_congr_right fun _ => ?_
  rw [clean_bind_pure_iff steady_terminator]
  exact ⟨fun ⟨_, h⟩ => h, fun h => ⟨(), h⟩⟩

theorem clean_expressionStatement_iff {s : Stmt} :
    (expressionStatement nested).Clean p s q ↔ ∃ value r, (nested .lowest).Clean p value r ∧
      s = .expression p.current value ∧ q = r.skip .semicolon := by
  rw [expressionStatement, clean_current_bind, clean_bind_iff (hn _) fun _ =>
    (steady_skip _).bind fun _ => steady_pure _]
  simp only [clean_skip_bind, clean_pure_iff]

omit hn in
theorem clean_statement_iff {s : Stmt} :
    (statement nested).Clean p s q ↔
      (p.current.kind = .letKeyword ∧ (binding nested).Clean p s q) ∨
      (p.current.kind = .returnKeyword ∧ (result nested).Clean p s q) ∨
      (p.current.kind.statementRule? = none ∧ (expressionStatement nested).Clean p s q) := by
  rw [statement, clean_current_bind]
  cases p.current.kind <;> simp [Kind.statementRule?, keywordStatement]

/-! ## Blocks -/

theorem clean_block_iff {b : Block} :
    (always (block nested)).Clean p b q ↔
      ∃ ss, Collected endsBlock (statement nested) p.advance ss q ∧
        q.current.kind = .closeCurly ∧ b = .mk p.current ss := by
  have hs := steady_statement hn
  have hcol {ss : List Stmt} {r : Parser} :
      collect endsBlock (statement nested) p.advance.tokensLeft p.advance = (ss, r) ∧
          r.recorded = p.advance.recorded ↔
        Collected endsBlock (statement nested) p.advance ss r :=
    collected_iff hs rfl (Nat.le_refl _)
  cases hc : collect endsBlock (statement nested) p.advance.tokensLeft p.advance with
  | mk ss r =>
    have hb : always (block nested) p = (some (.mk p.current ss),
        if r.current.kind = .eof then
          r.record (.unexpectedToken .closeCurly .eof r.current.literal) else r) := by
      unfold always block
      dsimp only
      rw [hc]
    have hle : p.recorded.length ≤ r.recorded.length := by
      have : p.advance.Precedes
          (collect endsBlock (statement nested) p.advance.tokensLeft p.advance).2 :=
        precedes_collect hs _ _
      rw [hc] at this
      exact this.recorded.length_le
    constructor
    · rintro ⟨h, hq⟩
      rw [hb] at h
      cases h
      split at hq
      next =>
        -- the missing brace was recorded
        have : r.recorded.length + 1 = p.recorded.length := congrArg List.length hq
        omega
      next he =>
        have hr := hcol.1 ⟨hc, hq⟩
        refine ⟨ss, ?_, ?_, rfl⟩
        · rwa [if_neg he]
        · rw [if_neg he]
          simpa [endsBlock, he] using hr.stop_current
    · rintro ⟨ss', hr, hk, rfl⟩
      obtain ⟨hc', hq⟩ := hcol.2 hr
      rw [hc] at hc'
      cases hc'
      exact ⟨by rw [hb, if_neg (by simp [hk])], hq⟩

/-! ## What starts an expression -/

theorem clean_unary_iff {e : Expr} :
    (unary nested).Clean p e q ↔ ∃ right, (nested .prefixed).Clean p.advance right q ∧
      e = .unary p.current p.current.literal right := by
  rw [unary, clean_current_bind, clean_advance_bind, clean_bind_pure_iff (hn _)]

theorem clean_grouping_iff {e : Expr} :
    (grouping nested).Clean p e q ↔ ∃ r, (nested .lowest).Clean p.advance e r ∧
      r.peek.kind = .closeParen ∧ q = r.advance := by
  rw [grouping, clean_advance_bind, clean_bind_iff (hn _) fun _ =>
    (steady_expect _).bind fun _ => steady_pure _]
  simp only [clean_expect_bind, clean_pure_iff]
  exact ⟨fun ⟨_, r, h, hk, he, hq⟩ => ⟨r, he ▸ h, hk, hq⟩,
    fun ⟨r, h, hk, hq⟩ => ⟨e, r, h, hk, rfl, hq⟩⟩

theorem clean_alternative_iff {b : Option Block} :
    (alternative nested).Clean p b q ↔
      (p.peek.kind ≠ .elseKeyword ∧ b = none ∧ q = p) ∨
      (p.peek.kind = .elseKeyword ∧ p.advance.peek.kind = .openCurly ∧
        ∃ block', (always (block nested)).Clean p.advance.advance block' q ∧ b = some block') := by
  rw [alternative, clean_peek_bind]
  by_cases hk : p.peek.kind = .elseKeyword
  · rw [if_pos hk, clean_advance_bind, clean_expect_bind,
      clean_bind_pure_iff (steady_block hn)]
    simp [hk]
  · rw [if_neg hk, clean_pure_iff]
    simp [hk]

theorem clean_conditional_iff {e : Expr} :
    (conditional nested).Clean p e q ↔ p.peek.kind = .openParen ∧ ∃ condition r,
      (nested .lowest).Clean p.advance.advance condition r ∧ r.peek.kind = .closeParen ∧
      r.advance.peek.kind = .openCurly ∧ ∃ consequence s,
        (always (block nested)).Clean r.advance.advance consequence s ∧ ∃ other,
          (alternative nested).Clean s other q ∧
            e = .conditional p.current condition consequence other := by
  rw [conditional, clean_current_bind, clean_expect_bind, clean_advance_bind,
    clean_bind_iff (hn _) fun _ => (steady_expect _).bind fun _ => (steady_expect _).bind fun _ =>
      (steady_block hn).bind fun _ => (steady_alternative hn).bind fun _ => steady_pure _]
  refine and_congr_right fun _ => exists_congr fun _ => exists_congr fun r =>
    and_congr_right fun _ => ?_
  rw [clean_expect_bind, clean_expect_bind, clean_bind_iff (steady_block hn) fun _ =>
    (steady_alternative hn).bind fun _ => steady_pure _]
  refine and_congr_right fun _ => and_congr_right fun _ => exists_congr fun _ =>
    exists_congr fun s => and_congr_right fun _ => ?_
  rw [clean_bind_pure_iff (steady_alternative hn)]

theorem clean_function_iff {e : Expr} :
    (function nested).Clean p e q ↔ p.peek.kind = .openParen ∧ ∃ names r,
      parameters.Clean p.advance names r ∧ r.peek.kind = .openCurly ∧ ∃ body,
        (always (block nested)).Clean r.advance body q ∧ e = .function p.current names body := by
  rw [function, clean_current_bind, clean_expect_bind, clean_bind_iff steady_parameters fun _ =>
    (steady_expect _).bind fun _ => (steady_block hn).bind fun _ => steady_pure _]
  refine and_congr_right fun _ => exists_congr fun _ => exists_congr fun r =>
    and_congr_right fun _ => ?_
  rw [clean_expect_bind, clean_bind_pure_iff (steady_block hn)]

omit hn in
theorem clean_start_iff {e : Expr} :
    (start nested).Clean p e q ↔ ∃ rule : PrefixRule, p.current.kind ∈ rule.kinds ∧
      (starting nested rule).Clean p e q := by
  simp only [← Kind.prefixRule?_eq_some_iff]
  rw [start, clean_current_bind]
  cases p.current.kind.prefixRule? with
  | some rule => simp
  | none =>
    simp only [reduceCtorEq, false_and, exists_false, iff_false]
    split <;> exact not_clean_fail

/-! ## What continues an expression -/

theorem clean_binary_iff {left e : Expr} {power : Power} :
    (binary nested left power).Clean p e q ↔ ∃ right, (nested power).Clean p.advance right q ∧
      e = .binary p.current left p.current.literal right := by
  rw [binary, clean_current_bind, clean_advance_bind, clean_bind_pure_iff (hn _)]

theorem clean_argumentsWithin_iff {fuel : Nat} {es : List Expr} (hf : p.tokensLeft ≤ fuel) :
    (argumentsWithin nested fuel).Clean p es q ↔ MoreArguments nested p es q := by
  induction fuel generalizing p es with
  | zero =>
    have hk : p.peek.kind = .eof := TokenStream.kind_peek_eq_eof_iff.2 (Nat.le_succ_of_le hf)
    constructor
    · intro h
      have hi := (clean_expect_bind.1 h).1
      rw [hk] at hi
      cases hi
    · intro h
      cases h <;> simp_all
  | succ fuel ih =>
    rw [argumentsWithin, clean_peek_bind]
    by_cases hk : p.peek.kind = .comma
    · rw [if_pos hk, clean_advance_bind, clean_advance_bind, clean_bind_iff (hn _) fun _ =>
        (steady_argumentsWithin hn fuel).bind fun _ => steady_pure _]
      have hleft {e : Expr} {r : Parser} (h : (nested .lowest).Clean p.advance.advance e r) :
          r.tokensLeft ≤ fuel := by
        have := (h.precedes (hn _)).tokensLeft_le
        rw [Parser.tokensLeft_advance, Parser.tokensLeft_advance] at this
        omega
      rw [moreArguments_iff_of_comma hk]
      simp only [clean_bind_pure_iff (steady_argumentsWithin hn fuel)]
      constructor
      · rintro ⟨e, r, he, more, h, rfl⟩
        exact ⟨e, r, more, he, (ih (hleft he)).1 h, rfl⟩
      · rintro ⟨e, r, more, he, h, rfl⟩
        exact ⟨e, r, he, more, (ih (hleft he)).2 h, rfl⟩
    · rw [if_neg hk, clean_expect_bind, clean_pure_iff, moreArguments_iff_of_ne hk]

theorem clean_arguments_iff {es : List Expr} :
    (arguments nested).Clean p es q ↔
      (p.peek.kind = .closeParen ∧ es = [] ∧ q = p.advance) ∨
      (p.peek.kind ≠ .closeParen ∧ ∃ e r more, (nested .lowest).Clean p.advance e r ∧
        MoreArguments nested r more q ∧ es = e :: more) := by
  rw [arguments, clean_advance_bind, clean_current_bind, Parser.current_advance]
  by_cases hk : p.peek.kind = .closeParen
  · rw [if_pos hk, clean_pure_iff]
    simp [hk]
  · rw [if_neg hk, clean_bind_iff (hn _) fun _ => steady_get.bind fun _ =>
      (steady_argumentsWithin hn _).bind fun _ => steady_pure _]
    simp only [hk, false_and, false_or, ne_eq, not_false_eq_true, true_and]
    refine exists_congr fun e => exists_congr fun r => ?_
    rw [clean_get_bind, clean_bind_pure_iff (steady_argumentsWithin hn _)]
    simp only [clean_argumentsWithin_iff hn (Nat.le_refl _), exists_and_left]

theorem clean_call_iff {callee e : Expr} :
    (call nested callee).Clean p e q ↔ ∃ es, (arguments nested).Clean p es q ∧
      e = .call p.current callee es := by
  rw [call, clean_current_bind, clean_bind_pure_iff (steady_arguments hn)]

theorem clean_continuedWithin_iff {power : Power} {fuel : Nat} {left e : Expr}
    (hf : p.tokensLeft ≤ fuel) :
    (continuedWithin nested power fuel left).Clean p e q ↔ Continued nested power left p e q := by
  induction fuel generalizing p left with
  | zero =>
    have hk : ¬ power < p.peek.kind.power :=
      Parser.not_lt_power_of_tokensLeft (Nat.le_succ_of_le hf)
    rw [continuedWithin, clean_pure_iff, continued_iff_of_not_lt hk]
  | succ fuel ih =>
    rw [continuedWithin, clean_peek_bind]
    by_cases hlt : power < p.peek.kind.power
    · have hsome : p.peek.kind.infixRule?.isSome = true :=
        Kind.isSome_infixRule?.2 (Nat.lt_of_le_of_lt (Nat.zero_le _) hlt)
      obtain ⟨rule, hrule⟩ := Option.isSome_iff_exists.1 hsome
      rw [if_pos hlt, clean_peek_bind, hrule]
      dsimp only
      rw [clean_advance_bind, clean_current_bind, clean_bind_iff (steady_continuing hn _ _ _)
        fun _ => steady_continuedWithin hn _ _ _]
      have hleft {extended : Expr} {r : Parser} (h : (continuing nested left p.peek.kind.power
          rule).Clean p.advance extended r) : r.tokensLeft ≤ fuel := by
        have := (h.precedes (steady_continuing hn _ _ _)).tokensLeft_le
        rw [Parser.tokensLeft_advance] at this
        omega
      rw [continued_iff_of_lt hlt hrule]
      exact exists_congr fun x => exists_congr fun r => and_congr_right fun hx => ih (hleft hx)
    · rw [if_neg hlt, clean_pure_iff, continued_iff_of_not_lt hlt]

theorem clean_expression_iff {power : Power} {e : Expr} :
    (expression nested power).Clean p e q ↔ ∃ left r, (start nested).Clean p left r ∧
      Continued nested power left r e q := by
  rw [expression, clean_bind_iff (steady_start hn) fun _ => steady_get.bind fun _ =>
    steady_continuedWithin hn _ _ _]
  refine exists_congr fun _ => exists_congr fun r => and_congr_right fun _ => ?_
  rw [clean_get_bind, clean_continuedWithin_iff hn (Nat.le_refl _)]

end

end Rule

/-! ## The parser -/

namespace Parser

theorem not_clean_expressionWithin_zero {power : Power} {e : Expr} :
    ¬ (expressionWithin 0 power).Clean p e q := not_clean_fail

theorem clean_expressionWithin_succ_iff {room : Nat} {power : Power} {e : Expr} :
    (expressionWithin (room + 1) power).Clean p e q ↔ p.depth < maxNestingDepth ∧ ∃ left r s,
      (Rule.start (expressionWithin room)).Clean p.deepen left r ∧
        Rule.Continued (expressionWithin room) power left r e s ∧ q = s.leave := by
  rw [expressionWithin, clean_enclosed_iff]
  refine and_congr_right fun _ => ?_
  simp only [Rule.clean_expression_iff (steady_expressionWithin room)]
  constructor
  · rintro ⟨s, ⟨left, r, hl, hc⟩, hq⟩
    exact ⟨left, r, s, hl, hc, hq⟩
  · rintro ⟨left, r, s, hl, hc, hq⟩
    exact ⟨s, ⟨left, r, hl, hc⟩, hq⟩

theorem clean_loggedStatement_iff {s : Stmt} :
    loggedStatement.Clean p s q ↔ ∃ r, statement.Clean p s r ∧ q = r.note (.completed s) := by
  have hs : statement.Steady := Rule.steady_statement (steady_expressionWithin _)
  have hn (s : Stmt) : (update (note (.completed s))).Steady :=
    steady_of_update fun p => precedes_note _ p
  rw [loggedStatement, clean_bind_iff hs fun s => (hn s).bind fun _ => steady_pure s]
  constructor
  · rintro ⟨s', r, h, hq⟩
    cases hq.1
    exact ⟨r, h, rfl⟩
  · rintro ⟨r, h, rfl⟩
    exact ⟨s, r, h, rfl, rfl⟩

/-- All tokens ahead that are no stray characters are spelled as their kinds say. -/
def Spelled (p : Parser) : Prop := ∀ t ∈ p.ahead, t.kind ≠ .illegal → t.isSpelled = true

theorem Spelled.precedes (h : p.Spelled) (hpq : p.Precedes q) : q.Spelled :=
  fun t ht => h t (hpq.ahead.subset ht)

theorem Spelled.advance (h : p.Spelled) : p.advance.Spelled := h.precedes (precedes_advance p)

/-- The parser at the first token of a source, after it has told that it starts. -/
def opened (source : String) (file : Option String) (options : Options) : Parser :=
  (ofSource source file options).note (.started (ofSource source file options).stream.file)

theorem spelled_opened (source : String) (file : Option String) (options : Options) :
    (opened source file options).Spelled :=
  fun _ ht => TokenStream.isSpelled_of_mem_ahead ht

end Parser

theorem dropLast_tokenize (source : String) (file : Option String) (options : Options) :
    (tokenize source file).dropLast = (Parser.opened source file options).ahead := by
  simp [tokenize, TokenStream.toList, Parser.opened, Parser.ahead, Parser.note, Parser.ofSource,
    Parser.start]

/-- A parse collects the statements up to the end of the source. -/
theorem parse_eq (source : String) (file : Option String) (options : Options) :
    parse source file options =
      ⟨⟨(collect (· == .eof) Parser.loggedStatement (Parser.opened source file options).tokensLeft
          (.opened source file options)).1⟩,
        (collect (· == .eof) Parser.loggedStatement (Parser.opened source file options).tokensLeft
          (.opened source file options)).2.errors⟩ := rfl

/-- A parse without errors goes through a clean run of statements up to the end of the source. -/
theorem parse_eq_iff {source : String} {file : Option String} {options : Options}
    {ss : List Stmt} : parse source file options = ⟨⟨ss⟩, []⟩ ↔
      ∃ q, Collected (· == .eof) Parser.loggedStatement (.opened source file options) ss q := by
  cases hc : collect (· == .eof) Parser.loggedStatement
    (Parser.opened source file options).tokensLeft (.opened source file options) with
  | mk ss' r =>
    have hp : parse source file options = ⟨⟨ss'⟩, r.errors⟩ := by rw [parse_eq, hc]
    have hiff {ss : List Stmt} {q : Parser} :
        collect (· == .eof) Parser.loggedStatement (Parser.opened source file options).tokensLeft
              (.opened source file options) = (ss, q) ∧
            q.recorded = (Parser.opened source file options).recorded ↔
          Collected (· == .eof) Parser.loggedStatement (.opened source file options) ss q :=
      collected_iff Parser.steady_loggedStatement rfl (Nat.le_refl _)
    rw [hp]
    constructor
    · intro h
      injection h with h1 h2
      injection h1 with h1
      subst h1
      exact ⟨r, hiff.1 ⟨hc, List.reverse_eq_nil_iff.1 h2⟩⟩
    · rintro ⟨q, h⟩
      obtain ⟨hc', hq⟩ := hiff.2 h
      rw [hc] at hc'
      cases hc'
      rw [Parser.errors, hq]
      rfl

end ExprLang
