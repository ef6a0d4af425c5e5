import ExprLang.Proofs.Parser.CleanRules

/-!
# Loops with fuel to spare

Each round of a loop leaves fewer tokens, so a loop that may go on for as many rounds as there are
tokens left never runs out of rounds: two such bounds give the same run (`collect_eq`,
`parametersWithin_eq`, `argumentsWithin_eq`, `continuedWithin_eq`). Two runs can then be compared
under one bound, though their parsers are bounded by different numbers of tokens, and statements can
be collected round by round (`collectAll_round`).
-/

set_option autoImplicit false

namespace ExprLang

open Step

variable {p : Parser} {n m : Nat}

namespace Step

variable {α β : Type}

theorem bind_congr {k l : Step α} {f g : α → Step β} (hk : k p = l p)
    (h : ∀ a q, l p = (some a, q) → f a q = g a q) : (k >>= f) p = (l >>= g) p := by
  rw [bind_apply, bind_apply, hk]
  split
  next a q hq => exact h a q hq
  next => rfl

theorem Steady.tokensLeft_le {step : Step α} (hs : step.Steady) {a : α} {q : Parser}
    (h : step p = (some a, q)) : q.tokensLeft ≤ p.tokensLeft := by
  have := (hs.precedes p).tokensLeft_le
  rwa [h] at this

/-! ## Statements up to a token -/

variable {stop : Kind → Bool} {step : Step α}

theorem collect_of_stop (h : stop p.current.kind = true) : collect stop step n p = ([], p) := by
  cases n with
  | zero => rfl
  | succ n => rw [collect, if_pos h]

theorem collect_eq (hs : step.Steady) (hstop : stop .eof = true) (hn : p.tokensLeft ≤ n)
    (hm : p.tokensLeft ≤ m) : collect stop step n p = collect stop step m p := by
  have hend {q : Parser} (h : q.tokensLeft ≤ 0) : stop q.current.kind = true := by
    rw [Parser.kind_current_of_ahead_nil (List.length_eq_zero_iff.1 (Nat.le_zero.1 h)), hstop]
  induction n generalizing m p with
  | zero => rw [collect_of_stop (hend hn), collect_of_stop (hend hn)]
  | succ n ih =>
    cases hc : stop p.current.kind with
    | true => rw [collect_of_stop hc, collect_of_stop hc]
    | false =>
      cases m with
      | zero =>
        rw [hend hm] at hc
        cases hc
      | succ m =>
        have hle := (hs.precedes p).tokensLeft_le
        have hleft := Parser.tokensLeft_advance (step p).2
        have hround := ih (p := (step p).2.advance) (m := m) (by omega) (by omega)
        rw [collect_succ hc, collect_succ hc, hround]

/-- All rounds up to a token to stop at. -/
def collectAll (stop : Kind → Bool) (step : Step α) (p : Parser) : List α × Parser :=
  collect stop step p.tokensLeft p

theorem collectAll_of_stop (h : stop p.current.kind = true) : collectAll stop step p = ([], p) :=
  collect_of_stop h

theorem precedes_collectAll (stop : Kind → Bool) (hs : step.Steady) (p : Parser) :
    p.Precedes (collectAll stop step p).2 := precedes_collect hs _ p

theorem tokensLeft_round_lt (hs : step.Steady) (hstop : stop .eof = true)
    (h : stop p.current.kind = false) : (step p).2.advance.tokensLeft < p.tokensLeft := by
  have hpos : p.tokensLeft ≠ 0 := by
    intro hp
    rw [Parser.kind_current_of_ahead_nil (List.length_eq_zero_iff.1 hp), hstop] at h
    cases h
  have hle := (hs.precedes p).tokensLeft_le
  have hleft := Parser.tokensLeft_advance (step p).2
  omega

theorem collectAll_round (hs : step.Steady) (hstop : stop .eof = true)
    (h : stop p.current.kind = false) :
    collectAll stop step p =
      ((step p).1.toList ++ (collectAll stop step (step p).2.advance).1,
        (collectAll stop step (step p).2.advance).2) := by
  have hlt := tokensLeft_round_lt hs hstop h
  rw [collectAll, collect_eq hs hstop (Nat.le_refl _) (Nat.le_succ _), collect_succ h,
    collect_eq hs hstop (Nat.le_of_lt hlt) (Nat.le_refl _)]
  rfl

/-- What holds where the loop stops, and in front of a round if it holds behind it, always holds. -/
@[elab_as_elim]
theorem rounds_induction {motive : Parser → Prop} (hs : step.Steady) (hstop : stop .eof = true)
    (stopped : ∀ p, stop p.current.kind = true → motive p)
    (round : ∀ p, stop p.current.kind = false → motive (step p).2.advance → motive p)
    (p : Parser) : motive p := by
  induction hn : p.tokensLeft using Nat.strongRecOn generalizing p with
  | _ n ih =>
    cases hc : stop p.current.kind with
    | true => exact stopped p hc
    | false => exact round p hc (ih _ (hn ▸ tokensLeft_round_lt hs hstop hc) _ rfl)

end Step

namespace Rule

/-! ## Parameters -/

theorem kind_peek_of_tokensLeft (h : p.tokensLeft ≤ 0) : p.peek.kind = .eof :=
  TokenStream.kind_peek_eq_eof_iff.2 (Nat.le_succ_of_le h)

theorem parametersWithin_of_ne (h : p.peek.kind ≠ .identifier) :
    parametersWithin n p =
      (none, p.recordAt (.unexpectedToken .identifier p.peek.kind p.peek.literal)
        p.peek.span.start) := by
  have he : expect .identifier p = (none, p.recordAt
      (.unexpectedToken .identifier p.peek.kind p.peek.literal) p.peek.span.start) := if_neg h
  cases n <;> exact bind_of_none he

theorem parametersWithin_of_comma (h : p.peek.kind = .identifier)
    (hc : p.advance.peek.kind = .comma) :
    parametersWithin (n + 1) p =
      (do return Identifier.ofToken p.peek :: (← parametersWithin n)) p.advance.advance := by
  have he : expect .identifier p = (some (), p.advance) := if_pos h
  rw [parametersWithin, bind_of_some he]
  simp only [bind_apply, current, advance, update, Parser.current_advance, hc]

theorem parametersWithin_of_ne_comma (h : p.peek.kind = .identifier)
    (hc : p.advance.peek.kind ≠ .comma) :
    parametersWithin (n + 1) p =
      if p.advance.peek.kind = .closeParen then (some [.ofToken p.peek], p.advance.advance)
      else (none, p.advance.advance.record (.unexpectedTokenDetailed p.advance.peek.literal
        "expected `,` or `)` in parameter list")) := by
  have he : expect .identifier p = (some (), p.advance) := if_pos h
  rw [parametersWithin, bind_of_some he]
  simp only [bind_apply, current, advance, update, Parser.current_advance]
  cases hk : p.advance.peek.kind <;> first | rfl | exact absurd hk hc

theorem parametersWithin_eq (hn : p.tokensLeft ≤ n) (hm : p.tokensLeft ≤ m) :
    parametersWithin n p = parametersWithin m p := by
  have hend {q : Parser} (h : q.tokensLeft ≤ 0) : q.peek.kind ≠ .identifier := by
    rw [kind_peek_of_tokensLeft h]
    decide
  induction n generalizing m p with
  | zero => rw [parametersWithin_of_ne (hend hn), parametersWithin_of_ne (hend hn)]
  | succ n ih =>
    by_cases hk : p.peek.kind = .identifier
    · cases m with
      | zero => exact absurd hk (hend hm)
      | succ m =>
        have hleft := Parser.tokensLeft_advance p
        have hleft' := Parser.tokensLeft_advance p.advance
        by_cases hc : p.advance.peek.kind = .comma
        · rw [parametersWithin_of_comma hk hc, parametersWithin_of_comma hk hc]
          exact bind_congr (ih (by omega) (by omega)) fun _ _ _ => rfl
        · rw [parametersWithin_of_ne_comma hk hc, parametersWithin_of_ne_comma hk hc]
    · rw [parametersWithin_of_ne hk, parametersWithin_of_ne hk]

section
variable {nested : Power → Step Expr}

/-! ## Blocks -/

/-- What a block does at the token that it stops at. -/
def closeBlock (p : Parser) : Parser :=
  if p.current.kind = .eof then p.record (.unexpectedToken .closeCurly .eof p.current.literal)
  else p

theorem always_block : always (block nested) p =
    (some (.mk p.current (collectAll endsBlock (statement nested) p.advance).1),
      closeBlock (collectAll endsBlock (statement nested) p.advance).2) := rfl

/-! ## Arguments -/

theorem argumentsWithin_of_ne (h : p.peek.kind ≠ .comma) :
    argumentsWithin nested n p = (do Step.expect .closeParen; return []) p := by
  cases n with
  | zero => rfl
  | succ n => exact congrFun (if_neg h) p

theorem argumentsWithin_succ (h : p.peek.kind = .comma) :
    argumentsWithin nested (n + 1) p =
      (do let argument ← nested .lowest
          return argument :: (← argumentsWithin nested n)) p.advance.advance :=
  congrFun (if_pos h) p

variable (hn : ∀ power, (nested power).Steady)
include hn

theorem argumentsWithin_eq (hle : p.tokensLeft ≤ n) (hle' : p.tokensLeft ≤ m) :
    argumentsWithin nested n p = argumentsWithin nested m p := by
  have hend {q : Parser} (h : q.tokensLeft ≤ 0) : q.peek.kind ≠ .comma := by
    rw [kind_peek_of_tokensLeft h]
    decide
  induction n generalizing m p with
  | zero => rw [argumentsWithin_of_ne (hend hle), argumentsWithin_of_ne (hend hle)]
  | succ n ih =>
    by_cases hk : p.peek.kind = .comma
    · cases m with
      | zero => exact absurd hk (hend hle')
      | succ m =>
        have hleft := Parser.tokensLeft_advance p
        have hleft' := Parser.tokensLeft_advance p.advance
        rw [argumentsWithin_succ hk, argumentsWithin_succ hk]
        refine bind_congr rfl fun e q hq => ?_
        have := (hn _).tokensLeft_le hq
        exact bind_congr (ih (by omega) (by omega)) fun _ _ _ => rfl
    · rw [argumentsWithin_of_ne hk, argumentsWithin_of_ne hk]

/-! ## What continues an expression -/

omit hn in
theorem continuedWithin_of_not_lt {power : Power} {left : Expr}
    (h : ¬ power < p.peek.kind.power) :
    continuedWithin nested power n left p = (some left, p) := by
  cases n with
  | zero => rfl
  | succ n => exact congrFun (if_neg h) p

omit hn in
theorem continuedWithin_succ {power : Power} {left : Expr} {rule : InfixRule}
    (h : power < p.peek.kind.power) (hrule : p.peek.kind.infixRule? = some rule) :
    continuedWithin nested power (n + 1) left p =
      (continuing nested left p.peek.kind.power rule >>= continuedWithin nested power n)
        p.advance := by
  refine (congrFun (if_pos h) p).trans ?_
  rw [bind_apply]
  simp only [peek, hrule]
  rfl

theorem continuedWithin_eq {power : Power} {left : Expr} (hle : p.tokensLeft ≤ n)
    (hle' : p.tokensLeft ≤ m) :
    continuedWithin nested power n left p = continuedWithin nested power m left p := by
  have hend {q : Parser} (h : q.tokensLeft ≤ 0) : ¬ power < q.peek.kind.power :=
    Parser.not_lt_power_of_tokensLeft (Nat.le_succ_of_le h)
  induction n generalizing m p left with
  | zero => rw [continuedWithin_of_not_lt (hend hle), continuedWithin_of_not_lt (hend hle)]
  | succ n ih =>
    by_cases hlt : power < p.peek.kind.power
    · cases m with
      | zero => exact absurd hlt (hend hle')
      | succ m =>
        have hsome : p.peek.kind.infixRule?.isSome = true :=
          Kind.isSome_infixRule?.2 (Nat.lt_of_le_of_lt (Nat.zero_le _) hlt)
        obtain ⟨rule, hrule⟩ := Option.isSome_iff_exists.1 hsome
        have hleft := Parser.tokensLeft_advance p
        rw [continuedWithin_succ hlt hrule, continuedWithin_succ hlt hrule]
        refine bind_congr rfl fun e q hq => ?_
        have := (steady_continuing hn _ _ _).tokensLeft_le hq
        exact ih (by omega) (by omega)
    · rw [continuedWithin_of_not_lt hlt, continuedWithin_of_not_lt hlt]

end

end Rule

theorem parse_eq_collectAll (source : String) (file : Option String) (options : Options) :
    parse source file options =
      ⟨⟨(collectAll (· == .eof) Parser.loggedStatement (.opened source file options)).1⟩,
        (collectAll (· == .eof) Parser.loggedStatement (.opened source file options)).2.errors⟩ :=
  parse_eq source file options

end ExprLang
