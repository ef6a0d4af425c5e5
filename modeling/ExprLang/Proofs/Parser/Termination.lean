import ExprLang.Proofs.Parser.Locality

/-!
# Termination

The rules call one another in a circle, through nested expressions, and five loops go on without a
bound of their own. All of this comes to an end because each call and each round starts with fewer
tokens before the end of the source than the one around it or in front of it. `Recurs size F f` says
so for one recursion: `F` is its body, with the calls left open, and whatever calls with as many
tokens or more would give does not show in what `F` gives. Such a call would show, for it may record
any error, and errors are never taken back. So opening the calls as often as there are tokens, and
once more, gives the result (`Recurs.unrolled_eq`), and the bounds of the loops are never what ends
them. Main statement: `terminating`.
-/

set_option autoImplicit false

namespace ExprLang

open Step

/-! ## Recursion along a size -/

section
variable {σ α : Type}

/-- `f` is what the body `F` gives, and only calls of smaller size matter for it (module doc). -/
def Recurs (size : σ → Nat) (F : (σ → α) → σ → α) (f : σ → α) : Prop :=
  ∀ g x, (∀ y, size y < size x → g y = f y) → F g x = f x

/-- The body with its calls opened `n` times, and `g` for the calls that are left. -/
def unrolled (F : (σ → α) → σ → α) (g : σ → α) : Nat → σ → α
  | 0 => g
  | n + 1 => F (unrolled F g n)

namespace Recurs

variable {size : σ → Nat} {F : (σ → α) → σ → α} {f : σ → α}

/-- A loop with a bound on its rounds, if the size is enough of a bound at every point. -/
theorem of_bounded (within : Nat → σ → α) (hround : ∀ n, within (n + 1) = F (within n))
    (henough : ∀ m n x, size x ≤ m → size x ≤ n → within m x = within n x)
    (hlocal : ∀ g h x, (∀ y, size y < size x → g y = h y) → F g x = F h x) :
    Recurs size F fun x => within (size x) x := by
  intro g x hg
  calc F g x
    _ = F (within (size x)) x :=
      hlocal _ _ x fun y hy => (hg y hy).trans (henough _ _ y (Nat.le_refl _) (Nat.le_of_lt hy))
    _ = within (size x + 1) x := (congrFun (hround _) x).symm
    _ = within (size x) x := henough _ _ x (Nat.le_succ _) (Nat.le_refl _)

/-- Opened more often than the size says, the body gives the result, whatever `g` is. -/
theorem unrolled_eq (h : Recurs size F f) (g : σ → α) {n : Nat} {x : σ} (hn : size x < n) :
    unrolled F g n x = f x := by
  induction n generalizing x with
  | zero => exact absurd hn (Nat.not_lt_zero _)
  | succ n ih => exact h _ x fun y hy => ih (Nat.lt_of_lt_of_le hy (Nat.le_of_lt_succ hn))

end Recurs

end

/-! ## The rounds of the loops -/

namespace Step

variable {α : Type}

/-- A round of `collect`. -/
def collectRound (stop : Kind → Bool) (step : Step α) (again : Parser → List α × Parser)
    (p : Parser) : List α × Parser :=
  if stop p.current.kind then ([], p)
  else
    let (result, q) := step p
    let (results, r) := again q.advance
    (result.toList ++ results, r)

theorem collect_succ_eq (stop : Kind → Bool) (step : Step α) (fuel : Nat) :
    collect stop step (fuel + 1) = collectRound stop step (collect stop step fuel) := rfl

variable {stop : Kind → Bool} {step : Step α}

/-- A round takes at least one token, even if the step fails at it. -/
theorem recurs_collectAll (hs : step.Steady) (hstop : stop .eof = true) :
    Recurs Parser.tokensLeft (collectRound stop step) (collectAll stop step) := by
  refine .of_bounded _ (collect_succ_eq stop step) (fun _ _ _ => collect_eq hs hstop)
    fun again again' p hagain => ?_
  rw [collectRound, collectRound]
  cases hc : stop p.current.kind with
  | true => rfl
  | false =>
    dsimp only
    rw [hagain _ (tokensLeft_round_lt hs hstop hc)]

end Step

namespace Parser

variable {p : Parser}

/-- In front of a token, the cursor moves on. -/
theorem tokensLeft_advance_lt (h : p.peek.kind ≠ .eof) : p.advance.tokensLeft < p.tokensLeft := by
  have hpeek : ¬ p.tokensLeft ≤ 1 := mt TokenStream.kind_peek_eq_eof_iff.2 h
  rw [tokensLeft_advance]
  omega

end Parser

namespace Rule

variable {p : Parser}

/-- A round of `parametersWithin`. -/
def parametersRound (again : Step (List Identifier)) : Step (List Identifier) := do
  Step.expect .identifier
  let name ← Step.current
  Step.advance
  let next ← Step.current
  match next.kind with
  | .comma => return .ofToken name :: (← again)
  | .closeParen => return [.ofToken name]
  | _ =>
    Step.fail
      (.unexpectedTokenDetailed next.literal "expected `,` or `)` in parameter list")

theorem parametersWithin_succ (fuel : Nat) :
    parametersWithin (fuel + 1) = parametersRound (parametersWithin fuel) := rfl

/-- The whole loop over parameters. -/
def moreParameters : Step (List Identifier) := do parametersWithin (← Step.get).tokensLeft

/-- A parameter and the comma behind it are tokens of their own. -/
theorem recurs_moreParameters : Recurs Parser.tokensLeft parametersRound moreParameters := by
  refine .of_bounded _ parametersWithin_succ (fun _ _ _ => parametersWithin_eq)
    fun again again' p hagain => ?_
  refine expect_bind_local fun hk => ?_
  have hlt : p.advance.advance.tokensLeft < p.tokensLeft := by
    have := Parser.tokensLeft_advance_lt (p := p) (by rw [hk]; decide)
    rw [Parser.tokensLeft_advance p.advance]
    omega
  refine current_bind_local (advance_bind_local (current_bind_local ?_))
  cases p.advance.advance.current.kind <;> first
    | rfl
    | exact bind_congr (hagain _ hlt) fun _ _ _ => rfl

section
variable (nested : Power → Step Expr)

/-- A round of `argumentsWithin`. -/
def argumentsRound (again : Step (List Expr)) : Step (List Expr) := do
  if (← Step.peek).kind = .comma then
    Step.advance
    Step.advance
    let argument ← nested .lowest
    return argument :: (← again)
  else
    Step.expect .closeParen
    return []

theorem argumentsWithin_succ_eq (fuel : Nat) :
    argumentsWithin nested (fuel + 1) = argumentsRound nested (argumentsWithin nested fuel) := rfl

/-- A round of `continuedWithin`. -/
def continuedRound (power : Power) (again : Expr → Step Expr) (left : Expr) : Step Expr := do
  if power < (← Step.peek).kind.power then
    match (← Step.peek).kind.infixRule? with
    | none => return left
    | some rule =>
      Step.advance
      let extended ← continuing nested left (← Step.current).kind.power rule
      again extended
  else return left

variable {nested} (hn : ∀ power, (nested power).Steady)
include hn

/-- The comma in front of an argument is a token of its own. -/
theorem recurs_moreArguments :
    Recurs Parser.tokensLeft (argumentsRound nested) (moreArguments nested) := by
  refine .of_bounded _ (argumentsWithin_succ_eq nested) (fun _ _ _ => argumentsWithin_eq hn)
    fun again again' p hagain => peek_bind_local ?_
  split
  next hk =>
    refine advance_bind_local (advance_bind_local (bind_congr rfl fun e q hq => ?_))
    have hlt : q.tokensLeft < p.tokensLeft := by
      have hadvance := Parser.tokensLeft_advance_lt (p := p) (by rw [hk]; decide)
      have hle := (hn _).tokensLeft_le hq
      rw [Parser.tokensLeft_advance p.advance] at hle
      omega
    exact bind_congr (hagain q hlt) fun _ _ _ => rfl
  next => rfl

/-- The operator or parenthesis behind an expression is a token of its own. -/
theorem recurs_continued (power : Power) :
    Recurs (fun x : Expr × Parser => x.2.tokensLeft)
      (fun again x => continuedRound nested power (fun left p => again (left, p)) x.1 x.2)
      (fun x => continued nested power x.1 x.2) := by
  refine .of_bounded (fun fuel (x : Expr × Parser) => continuedWithin nested power fuel x.1 x.2)
    (fun _ => rfl) (fun _ _ _ => continuedWithin_eq hn) ?_
  rintro again again' ⟨left, p⟩ hagain
  refine peek_bind_local ?_
  split
  next hlt =>
    have hk : p.peek.kind ≠ .eof := by
      intro he
      rw [he] at hlt
      exact Power.not_lt_lowest _ hlt
    refine peek_bind_local ?_
    cases p.peek.kind.infixRule? with
    | none => rfl
    | some rule =>
      refine advance_bind_local (current_bind_local (bind_congr rfl fun e q hq => ?_))
      have hfewer : q.tokensLeft < p.tokensLeft :=
        Nat.lt_of_le_of_lt ((steady_continuing hn _ _ _).tokensLeft_le hq)
          (Parser.tokensLeft_advance_lt hk)
      exact hagain (e, q) hfewer
  next => rfl

end

end Rule

/-! ## Expressions -/

namespace Parser

/-- An expression, with the expressions inside of it left open. -/
def expressionBody (call : Power × Parser → Option Expr × Parser) (x : Power × Parser) :
    Option Expr × Parser :=
  Step.enclosed (Rule.expression (fun power p => call (power, p)) x.1) x.2

theorem closed_tokensLeft (n : Nat) : Closed fun p => p.tokensLeft < n :=
  fun _ _ hp hpq => Nat.lt_of_le_of_lt hpq.tokensLeft_le hp

theorem closed_depth (n : Nat) : Closed fun p => maxNestingDepth ≤ p.depth + n :=
  fun p q hp hpq => by
    change maxNestingDepth ≤ q.depth + n
    rwa [hpq.depth]

/-- Where no more expressions may be entered, the levels that are allowed do not matter. -/
theorem expressionWithin_of_not_lt (room : Nat) {power : Power} {p : Parser}
    (h : ¬ p.depth < maxNestingDepth) :
    expressionWithin room power p = (none, p.record (.nestingTooDeep maxNestingDepth)) := by
  cases room with
  | zero => rfl
  | succ room => exact enclosed_of_not_lt h

/-- Levels of nesting that cannot be entered make no difference. -/
theorem expressionWithin_eq {m n : Nat} {power : Power} {p : Parser}
    (hm : maxNestingDepth ≤ p.depth + m) (hn : maxNestingDepth ≤ p.depth + n) :
    expressionWithin m power p = expressionWithin n power p := by
  induction m generalizing n power p with
  | zero => rw [expressionWithin_of_not_lt 0 (by omega), expressionWithin_of_not_lt n (by omega)]
  | succ m ih =>
    by_cases hd : p.depth < maxNestingDepth
    · cases n with
      | zero => omega
      | succ n =>
        have hclosed := (closed_depth m).and (closed_depth n)
        have hdeep : p.deepen.advance.depth = p.depth + 1 := rfl
        rw [expressionWithin, expressionWithin, enclosed_of_lt hd, enclosed_of_lt hd,
          Rule.expression_local hclosed (steady_expressionWithin n) (fun _ _ hq => ih hq.1 hq.2)
            power ⟨by omega, by omega⟩]
    · rw [expressionWithin_of_not_lt _ hd, expressionWithin_of_not_lt _ hd]

/-- A nested expression starts with fewer tokens than the one around it. -/
theorem recurs_expression : Recurs (fun x : Power × Parser => x.2.tokensLeft) expressionBody
    (fun x => expression x.1 x.2) := by
  rintro call ⟨power, p⟩ hcall
  change Step.enclosed _ p = expressionWithin (63 + 1) power p
  by_cases hd : p.depth < maxNestingDepth
  · rw [expressionWithin, enclosed_of_lt hd, enclosed_of_lt hd]
    have hbody : Rule.expression (fun power p => call (power, p)) power p.deepen =
        Rule.expression (expressionWithin 63) power p.deepen := by
      by_cases hk : p.current.kind = .eof
      · exact Rule.expression_of_eof hk
      · have hclosed := (closed_tokensLeft p.tokensLeft).and (closed_depth 63)
        refine Rule.expression_local hclosed (steady_expressionWithin 63) (fun power q hq => ?_)
          power ⟨TokenStream.length_advance_lt hk, ?_⟩
        · refine (hcall (power, q) hq.1).trans (expressionWithin_eq ?_ hq.2)
          exact Nat.le_add_left _ _
        · change 64 ≤ p.depth + 1 + 63
          omega
    rw [hbody]
  · rw [expressionWithin_of_not_lt _ hd, enclosed_of_not_lt hd]

/-- The reader of expressions, its calls opened `n` times, and `call` for those that are left. -/
def unrolledExpression (call : Power × Parser → Option Expr × Parser) (n : Nat) :
    Power → Step Expr :=
  fun power p => unrolled expressionBody call n (power, p)

section
variable {call : Power × Parser → Option Expr × Parser} {n : Nat} {p : Parser}

theorem unrolledExpression_eq {power : Power} (hn : p.tokensLeft < n) :
    unrolledExpression call n power p = expression power p :=
  recurs_expression.unrolled_eq call (x := (power, p)) hn

theorem tokensLeft_advance_lt_of_lt (hn : p.tokensLeft < n) : p.advance.tokensLeft < n :=
  closed_tokensLeft n p _ hn (precedes_advance p)

theorem block_unrolled (hn : p.tokensLeft < n) :
    Rule.block (unrolledExpression call n) p = block p := by
  have hstep : always (Rule.block (unrolledExpression call n)) p = always block p :=
    Rule.always_block_local (closed_tokensLeft n) (steady_expressionWithin _)
      (fun _ _ hq => unrolledExpression_eq hq) (tokensLeft_advance_lt_of_lt hn)
  obtain ⟨hblock, hparser⟩ := Prod.mk.inj hstep
  exact Prod.ext (Option.some.inj hblock) hparser

end

end Parser

/-! ## Attempts -/

namespace Step

variable {α : Type} {stop : Kind → Bool} {step : Step α}

/-- Runs the step only for where it leads, and keeps where it started. -/
def attempt (step : Step α) : Step Parser := fun p => (some p, (step p).2)

/-- The parsers at which the loop runs the step. -/
def attempts (stop : Kind → Bool) (step : Step α) (p : Parser) : List Parser :=
  (collectAll stop step.attempt p).1

theorem steady_attempt (hs : step.Steady) : step.attempt.Steady :=
  ⟨hs.precedes, fun _ hn => nomatch hn⟩

variable {p q : Parser}

theorem attempts_of_stop (h : stop p.current.kind = true) : attempts stop step p = [] := by
  rw [attempts, collectAll_of_stop h]

theorem attempts_round (hs : step.Steady) (hstop : stop .eof = true)
    (h : stop p.current.kind = false) :
    attempts stop step p = p :: attempts stop step (step p).2.advance := by
  rw [attempts, collectAll_round (steady_attempt hs) hstop h]
  rfl

/-- Each attempt is made at a later state of the same parse. -/
theorem precedes_of_mem_attempts (hs : step.Steady) (hstop : stop .eof = true)
    (h : q ∈ attempts stop step p) : p.Precedes q := by
  induction p using rounds_induction hs hstop with
  | stopped p hc =>
    rw [attempts_of_stop hc] at h
    cases h
  | round p hc ih =>
    rw [attempts_round hs hstop hc] at h
    rcases List.mem_cons.1 h with rfl | hmore
    · exact .refl q
    · exact ((hs.precedes p).trans (Parser.precedes_advance _)).trans (ih hmore)

/-- What is collected is what the attempts give, and each attempt starts at a token of its own. -/
theorem collectAll_attempts (hs : step.Steady) (hstop : stop .eof = true) (p : Parser) :
    (collectAll stop step p).1 = (attempts stop step p).filterMap (fun q => (step q).1) ∧
      ((attempts stop step p).map Parser.current).Sublist p.ahead := by
  induction p using rounds_induction hs hstop with
  | stopped p hc =>
    rw [attempts_of_stop hc, collectAll_of_stop hc]
    exact ⟨rfl, List.nil_sublist _⟩
  | round p hc ih =>
    obtain ⟨hresults, htokens⟩ := ih
    have hne : p.current.kind ≠ .eof := by
      intro he
      rw [he, hstop] at hc
      cases hc
    rw [attempts_round hs hstop hc, collectAll_round hs hstop hc, hresults]
    refine ⟨?_, ?_⟩
    · cases hr : (step p).1 <;> simp [hr]
    · rw [List.map_cons, Parser.ahead_of_current hne]
      exact (htokens.trans (hs.precedes p).rest.sublist).cons_cons _

end Step

/-! ## The parser -/

namespace Parser

/-- What it means that the parser comes to an end, whatever it reads and wherever it starts. -/
structure Terminating : Prop where
  /-- A nested expression starts with fewer tokens than the one around it. -/
  expressions : Recurs (fun x : Power × Parser => x.2.tokensLeft) expressionBody
    (fun x => expression x.1 x.2)
  /-- Each round of a loop starts with fewer tokens than the round in front of it. -/
  programLoop : Recurs tokensLeft (Step.collectRound (· == .eof) loggedStatement)
    (collectAll (· == .eof) loggedStatement)
  blockLoop : Recurs tokensLeft (Step.collectRound Rule.endsBlock statement)
    (collectAll Rule.endsBlock statement)
  operatorLoop (power : Power) : Recurs (fun x : Expr × Parser => x.2.tokensLeft)
    (fun again x => Rule.continuedRound expression power (fun left p => again (left, p)) x.1 x.2)
    (fun x => Rule.continued expression power x.1 x.2)
  parameterLoop : Recurs tokensLeft Rule.parametersRound Rule.moreParameters
  argumentLoop : Recurs tokensLeft (Rule.argumentsRound expression) (Rule.moreArguments expression)
  /-- Every rule is done when calls are opened as many times as there are tokens, and once more. -/
  rules (call : Power × Parser → Option Expr × Parser) {n : Nat} {p : Parser}
    (hn : p.tokensLeft < n) :
    (∀ power, unrolledExpression call n power p = expression power p) ∧
      Rule.statement (unrolledExpression call n) p = statement p ∧
      Rule.expressionStatement (unrolledExpression call n) p = expressionStatement p ∧
      (∀ rule : StatementRule,
        Rule.keywordStatement (unrolledExpression call n) rule p = rule.parse p) ∧
      Rule.block (unrolledExpression call n) p = block p ∧
      (∀ rule : PrefixRule, Rule.starting (unrolledExpression call n) rule p = rule.parse p) ∧
      ∀ (rule : InfixRule) (left : Expr) (power : Power),
        Rule.continuing (unrolledExpression call n) left power rule p = rule.parse left power p
  /-- So is the program, and each of its attempts at a statement starts at a token of its own. -/
  program (again : Parser → List Stmt × Parser) {n : Nat} {p : Parser} (hn : p.tokensLeft < n) :
    let start := p.note (.started p.stream.file)
    let run := unrolled (Step.collectRound (· == .eof) loggedStatement) again n start
    let attempts := attempts (· == .eof) loggedStatement start
    p.program = (⟨run.1⟩, run.2.note (.finished run.1.length run.2.errors.length)) ∧
      run.1 = attempts.filterMap (fun q => (loggedStatement q).1) ∧
      (attempts.map current).Sublist p.ahead
  /-- A source has no more attempts at statements than it has tokens before its end. -/
  source (source : String) (file : Option String) (options : Options) :
    (attempts (· == .eof) loggedStatement (opened source file options)).length ≤
      (tokenize source file).dropLast.length

end Parser

theorem terminating : Parser.Terminating where
  expressions := Parser.recurs_expression
  programLoop := recurs_collectAll Parser.steady_loggedStatement rfl
  blockLoop := recurs_collectAll (Rule.steady_statement (Parser.steady_expressionWithin _)) rfl
  operatorLoop := Rule.recurs_continued (Parser.steady_expressionWithin _)
  parameterLoop := Rule.recurs_moreParameters
  argumentLoop := Rule.recurs_moreArguments (Parser.steady_expressionWithin _)
  rules call n p hn := by
    have hP := Parser.closed_tokensLeft n
    have hs := Parser.steady_expressionWithin maxNestingDepth
    have ha : ∀ power q, q.tokensLeft < n → Parser.unrolledExpression call n power q =
        Parser.expressionWithin maxNestingDepth power q := fun _ _ => Parser.unrolledExpression_eq
    have hnext := Parser.tokensLeft_advance_lt_of_lt hn
    exact ⟨fun power => ha power p hn, Rule.statement_local hP hs ha hn,
      Rule.expressionStatement_local hP hs ha hn,
      fun rule => Rule.keywordStatement_local hP hs ha rule hnext, Parser.block_unrolled hn,
      fun rule => Rule.starting_local hP hs ha rule hnext,
      fun rule left power => Rule.continuing_local hP hs ha left power rule hnext⟩
  program again n p hn := by
    intro start run attempts
    have hs := Parser.steady_loggedStatement
    have hrun : run = collectAll (· == .eof) Parser.loggedStatement start :=
      (recurs_collectAll hs rfl).unrolled_eq again hn
    rw [hrun]
    exact ⟨rfl, collectAll_attempts hs rfl start⟩
  source source file options := by
    have htokens : ((attempts (· == .eof) Parser.loggedStatement (.opened source file options)).map
        Parser.current).length ≤ (Parser.opened source file options).ahead.length :=
      (collectAll_attempts Parser.steady_loggedStatement rfl _).2.length_le
    rwa [List.length_map, ← dropLast_tokenize source file options] at htokens

end ExprLang
