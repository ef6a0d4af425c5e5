import ExprLang.Proofs.Parser.SpareFuel

/-!
# How trees are assembled

A run of a rule that succeeds has assembled its tree from the trees that it read on the way,
whatever errors were recorded inside of its blocks. `Assembly` describes such runs by productions,
as a grammar describes those without errors: from a parser with the cursor on the first token of the
tree to one with the cursor on its last. Lists of statements also pass over what failed. Main
statement (`exists_statements_of_parse`): every program is assembled, so what each production keeps
holds of all trees of the program, with errors or without.
-/

set_option autoImplicit false

namespace ExprLang

open Step Rule

/-- The error that is recorded for a number, if it is out of range. -/
def Token.misread (t : Token) : List Diagnostic :=
  if (Text.readInt64? t.literal.toList).isSome then []
  else [⟨.invalidNumber t.literal, t.span.start⟩]

namespace Assembly

/-- Parameters, from the parenthesis in front of them to the one behind them. -/
inductive Names : Parser → List Identifier → Parser → Prop
  | none {p : Parser} : p.peek.kind = .closeParen → Names p [] p.advance
  | some {p q : Parser} {names : List Identifier} : NamesRead p names q → Names p names q

mutual

/-- An expression whose level of nesting has been entered. -/
inductive Inner : Parser → Expr → Parser → Prop
  | identifier {p : Parser} : p.current.kind = .identifier →
      Inner p (.identifier (.ofToken p.current)) p
  /-- A number that is out of range is recorded. -/
  | integer {p q : Parser} {value : Int64} : p.current.kind = .integer → q.stream = p.stream →
      q.depth = p.depth → q.recorded = p.current.misread ++ p.recorded →
      Inner p (.integer p.current value) q
  | boolean {p : Parser} {value : Bool} : p.current.kind ∈ PrefixRule.boolean.kinds →
      Inner p (.boolean p.current value) p
  | unary {p q : Parser} {right : Expr} : p.current.kind ∈ Kind.unaryOperators →
      Nested p.advance right q → Inner p (.unary p.current p.current.literal right) q
  | grouping {p q : Parser} {e : Expr} : p.current.kind = .openParen → Nested p.advance e q →
      q.peek.kind = .closeParen → Inner p e q.advance
  | conditional {p q r s : Parser} {condition : Expr} {consequence : Block}
      {alternative : Option Block} : p.current.kind = .ifKeyword → p.peek.kind = .openParen →
      Nested p.advance.advance condition q → q.peek.kind = .closeParen →
      Braces q.advance.advance consequence r → Alternative r alternative s →
      Inner p (.conditional p.current condition consequence alternative) s
  | function {p q r : Parser} {names : List Identifier} {body : Block} :
      p.current.kind = .fnKeyword → p.peek.kind = .openParen → Names p.advance names q →
      Braces q.advance body r → Inner p (.function p.current names body) r
  /-- The left operand was read in the same level. -/
  | binary {p q r : Parser} {left right : Expr} : Inner p left q →
      q.peek.kind ∈ Kind.binaryOperators → Nested q.advance.advance right r →
      Inner p (.binary q.peek left q.peek.literal right) r
  | call {p q r : Parser} {callee : Expr} {arguments : List Expr} : Inner p callee q →
      q.peek.kind = .openParen → Arguments q.advance arguments r →
      Inner p (.call q.peek callee arguments) r

/-- An expression with a level of nesting of its own. -/
inductive Nested : Parser → Expr → Parser → Prop
  | mk {p q : Parser} {e : Expr} : p.depth < maxNestingDepth → Inner p.deepen e q →
      Nested p e q.leave

/-- Arguments, from the parenthesis in front of them to the one behind them. -/
inductive Arguments : Parser → List Expr → Parser → Prop
  | none {p : Parser} : p.peek.kind = .closeParen → Arguments p [] p.advance
  | some {p q r : Parser} {e : Expr} {es : List Expr} : Nested p.advance e q → More q es r →
      Arguments p (e :: es) r

/-- The arguments behind the first one. -/
inductive More : Parser → List Expr → Parser → Prop
  | close {p : Parser} : p.peek.kind = .closeParen → More p [] p.advance
  | more {p q r : Parser} {e : Expr} {es : List Expr} : p.peek.kind = .comma →
      Nested p.advance.advance e q → More q es r → More p (e :: es) r

/-- What stands behind a conditional's first block. -/
inductive Alternative : Parser → Option Block → Parser → Prop
  | none {p : Parser} : Alternative p none p
  | some {p q : Parser} {block : Block} : p.peek.kind = .elseKeyword →
      Braces p.advance.advance block q → Alternative p (some block) q

/-- A block, of which the closing brace may be missing at the end of the source. -/
inductive Braces : Parser → Block → Parser → Prop
  | mk {p q : Parser} {statements : List Stmt} : p.current.kind = .openCurly →
      Statements p.advance statements q → Braces p (.mk p.current statements) (closeBlock q)

/-- Statements, up to the token behind the last one. -/
inductive Statements : Parser → List Stmt → Parser → Prop
  | nil {p : Parser} : Statements p [] p
  | cons {p q r : Parser} {s : Stmt} {ss : List Stmt} : Statement p s q →
      Statements q.advance ss r → Statements p (s :: ss) r
  /-- A statement that failed is passed over. -/
  | failed {p q r : Parser} {ss : List Stmt} : p.Precedes q → Statements q.advance ss r →
      Statements p ss r

/-- A statement with its terminator. -/
inductive Statement : Parser → Stmt → Parser → Prop
  | binding {p q r : Parser} {value : Expr} : p.current.kind = .letKeyword →
      p.peek.kind = .identifier → p.advance.peek.kind = .assignment →
      Nested p.advance.advance.advance value q → q.Precedes r →
      Statement p (.binding p.current (.ofToken p.peek) value) r
  | result {p q r : Parser} {value : Expr} : p.current.kind = .returnKeyword →
      Nested p.advance value q → q.Precedes r → Statement p (.result p.current value) r
  | expression {p q r : Parser} {value : Expr} : Nested p value q → q.Precedes r →
      Statement p (.expression p.current value) r

end

/-! Which kind a production asks for also says which ones its token is not of. -/

theorem kind_ne_of_eq {t : Token} {kind other : Kind} (h : t.kind = kind) (hne : kind ≠ other) :
    t.kind ≠ other := h ▸ hne

theorem kind_ne_of_mem {t : Token} {kinds : List Kind} {other : Kind} (h : t.kind ∈ kinds)
    (hne : other ∉ kinds) : t.kind ≠ other := fun he => hne (he ▸ h)

end Assembly

/-! ## Runs that succeed -/

/-- If the step succeeds, its result and the parser behind it are as `Q` says. -/
def Step.Ends {α : Type} (m : Step α) (p : Parser) (Q : α → Parser → Prop) : Prop :=
  ∀ a q, m p = (some a, q) → Q a q

namespace Step

variable {α β : Type} {p : Parser} {Q : α → Parser → Prop} {R : β → Parser → Prop} {m : Step α}
  {f : α → Step β}

theorem ends_pure {a : α} (h : Q a p) : (pure a : Step α).Ends p Q := by
  rintro b q hb
  cases hb
  exact h

theorem ends_fail {fault : Fault} : (fail fault : Step α).Ends p Q := fun _ _ h => nomatch h

theorem Ends.bind (hm : m.Ends p Q) (hf : ∀ a q, Q a q → (f a).Ends q R) :
    (m >>= f).Ends p R := by
  intro b r hb
  rw [bind_apply] at hb
  split at hb
  next a q ha => exact hf a q (hm a q ha) b r hb
  next => cases hb

theorem ends_current_bind {f : Token → Step β} (h : (f p.current).Ends p R) :
    (current >>= f).Ends p R := h

theorem ends_peek_bind {f : Token → Step β} (h : (f p.peek).Ends p R) :
    (peek >>= f).Ends p R := h

theorem ends_get_bind {f : Parser → Step β} (h : (f p).Ends p R) : (get >>= f).Ends p R := h

theorem ends_advance_bind {f : Unit → Step β} (h : (f ()).Ends p.advance R) :
    (advance >>= f).Ends p R := h

theorem ends_expect_bind {kind : Kind} {f : Unit → Step β}
    (h : p.peek.kind = kind → (f ()).Ends p.advance R) : (expect kind >>= f).Ends p R := by
  intro b r hb
  by_cases hk : p.peek.kind = kind
  · have he : expect kind p = (some (), p.advance) := if_pos hk
    rw [bind_of_some he] at hb
    exact h hk b r hb
  · rw [bind_of_none (if_neg hk)] at hb
    cases hb

/-- A step of which only matters where it leads. -/
theorem Steady.ends (hm : m.Steady) : m.Ends p fun _ q => p.Precedes q := by
  intro a q h
  have hprecedes := hm.precedes p
  rwa [h] at hprecedes

theorem ends_enclosed (h : m.Ends p.deepen Q) :
    (enclosed m).Ends p fun a q => p.depth < maxNestingDepth ∧ ∃ r, Q a r ∧ q = r.leave := by
  intro a q ha
  by_cases hd : p.depth < maxNestingDepth
  · rw [enclosed_of_lt hd] at ha
    obtain ⟨hres, rfl⟩ := Prod.mk.inj ha
    exact ⟨hd, _, h a _ (Prod.ext hres rfl), rfl⟩
  · rw [enclosed_of_not_lt hd] at ha
    cases ha

/-- What is collected is what the rounds give, and what fails is passed over. -/
theorem statements_collectAll {stop : Kind → Bool} {step : Step Stmt} (hs : step.Steady)
    (hstop : stop .eof = true) (hstep : ∀ p, step.Ends p (Assembly.Statement p)) (p : Parser) :
    Assembly.Statements p (collectAll stop step p).1 (collectAll stop step p).2 := by
  induction p using rounds_induction hs hstop with
  | stopped p hc =>
    rw [collectAll_of_stop hc]
    exact .nil
  | round p hc hmore =>
    have hround : ∀ s q, step p = (some s, q) → Assembly.Statement p s q := hstep p
    have hpast := hs.precedes p
    rw [collectAll_round hs hstop hc]
    generalize step p = result at hmore hround hpast
    rcases result with ⟨_ | s, q⟩
    · exact .failed hpast hmore
    · exact .cons (hround s q rfl) hmore

end Step

/-! ## The rules -/

namespace Rule

open Assembly

variable {p : Parser}

theorem precedes_closeBlock (p : Parser) : p.Precedes (closeBlock p) := by
  unfold closeBlock
  split
  · exact Parser.precedes_recordAt _ _ p
  · exact .refl p

theorem ends_integer (hk : p.current.kind = .integer) : integer.Ends p (Inner p) := by
  intro e q h
  rw [integer, bind_apply] at h
  dsimp only [current] at h
  cases hv : Text.readInt64? p.current.literal.toList <;> rw [hv] at h <;> cases h
  · exact .integer hk rfl rfl (by rw [Token.misread, hv]; rfl)
  · exact .integer hk rfl rfl (by rw [Token.misread, hv]; rfl)

theorem ends_parametersWithin {n : Nat} (hn : p.tokensLeft ≤ n) :
    (parametersWithin n).Ends p (NamesRead p) := by
  induction n generalizing p with
  | zero =>
    have hk : p.peek.kind ≠ .identifier := by
      rw [kind_peek_of_tokensLeft hn]
      decide
    intro names q h
    rw [parametersWithin_of_ne hk] at h
    cases h
  | succ n ih =>
    intro names q h
    by_cases hk : p.peek.kind = .identifier
    · by_cases hc : p.advance.peek.kind = .comma
      · have hleft : p.advance.advance.tokensLeft ≤ n := by
          rw [Parser.tokensLeft_advance, Parser.tokensLeft_advance]
          omega
        rw [parametersWithin_of_comma hk hc] at h
        refine Ends.bind (R := fun names q => NamesRead p names q) (ih hleft) (fun more r hr => ?_)
          names q h
        exact ends_pure (.more hk hc hr)
      · rw [parametersWithin_of_ne_comma hk hc] at h
        split at h
        next hp =>
          cases h
          exact .last hk hp
        next => cases h
    · rw [parametersWithin_of_ne hk] at h
      cases h

theorem ends_parameters : parameters.Ends p (Names p) := by
  apply ends_peek_bind
  split
  next hk => exact ends_advance_bind (ends_pure (.none hk))
  next =>
    apply ends_get_bind
    exact fun names q h => .some (ends_parametersWithin (Nat.le_refl _) names q h)

section
variable {nested : Power → Step Expr} (hn : ∀ power p, (nested power).Ends p (Nested p))
include hn

/-! ## Statements -/

theorem ends_binding (hk : p.current.kind = .letKeyword) :
    (binding nested).Ends p (Statement p) := by
  refine ends_current_bind (ends_expect_bind fun hname => ends_current_bind ?_)
  refine ends_expect_bind fun hassign => ends_advance_bind ?_
  refine (hn _ _).bind fun value q hvalue => steady_terminator.ends.bind fun _ r hr => ?_
  exact ends_pure (.binding hk hname hassign hvalue hr)

theorem ends_result (hk : p.current.kind = .returnKeyword) :
    (result nested).Ends p (Statement p) := by
  refine ends_current_bind (ends_advance_bind ?_)
  refine (hn _ _).bind fun value q hvalue => steady_terminator.ends.bind fun _ r hr => ?_
  exact ends_pure (.result hk hvalue hr)

theorem ends_expressionStatement : (expressionStatement nested).Ends p (Statement p) := by
  refine ends_current_bind ((hn _ _).bind fun value q hvalue => ?_)
  exact (steady_skip _).ends.bind fun _ r hr => ends_pure (.expression hvalue hr)

theorem ends_statement (p : Parser) : (statement nested).Ends p (Statement p) := by
  apply ends_current_bind
  cases hk : p.current.kind <;> first
    | exact ends_binding hn hk
    | exact ends_result hn hk
    | exact ends_expressionStatement hn

/-! ## What continues an expression -/

theorem ends_binary {left : Expr} {q : Parser} {power : Power} (h : Inner p left q)
    (hk : q.peek.kind ∈ Kind.binaryOperators) :
    (binary nested left power).Ends q.advance (Inner p) := by
  refine ends_current_bind (ends_advance_bind ?_)
  exact (hn _ _).bind fun right r hright => ends_pure (.binary h hk hright)

theorem ends_argumentsWithin {n : Nat} : (argumentsWithin nested n).Ends p (More p) := by
  induction n generalizing p with
  | zero => exact ends_expect_bind fun hk => ends_pure (.close hk)
  | succ n ih =>
    apply ends_peek_bind
    split
    next hk =>
      refine ends_advance_bind (ends_advance_bind ((hn _ _).bind fun e q he => ?_))
      exact ih.bind fun es r hes => ends_pure (.more hk he hes)
    next => exact ends_expect_bind fun hk => ends_pure (.close hk)

theorem ends_arguments : (arguments nested).Ends p (Arguments p) := by
  refine ends_advance_bind (ends_current_bind ?_)
  split
  next hk => exact ends_pure (.none hk)
  next =>
    refine (hn _ _).bind fun e q he => ends_get_bind ?_
    exact (ends_argumentsWithin hn).bind fun es r hes => ends_pure (.some he hes)

theorem ends_call {callee : Expr} {q : Parser} (h : Inner p callee q)
    (hk : q.peek.kind = .openParen) : (call nested callee).Ends q.advance (Inner p) := by
  refine ends_current_bind ((ends_arguments hn).bind fun es r hes => ?_)
  exact ends_pure (.call h hk hes)

theorem ends_continuing {left : Expr} {q : Parser} {power : Power} {rule : InfixRule}
    (h : Inner p left q) (hrule : q.peek.kind.infixRule? = some rule) :
    (continuing nested left power rule).Ends q.advance (Inner p) := by
  have hk : q.peek.kind ∈ Kind.binaryOperators ∧ rule = .binary ∨
      q.peek.kind = .openParen ∧ rule = .call := by
    cases hkind : q.peek.kind <;> rw [hkind] at hrule <;> cases hrule <;> decide
  rcases hk with ⟨hk, rfl⟩ | ⟨hk, rfl⟩
  · exact ends_binary hn h hk
  · exact ends_call hn h hk

theorem ends_continuedWithin {n : Nat} {left : Expr} {q : Parser} {power : Power}
    (h : Inner p left q) : (continuedWithin nested power n left).Ends q (Inner p) := by
  induction n generalizing left q with
  | zero => exact ends_pure h
  | succ n ih =>
    apply ends_peek_bind
    split
    · apply ends_peek_bind
      cases hrule : q.peek.kind.infixRule? with
      | none => exact ends_pure h
      | some rule =>
        refine ends_advance_bind (ends_current_bind ?_)
        exact (ends_continuing hn h hrule).bind fun _ _ he => ih he
    · exact ends_pure h

/-! ## What starts an expression -/

theorem ends_unary (hk : p.current.kind ∈ Kind.unaryOperators) :
    (unary nested).Ends p (Inner p) := by
  refine ends_current_bind (ends_advance_bind ?_)
  exact (hn _ _).bind fun right q hright => ends_pure (.unary hk hright)

theorem ends_grouping (hk : p.current.kind = .openParen) : (grouping nested).Ends p (Inner p) := by
  refine ends_advance_bind ((hn _ _).bind fun e q he => ?_)
  exact ends_expect_bind fun hclose => ends_pure (.grouping hk he hclose)

variable (hs : ∀ power, (nested power).Steady)
include hs

theorem ends_block (hk : p.current.kind = .openCurly) :
    (always (block nested)).Ends p (Braces p) := by
  intro b q h
  rw [always_block] at h
  cases h
  exact .mk hk (statements_collectAll (steady_statement hs) rfl (ends_statement hn) _)

theorem ends_alternative : (alternative nested).Ends p (Alternative p) := by
  apply ends_peek_bind
  split
  next hk =>
    refine ends_advance_bind (ends_expect_bind fun hopen => ?_)
    have hblock := ends_block (p := p.advance.advance) hn hs hopen
    exact hblock.bind fun b q hb => ends_pure (.some hk hb)
  next => exact ends_pure .none

theorem ends_conditional (hk : p.current.kind = .ifKeyword) :
    (conditional nested).Ends p (Inner p) := by
  refine ends_current_bind (ends_expect_bind fun hopen => ends_advance_bind ?_)
  refine (hn _ _).bind fun condition q hcondition => ends_expect_bind fun hclose => ?_
  refine ends_expect_bind fun hcurly => ?_
  refine (ends_block (p := q.advance.advance) hn hs hcurly).bind fun b r hb => ?_
  refine (ends_alternative hn hs).bind fun other s hother => ?_
  exact ends_pure (.conditional hk hopen hcondition hclose hb hother)

theorem ends_function (hk : p.current.kind = .fnKeyword) : (function nested).Ends p (Inner p) := by
  refine ends_current_bind (ends_expect_bind fun hopen => ?_)
  refine ends_parameters.bind fun names q hnames => ends_expect_bind fun hcurly => ?_
  refine (ends_block (p := q.advance) hn hs hcurly).bind fun body r hbody => ?_
  exact ends_pure (.function hk hopen hnames hbody)

theorem ends_starting {rule : PrefixRule} (hk : p.current.kind ∈ rule.kinds) :
    (starting nested rule).Ends p (Inner p) := by
  cases rule with
  | identifier => exact ends_current_bind (ends_pure (.identifier (List.mem_singleton.1 hk)))
  | integer => exact ends_integer (List.mem_singleton.1 hk)
  | boolean => exact ends_current_bind (ends_pure (.boolean hk))
  | unary => exact ends_unary hn hk
  | grouping => exact ends_grouping hn (List.mem_singleton.1 hk)
  | conditional => exact ends_conditional hn hs (List.mem_singleton.1 hk)
  | function => exact ends_function hn hs (List.mem_singleton.1 hk)

theorem ends_start : (start nested).Ends p (Inner p) := by
  apply ends_current_bind
  cases hrule : p.current.kind.prefixRule? with
  | some rule => exact ends_starting hn hs (Kind.prefixRule?_eq_some_iff.1 hrule)
  | none =>
    dsimp only
    split <;> exact ends_fail

theorem ends_expression (power : Power) : (expression nested power).Ends p (Inner p) := by
  refine (ends_start hn hs).bind fun left q hleft => ends_get_bind ?_
  exact ends_continuedWithin hn hleft

end

end Rule

/-! ## The parser -/

namespace Parser

theorem ends_expressionWithin (room : Nat) (power : Power) (p : Parser) :
    (expressionWithin room power).Ends p (Assembly.Nested p) := by
  induction room generalizing power p with
  | zero => exact ends_fail
  | succ room ih =>
    intro e q h
    have hinner : (Rule.expression (expressionWithin room) power).Ends p.deepen
        (Assembly.Inner p.deepen) := Rule.ends_expression ih (steady_expressionWithin room) power
    obtain ⟨hdepth, r, hr, rfl⟩ := ends_enclosed hinner e q h
    exact .mk hdepth hr

theorem ends_loggedStatement (p : Parser) :
    loggedStatement.Ends p (Assembly.Statement p) := by
  refine (Rule.ends_statement (ends_expressionWithin _) p).bind fun s q hs => ?_
  rintro s' r h
  cases h
  have hnote := precedes_note (.completed s) q
  cases hs with
  | binding hk hname hassign hvalue hq => exact .binding hk hname hassign hvalue (hq.trans hnote)
  | result hk hvalue hq => exact .result hk hvalue (hq.trans hnote)
  | expression hvalue hq => exact .expression hvalue (hq.trans hnote)

end Parser

/-- Every program is assembled from the source, up to its end, where all errors are recorded. -/
theorem exists_assembly_of_parse (source : String) (file : Option String) (options : Options) :
    ∃ q, Assembly.Statements (.opened source file options)
      (parse source file options).program.statements q ∧
        (parse source file options).errors = q.errors := by
  rw [parse_eq_collectAll]
  exact ⟨_, statements_collectAll Parser.steady_loggedStatement rfl Parser.ends_loggedStatement _,
    rfl⟩

theorem exists_statements_of_parse (source : String) (file : Option String) (options : Options) :
    ∃ q, Assembly.Statements (.opened source file options)
      (parse source file options).program.statements q :=
  (exists_assembly_of_parse source file options).imp fun _ h => h.1

end ExprLang
