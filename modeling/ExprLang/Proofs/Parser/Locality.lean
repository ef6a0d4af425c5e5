import ExprLang.Proofs.Parser.Exact
import ExprLang.Proofs.Parser.Origin

/-!
# Where nested expressions are read

A rule reads nested expressions only from parsers that come behind its own. So two readers of nested
expressions that agree on these parsers give the same run of a rule, and what the second one does
anywhere else cannot show: it need not even move forward. `Parser.Closed P` says that `P` also holds
of all parsers that come behind, and one lemma for each rule says that readers that agree where `P`
holds are enough, if `P` holds behind the first token (`Rule.expression_local`). Where expressions
are read that start at the first token itself, `P` has to hold there (`Rule.statement_local`).

Two rules read blocks, in the middle of an expression. They are also stated over any reader of
blocks (`Rule.startingWith`), of which the same is true (`Rule.startingWith_local`).
-/

set_option autoImplicit false

namespace ExprLang

open Step

/-- What holds of a parser holds of all that come behind it. -/
def Parser.Closed (P : Parser → Prop) : Prop := ∀ p q, P p → p.Precedes q → P q

theorem Parser.Closed.and {P Q : Parser → Prop} (hP : Closed P) (hQ : Closed Q) :
    Closed fun p => P p ∧ Q p :=
  fun p q hp hpq => ⟨hP p q hp.1 hpq, hQ p q hp.2 hpq⟩

theorem Parser.Precedes.advance {p q : Parser} (h : p.Precedes q) :
    p.advance.Precedes q.advance where
  options := h.options
  depth := h.depth
  final := h.final
  ahead := h.rest
  recorded := h.recorded

namespace Step

variable {α β : Type} {P : Parser → Prop} {p : Parser} {m : Step α} {f g : α → Step β}

theorem current_bind_local {f g : Token → Step β} (h : f p.current p = g p.current p) :
    (current >>= f) p = (current >>= g) p := h

theorem peek_bind_local {f g : Token → Step β} (h : f p.peek p = g p.peek p) :
    (peek >>= f) p = (peek >>= g) p := h

theorem advance_bind_local {f g : Unit → Step β} (h : f () p.advance = g () p.advance) :
    (advance >>= f) p = (advance >>= g) p := h

theorem expect_bind_local {kind : Kind} {f g : Unit → Step β}
    (h : p.peek.kind = kind → f () p.advance = g () p.advance) :
    (expect kind >>= f) p = (expect kind >>= g) p := by
  refine bind_congr rfl fun _ q hq => ?_
  unfold expect at hq
  split at hq
  next hk =>
    cases hq
    exact h hk
  next => cases hq

variable (hP : Parser.Closed P)
include hP

/-- Behind steps that do the same there is what comes behind the parser. -/
theorem bind_local {m' : Step α} (hm' : m'.Steady) (hp : P p) (he : m p = m' p)
    (h : ∀ a q, P q → f a q = g a q) : (m >>= f) p = (m' >>= g) p := by
  refine bind_congr he fun a q hq => h a q (hP p q hp ?_)
  have := hm'.precedes p
  rwa [hq] at this

theorem Steady.bind_local (hm : m.Steady) (hp : P p) (h : ∀ a q, P q → f a q = g a q) :
    (m >>= f) p = (m >>= g) p :=
  Step.bind_local hP hm hp rfl h

theorem collect_local {stop : Kind → Bool} {step step' : Step α} (hs : step'.Steady)
    (h : ∀ q, P q → step q = step' q) {fuel : Nat} (hp : P p) :
    collect stop step fuel p = collect stop step' fuel p := by
  induction fuel generalizing p with
  | zero => rfl
  | succ fuel ih =>
    have hnext : P (step' p).2.advance :=
      hP _ _ hp ((hs.precedes p).trans (Parser.precedes_advance _))
    rw [collect, collect, h p hp]
    dsimp only
    rw [ih hnext]

end Step

namespace Rule

/-! ## Rules over a reader of blocks -/

section
variable (nested : Power → Step Expr) (read : Step Block)

/-- The block behind an `else`, if one follows. -/
def alternativeWith : Step (Option Block) := do
  if (← Step.peek).kind = .elseKeyword then
    Step.advance
    Step.expect .openCurly
    return some (← read)
  else return none

/-- `if ( condition ) block`, and perhaps `else block`. -/
def conditionalWith : Step Expr := do
  let token ← Step.current
  Step.expect .openParen
  Step.advance
  let condition ← nested .lowest
  Step.expect .closeParen
  Step.expect .openCurly
  let consequence ← read
  let alternative ← alternativeWith read
  return .conditional token condition consequence alternative

/-- `fn ( parameters ) block` -/
def functionWith : Step Expr := do
  let token ← Step.current
  Step.expect .openParen
  let parameters ← parameters
  Step.expect .openCurly
  let body ← read
  return .function token parameters body

/-- What starts an expression. -/
def startingWith : PrefixRule → Step Expr
  | .conditional => conditionalWith nested read
  | .function => functionWith read
  | rule => starting nested rule

theorem startingWith_block (rule : PrefixRule) :
    startingWith nested (always (block nested)) rule = starting nested rule := by
  cases rule <;> rfl

end

section
variable {P : Parser → Prop} (hP : Parser.Closed P) {nested nested' : Power → Step Expr}
  (hs : ∀ power, (nested' power).Steady)
  (ha : ∀ power q, P q → nested power q = nested' power q) {p : Parser}
include hP hs ha

/-! ## Statements -/

theorem binding_local (hp : P p.advance) : binding nested p = binding nested' p := by
  refine current_bind_local (expect_bind_local fun _ => current_bind_local ?_)
  have hnext := hP _ _ hp (Parser.precedes_advance _)
  refine expect_bind_local fun _ => advance_bind_local ?_
  have hvalue := hP _ _ hnext (Parser.precedes_advance _)
  exact bind_local hP (hs _) hvalue (ha _ _ hvalue) fun _ _ _ => rfl

theorem result_local (hp : P p.advance) : result nested p = result nested' p := by
  refine current_bind_local (advance_bind_local ?_)
  exact bind_local hP (hs _) hp (ha _ _ hp) fun _ _ _ => rfl

theorem keywordStatement_local (rule : StatementRule) (hp : P p.advance) :
    keywordStatement nested rule p = keywordStatement nested' rule p := by
  cases rule with
  | binding => exact binding_local hP hs ha hp
  | result => exact result_local hP hs ha hp

theorem expressionStatement_local (hp : P p) :
    expressionStatement nested p = expressionStatement nested' p := by
  refine current_bind_local ?_
  exact bind_local hP (hs _) hp (ha _ _ hp) fun _ _ _ => rfl

theorem statement_local (hp : P p) : statement nested p = statement nested' p := by
  refine current_bind_local ?_
  cases p.current.kind.statementRule? with
  | none => exact expressionStatement_local hP hs ha hp
  | some rule =>
    exact keywordStatement_local hP hs ha rule (hP _ _ hp (Parser.precedes_advance p))

theorem always_block_local (hp : P p.advance) :
    always (block nested) p = always (block nested') p := by
  have hall : collectAll endsBlock (statement nested) p.advance =
      collectAll endsBlock (statement nested') p.advance :=
    collect_local hP (steady_statement hs) (fun _ hq => statement_local hP hs ha hq) hp
  rw [always_block, always_block, hall]

/-! ## What starts an expression -/

theorem unary_local (hp : P p.advance) : unary nested p = unary nested' p := by
  refine current_bind_local (advance_bind_local ?_)
  exact bind_local hP (hs _) hp (ha _ _ hp) fun _ _ _ => rfl

theorem grouping_local (hp : P p.advance) : grouping nested p = grouping nested' p := by
  refine advance_bind_local ?_
  exact bind_local hP (hs _) hp (ha _ _ hp) fun _ _ _ => rfl

section
variable {read read' : Step Block} (hr : read'.Steady) (hb : ∀ q, P q → read q = read' q)
include hr hb

omit hs ha in
theorem alternativeWith_local (hp : P p.advance) :
    alternativeWith read p = alternativeWith read' p := by
  refine peek_bind_local ?_
  split
  · refine advance_bind_local (expect_bind_local fun _ => ?_)
    have hnext := hP _ _ hp (Parser.precedes_advance _)
    exact bind_local hP hr hnext (hb _ hnext) fun _ _ _ => rfl
  · rfl

theorem conditionalWith_local (hp : P p.advance) :
    conditionalWith nested read p = conditionalWith nested' read' p := by
  refine current_bind_local (expect_bind_local fun _ => advance_bind_local ?_)
  have hcondition := hP _ _ hp (Parser.precedes_advance _)
  refine bind_local hP (hs _) hcondition (ha _ _ hcondition) fun _ q hq => ?_
  refine (steady_expect _).bind_local hP hq fun _ u hu => ?_
  refine (steady_expect _).bind_local hP hu fun _ v hv => ?_
  refine bind_local hP hr hv (hb _ hv) fun _ w hw => ?_
  have hnext := hP _ _ hw (Parser.precedes_advance _)
  exact bind_congr (alternativeWith_local hP hr hb hnext) fun _ _ _ => rfl

omit hs ha in
theorem functionWith_local (hp : P p.advance) : functionWith read p = functionWith read' p := by
  refine current_bind_local (expect_bind_local fun _ => ?_)
  refine steady_parameters.bind_local hP hp fun _ q hq => ?_
  refine (steady_expect _).bind_local hP hq fun _ u hu => ?_
  exact bind_local hP hr hu (hb _ hu) fun _ _ _ => rfl

theorem startingWith_local (rule : PrefixRule) (hp : P p.advance) :
    startingWith nested read rule p = startingWith nested' read' rule p := by
  cases rule with
  | identifier | integer | boolean => rfl
  | unary => exact unary_local hP hs ha hp
  | grouping => exact grouping_local hP hs ha hp
  | conditional => exact conditionalWith_local hP hs ha hr hb hp
  | function => exact functionWith_local hP hr hb hp

end

theorem starting_local (rule : PrefixRule) (hp : P p.advance) :
    starting nested rule p = starting nested' rule p := by
  rw [← startingWith_block, ← startingWith_block]
  exact startingWith_local hP hs ha (steady_block hs)
    (fun q hq => always_block_local hP hs ha (hP _ _ hq (Parser.precedes_advance q))) rule hp

/-! ## What continues an expression -/

theorem binary_local (left : Expr) (power : Power) (hp : P p.advance) :
    binary nested left power p = binary nested' left power p := by
  refine current_bind_local (advance_bind_local ?_)
  exact bind_local hP (hs _) hp (ha _ _ hp) fun _ _ _ => rfl

theorem argumentsWithin_local {fuel : Nat} (hp : P p) :
    argumentsWithin nested fuel p = argumentsWithin nested' fuel p := by
  induction fuel generalizing p with
  | zero => rfl
  | succ fuel ih =>
    refine peek_bind_local ?_
    split
    · refine advance_bind_local (advance_bind_local ?_)
      have hnext := hP _ _ hp ((Parser.precedes_advance _).trans (Parser.precedes_advance _))
      refine bind_local hP (hs _) hnext (ha _ _ hnext) fun _ q hq => ?_
      exact bind_local hP (steady_argumentsWithin hs _) hq (ih hq) fun _ _ _ => rfl
    · rfl

theorem arguments_local (hp : P p.advance) : arguments nested p = arguments nested' p := by
  refine advance_bind_local (current_bind_local ?_)
  split
  · rfl
  · refine bind_local hP (hs _) hp (ha _ _ hp) fun _ q hq => ?_
    refine steady_get.bind_local hP hq fun _ r hr => ?_
    exact bind_local hP (steady_argumentsWithin hs _) hr (argumentsWithin_local hP hs ha hr)
      fun _ _ _ => rfl

theorem call_local (callee : Expr) (hp : P p.advance) :
    call nested callee p = call nested' callee p := by
  refine current_bind_local ?_
  refine bind_congr (arguments_local hP hs ha hp) fun _ _ _ => rfl

theorem continuing_local (left : Expr) (power : Power) (rule : InfixRule) (hp : P p.advance) :
    continuing nested left power rule p = continuing nested' left power rule p := by
  cases rule with
  | binary => exact binary_local hP hs ha left power hp
  | call => exact call_local hP hs ha left hp

/-- The loop reads nested expressions only behind operators. -/
theorem continuedWithin_local {power : Power} {fuel : Nat} {left : Expr} (hp : P p.advance) :
    continuedWithin nested power fuel left p = continuedWithin nested' power fuel left p := by
  induction fuel generalizing p left with
  | zero => rfl
  | succ fuel ih =>
    refine peek_bind_local ?_
    split
    · refine peek_bind_local ?_
      cases p.peek.kind.infixRule? with
      | none => rfl
      | some rule =>
        refine advance_bind_local (current_bind_local ?_)
        have hnext := hP _ _ hp (Parser.precedes_advance _)
        refine bind_local hP (steady_continuing hs _ _ _) hp
          (continuing_local hP hs ha _ _ rule hnext) fun _ q hq => ?_
        exact ih (hP _ _ hq (Parser.precedes_advance _))
    · rfl

theorem start_local (hp : P p.advance) : start nested p = start nested' p := by
  refine current_bind_local ?_
  cases p.current.kind.prefixRule? with
  | none => rfl
  | some rule => exact starting_local hP hs ha rule hp

theorem expression_local (power : Power) (hp : P p.advance) :
    expression nested power p = expression nested' power p := by
  refine bind_congr (start_local hP hs ha hp) fun left q hq => ?_
  have hpast : p.Precedes q := by
    have := (steady_start hs).precedes p
    rwa [hq] at this
  exact continuedWithin_local hP hs ha (hP _ _ hp hpast.advance)

end

/-- At the end of the source no expression starts, and nothing is read. -/
theorem expression_of_eof {nested nested' : Power → Step Expr} {p : Parser} {power : Power}
    (h : p.current.kind = .eof) : expression nested power p = expression nested' power p := by
  have hstart (nested : Power → Step Expr) :
      start nested p = (none, p.record (.noPrefixRule p.current.kind p.current.literal)) := by
    rw [start, bind_apply]
    simp only [current, h]
    rfl
  rw [expression, expression, bind_of_none (hstart nested), bind_of_none (hstart nested')]

end Rule

end ExprLang
