import ExprLang.Proofs.Parser.Exact
import ExprLang.Proofs.Parser.SpareFuel

/-!
# Statements that start with a condition and a block

A statement `if (x) { ...` reads its condition without looking at the block, so its run is the run
of the block and then of what is behind it (`loggedStatement_conditional`). What was ahead behind
the block is all that the statement can read from there on (`ahead_loggedStatement`), and what the
block has recorded stays recorded (`recorded_loggedStatement`). If a semicolon or the end of the
source is behind the block, the statement ends there (`loggedStatement_of_closed`).
-/

set_option autoImplicit false

namespace ExprLang

open Step

/-- The tokens ahead are `if (x) {`, for some word `x`. -/
structure Parser.StartsBlock (p : Parser) : Prop where
  keyword : p.current.kind = .ifKeyword
  openParen : p.peek.kind = .openParen
  word : p.advance.peek.kind = .identifier
  closeParen : p.advance.advance.peek.kind = .closeParen
  openCurly : p.advance.advance.advance.peek.kind = .openCurly

/-- The parser at the brace of `if (x) {`, inside of the conditional. -/
def Parser.atBlock (p : Parser) : Parser := p.deepen.advance.advance.advance.advance

theorem Parser.startsBlock_of_ahead {p : Parser} {header ts : List Token}
    (h : p.ahead = header ++ ts) (hk : header.map Token.kind =
      [.ifKeyword, .openParen, .identifier, .closeParen, .openCurly]) :
    p.StartsBlock ∧ p.atBlock.rest = ts := by
  obtain ⟨keyword, _, rfl, hkeyword, hk⟩ := List.map_eq_cons_iff.1 hk
  obtain ⟨paren, _, rfl, hparen, hk⟩ := List.map_eq_cons_iff.1 hk
  obtain ⟨word, _, rfl, hword, hk⟩ := List.map_eq_cons_iff.1 hk
  obtain ⟨paren', _, rfl, hparen', hk⟩ := List.map_eq_cons_iff.1 hk
  obtain ⟨brace, _, rfl, hbrace, hk⟩ := List.map_eq_cons_iff.1 hk
  obtain rfl := List.map_eq_nil_iff.1 hk
  obtain ⟨h0, hrest⟩ := current_of_ahead h
  obtain ⟨h1, hrest⟩ := current_of_ahead (p := p.advance) hrest
  obtain ⟨h2, hrest⟩ := current_of_ahead (p := p.advance.advance) hrest
  obtain ⟨h3, hrest⟩ := current_of_ahead (p := p.advance.advance.advance) hrest
  obtain ⟨h4, hrest⟩ := current_of_ahead (p := p.advance.advance.advance.advance) hrest
  refine ⟨⟨?_, ?_, ?_, ?_, ?_⟩, hrest⟩
  · rw [h0, hkeyword]
  · rw [← current_advance, h1, hparen]
  · rw [← current_advance, h2, hword]
  · rw [← current_advance, h3, hparen']
  · rw [← current_advance, h4, hbrace]

theorem Step.bind_of_eq {α β : Type} {m m' : Step α} {p q : Parser} (h : m p = m' q)
    (f : α → Step β) : (m >>= f) p = (m' >>= f) q := by
  rw [bind_apply, bind_apply, h]

variable {p : Parser}

namespace Rule

variable {nested : Power → Step Expr}

/-- What an expression does behind the first block of a conditional. -/
def behindBlock (nested : Power → Step Expr) (token : Token) (condition : Expr)
    (consequence : Block) : Step Expr := do
  let other ← alternative nested
  continued nested .lowest (.conditional token condition consequence other)

theorem steady_behindBlock (hn : ∀ power, (nested power).Steady) (token : Token)
    (condition : Expr) (consequence : Block) :
    (behindBlock nested token condition consequence).Steady :=
  (steady_alternative hn).bind fun _ => steady_continued hn _ _

theorem continued_of_not_lt {power : Power} {left : Expr} (h : ¬ power < p.peek.kind.power) :
    continued nested power left p = (some left, p) := continuedWithin_of_not_lt h

/-- A token that neither goes on with the conditional nor takes it as an operand ends it. -/
theorem behindBlock_of_ne {token : Token} {condition : Expr} {consequence : Block}
    (hk : p.peek.kind ≠ .elseKeyword) (hp : p.peek.kind.power = .lowest) :
    behindBlock nested token condition consequence p =
      (some (.conditional token condition consequence none), p) := by
  have ha : alternative nested p = (some none, p) := congrFun (if_neg hk) p
  rw [behindBlock, bind_of_some ha]
  refine continued_of_not_lt ?_
  rw [hp]
  exact Power.not_lt_lowest _

/-- The blocks of a conditional. -/
def blocks (nested : Power → Step Expr) (token : Token) (condition : Expr) : Step Expr := do
  let consequence ← always (block nested)
  let other ← alternative nested
  return Expr.conditional token condition consequence other

theorem blocks_bind (token : Token) (condition : Expr) :
    blocks nested token condition >>= continued nested .lowest =
      always (block nested) >>= behindBlock nested token condition := by
  rw [blocks, bind_assoc]
  refine congrArg _ (funext fun consequence => ?_)
  rw [bind_assoc]
  rfl

theorem conditional_of_startsBlock (h : p.StartsBlock) {condition : Expr}
    (hc : nested .lowest p.advance.advance = (some condition, p.advance.advance)) :
    conditional nested p =
      blocks nested p.current condition p.advance.advance.advance.advance := by
  have hopen : expect .openParen p = (some (), p.advance) := if_pos h.openParen
  have hclose : expect .closeParen p.advance.advance = (some (), p.advance.advance.advance) :=
    if_pos h.closeParen
  have hbrace : expect .openCurly p.advance.advance.advance =
      (some (), p.advance.advance.advance.advance) := if_pos h.openCurly
  calc conditional nested p
      = (do
        let condition ← nested .lowest
        expect .closeParen
        expect .openCurly
        blocks nested p.current condition) p.advance.advance := bind_of_some hopen
    _ = (do
        expect .openCurly
        blocks nested p.current condition) p.advance.advance.advance :=
      (bind_of_some hc).trans (bind_of_some hclose)
    _ = blocks nested p.current condition p.advance.advance.advance.advance := bind_of_some hbrace

theorem expression_of_startsBlock (h : p.StartsBlock) {condition : Expr}
    (hc : nested .lowest p.advance.advance = (some condition, p.advance.advance)) :
    expression nested .lowest p =
      (always (block nested) >>= behindBlock nested p.current condition)
        p.advance.advance.advance.advance := by
  have hstart : start nested p = conditional nested p := by
    have hrule : p.current.kind.prefixRule? = some .conditional := by rw [h.keyword]; rfl
    rw [start, bind_apply]
    simp only [current, hrule]
    rfl
  rw [expression_eq, ← blocks_bind]
  exact bind_of_eq (hstart.trans (conditional_of_startsBlock h hc)) _

end Rule

/-! ## The parser -/

namespace Parser

theorem expressionWithin_of_identifier {room : Nat} (hd : p.depth < maxNestingDepth)
    (hk : p.current.kind = .identifier) (hp : p.peek.kind.power = .lowest) :
    expressionWithin (room + 1) .lowest p = (some (.identifier (.ofToken p.current)), p) := by
  have hstart : Rule.start (expressionWithin room) p.deepen =
      (some (.identifier (.ofToken p.current)), p.deepen) := by
    have hrule : p.deepen.current.kind.prefixRule? = some .identifier := by
      rw [show p.deepen.current = p.current from rfl, hk]
      rfl
    rw [Rule.start, bind_apply]
    simp only [Step.current, hrule]
    rfl
  have hcontinued : Rule.expression (expressionWithin room) .lowest p.deepen =
      (some (.identifier (.ofToken p.current)), p.deepen) := by
    rw [Rule.expression_eq, bind_of_some hstart]
    refine Rule.continued_of_not_lt ?_
    rw [show p.deepen.peek = p.peek from rfl, hp]
    exact Power.not_lt_lowest _
  rw [expressionWithin, enclosed_of_lt hd, hcontinued]
  rfl

/-- The expressions inside of an expression that is not inside of another one. -/
abbrev inner : Power → Step Expr := expressionWithin (maxNestingDepth - 1)

/-- The block of a statement `if (x) {`, and the expression up to its end. -/
def fromBlock (p : Parser) : Option Expr × Parser :=
  Rule.behindBlock inner p.current (.identifier (.ofToken p.advance.peek))
    (Rule.block inner p.atBlock).1 (Rule.block inner p.atBlock).2

theorem expression_of_startsBlock (h : p.StartsBlock) (hd : p.depth + 1 < maxNestingDepth) :
    Parser.expression .lowest p = ((fromBlock p).1, (fromBlock p).2.leave) := by
  have hdeep : p.depth < maxNestingDepth := Nat.lt_of_succ_lt hd
  have hstarts : p.deepen.StartsBlock :=
    ⟨h.keyword, h.openParen, h.word, h.closeParen, h.openCurly⟩
  have hc : inner .lowest p.deepen.advance.advance =
      (some (.identifier (.ofToken p.advance.peek)), p.deepen.advance.advance) := by
    have hp : p.deepen.advance.advance.peek.kind.power = .lowest := by
      rw [hstarts.closeParen]
      rfl
    exact expressionWithin_of_identifier hd h.word hp
  change enclosed (Rule.expression inner .lowest) p = _
  rw [enclosed_of_lt hdeep, Rule.expression_of_startsBlock hstarts hc]
  rfl

/-- The statement is run from its block on. -/
theorem loggedStatement_of_startsBlock (h : p.StartsBlock) (hd : p.depth + 1 < maxNestingDepth) :
    loggedStatement p = match fromBlock p with
      | (some e, q) => (some (.expression p.current e),
          (q.leave.skip .semicolon).note (.completed (.expression p.current e)))
      | (none, q) => (none, q.leave) := by
  have hs : statement p = Rule.expressionStatement Parser.expression p := by
    have hrule : p.current.kind.statementRule? = none := by rw [h.keyword]; rfl
    rw [statement, Rule.statement, bind_apply]
    simp only [Step.current, hrule]
  rw [loggedStatement, bind_apply, hs, Rule.expressionStatement, bind_apply]
  simp only [Step.current]
  rw [bind_apply, expression_of_startsBlock h hd]
  rcases fromBlock p with ⟨_ | e, q⟩ <;> rfl

theorem precedes_fromBlock (p : Parser) :
    (Rule.block inner p.atBlock).2.Precedes (fromBlock p).2 :=
  (Rule.steady_behindBlock (steady_expressionWithin _) _ _ _).precedes _

section
variable (h : p.StartsBlock) (hd : p.depth + 1 < maxNestingDepth)
include h hd

theorem recorded_loggedStatement :
    (Rule.block inner p.atBlock).2.recorded <:+ (loggedStatement p).2.recorded := by
  have hle := (precedes_fromBlock p).recorded
  rw [loggedStatement_of_startsBlock h hd]
  rcases hf : fromBlock p with ⟨_ | e, q⟩
  · rw [hf] at hle
    exact hle
  · rw [hf] at hle
    exact hle.trans (precedes_skip .semicolon q.leave).recorded

theorem ahead_loggedStatement :
    (loggedStatement p).2.ahead <:+ (Rule.block inner p.atBlock).2.ahead := by
  have hle := (precedes_fromBlock p).ahead
  rw [loggedStatement_of_startsBlock h hd]
  rcases hf : fromBlock p with ⟨_ | e, q⟩
  · rw [hf] at hle
    exact hle
  · rw [hf] at hle
    exact (precedes_skip .semicolon q.leave).ahead.trans hle

/-- The statement ends where its block ends, before a semicolon or at the end of the source. -/
theorem loggedStatement_of_closed {b : Block} {q : Parser}
    (hb : Rule.block inner p.atBlock = (b, q)) (hne : q.peek.kind ≠ .elseKeyword)
    (hp : q.peek.kind.power = .lowest) :
    ∃ s, loggedStatement p = (some s, (q.leave.skip .semicolon).note (.completed s)) := by
  refine ⟨.expression p.current (.conditional p.current (.identifier (.ofToken p.advance.peek)) b
    none), ?_⟩
  have hf : fromBlock p = (some (.conditional p.current (.identifier (.ofToken p.advance.peek)) b
      none), q) := by
    rw [fromBlock, hb]
    exact Rule.behindBlock_of_ne hne hp
  rw [loggedStatement_of_startsBlock h hd, hf]

end

end Parser

end ExprLang
