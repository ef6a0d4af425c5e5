import ExprLang.Proofs.Parser.Termination

/-!
# The number of open expressions

The count of open expressions goes up when an expression is entered and down when it is left, and
between the two a rule can fail at any point. Every rule still ends with the count that it starts
with, because the only step that enters an expression leaves it again however the expression ends
(`steady_enclosed`). So no failure makes the nesting limit any tighter for what follows. Main
statement: `depth_restored`.

At which count the rules read blocks is said over any reader of blocks (`Rule.startingWith`): one
that does as `block` does where the count is that of the rule cannot be told from it.
-/

set_option autoImplicit false

namespace ExprLang

open Step

namespace Parser

theorem closed_depth_eq (d : Nat) : Closed fun p => p.depth = d :=
  fun _ _ hp hpq => hpq.depth.trans hp

/-- What the count of open expressions is when the rules end, and when they read statements. -/
structure Balanced (p : Parser) : Prop where
  statement : (Parser.statement p).2.depth = p.depth
  keywordStatement (rule : StatementRule) : (rule.parse p).2.depth = p.depth
  expressionStatement : (Parser.expressionStatement p).2.depth = p.depth
  block : p.block.2.depth = p.depth
  program : p.program.2.depth = p.depth
  expression (power : Power) : (Parser.expression power p).2.depth = p.depth
  starting (rule : PrefixRule) : (rule.parse p).2.depth = p.depth
  continuing (rule : InfixRule) (left : Expr) (power : Power) :
    (rule.parse left power p).2.depth = p.depth
  /-- The statements of a program are what is read at these parsers, all at the same count. -/
  programStatements :
    let attempts := attempts (· == .eof) loggedStatement (p.note (.started p.stream.file))
    p.program.1.statements = attempts.filterMap (fun q => (loggedStatement q).1) ∧
      ∀ q ∈ attempts, q.depth = p.depth
  /-- So are those of a block. -/
  blockStatements :
    let attempts := attempts Rule.endsBlock Parser.statement p.advance
    p.block.1 = .mk p.current (attempts.filterMap fun q => (Parser.statement q).1) ∧
      ∀ q ∈ attempts, q.depth = p.depth
  /-- A rule reads its blocks at its own count, and does not depend on what they are elsewhere. -/
  blocks (read : Step Block)
    (hread : ∀ q : Parser, q.depth = p.depth → read q = (some q.block.1, q.block.2))
    (rule : PrefixRule) : Rule.startingWith Parser.expression read rule p = rule.parse p

theorem balanced (p : Parser) : p.Balanced where
  statement := ((Rule.steady_statement (steady_expressionWithin _)).precedes p).depth
  keywordStatement rule :=
    ((Rule.steady_keywordStatement (steady_expressionWithin _) rule).precedes p).depth
  expressionStatement :=
    ((Rule.steady_expressionStatement (steady_expressionWithin _)).precedes p).depth
  block := (Rule.precedes_block (steady_expressionWithin _) p).depth
  program :=
    ((precedes_note _ p).trans (precedes_collectAll (· == .eof) steady_loggedStatement _)).depth
  expression power := ((steady_expressionWithin _ power).precedes p).depth
  starting rule := ((Rule.steady_starting (steady_expressionWithin _) rule).precedes p).depth
  continuing rule left power :=
    ((Rule.steady_continuing (steady_expressionWithin _) left power rule).precedes p).depth
  programStatements :=
    ⟨(collectAll_attempts steady_loggedStatement rfl _).1,
      fun _ hq => (precedes_of_mem_attempts steady_loggedStatement rfl hq).depth⟩
  blockStatements := by
    have hs : Parser.statement.Steady := Rule.steady_statement (steady_expressionWithin _)
    exact ⟨congrArg _ (collectAll_attempts hs rfl p.advance).1,
      fun _ hq => (precedes_of_mem_attempts hs rfl hq).depth⟩
  blocks read hread rule :=
    have hn := steady_expressionWithin maxNestingDepth
    (Rule.startingWith_local (closed_depth_eq p.depth) hn (fun _ _ _ => rfl) (Rule.steady_block hn)
      hread rule rfl).trans (congrFun (Rule.startingWith_block _ rule) p)

end Parser

/--
From every state of a parser, each rule ends inside as many open expressions as it starts in, and
the statements of a program or block are read there. In a source this is outside of all expressions.
-/
theorem depth_restored :
    (∀ p : Parser, p.Balanced) ∧
      ∀ (source : String) (file : Option String) (options : Options),
        ∀ q ∈ attempts (· == .eof) Parser.loggedStatement (.opened source file options),
          q.depth = 0 :=
  ⟨Parser.balanced, fun _ _ _ _ hq =>
    (precedes_of_mem_attempts Parser.steady_loggedStatement rfl hq).depth⟩

/-- Statements that fail inside of one, two and no expressions, and one behind them. -/
theorem depth_restored_failures :
    let tried := attempts (· == .eof) Parser.loggedStatement (.opened "if (x 2; ((1; 3" none {})
    tried.map (fun q => q.current.literal) = ["if", "2", "(", ";", "3"] ∧
      (tried.map fun q => (Parser.loggedStatement q).1.isSome) = [false, true, false, false, true] ∧
      ∀ q ∈ tried, q.depth = 0 :=
  ⟨by decide +kernel, by decide +kernel, depth_restored.2 "if (x 2; ((1; 3" none {}⟩

end ExprLang
