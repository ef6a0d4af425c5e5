import ExprLang.Parser.Rule

/-!
# Parsing

The rules of the grammar, applied to one another: the expressions inside an expression are read in
the same way, one level deeper, up to `maxNestingDepth`. A parse never stops at an error. It
gives the statements that could be read together with every error, and leaves it to the caller
what an error means for the program.
-/

set_option autoImplicit false

namespace ExprLang

namespace Parser

/-- An expression, inside of which at most `room` levels of expressions are entered. -/
def expressionWithin : Nat → Power → Step Expr
  | 0, _ => Step.fail (.nestingTooDeep maxNestingDepth)
  | room + 1, power => Step.enclosed (Rule.expression (expressionWithin room) power)

/-- The longest expression whose operators outside of parentheses are stronger than `power`. -/
def expression : Power → Step Expr := expressionWithin maxNestingDepth

/-- A statement. -/
def statement : Step Stmt := Rule.statement expression

/-- A block, with the cursor on its opening brace. -/
def block (p : Parser) : Block × Parser := Rule.block expression p

/-- A statement of a program, which is logged when it is complete. -/
def loggedStatement : Step Stmt := do
  let statement ← statement
  Step.update (note (.completed statement))
  return statement

/-- All statements up to the end of the source. -/
def program (p : Parser) : Program × Parser :=
  let start := p.note (.started p.stream.file)
  let (statements, q) := Step.collect (· == .eof) loggedStatement start.tokensLeft start
  (⟨statements⟩, q.note (.finished statements.length q.errors.length))

end Parser

/-! ## Single rules -/

/-- The rule as a step at the current token, whatever that is. -/
def PrefixRule.parse (rule : PrefixRule) : Step Expr := Rule.starting Parser.expression rule

/-- The rule as a step that continues an expression at the current token, whatever that is. -/
def InfixRule.parse (rule : InfixRule) (left : Expr) (power : Power) : Step Expr :=
  Rule.continuing Parser.expression left power rule

/-- The rule as a step at the current token, whatever that is. -/
def StatementRule.parse (rule : StatementRule) : Step Stmt :=
  Rule.keywordStatement Parser.expression rule

/-- An expression statement at the current token, whatever that is. -/
def Parser.expressionStatement : Step Stmt := Rule.expressionStatement Parser.expression

/-! ## Whole sources -/

/-- What a parse gives: the statements that could be read, and every error. -/
structure Outcome where
  program : Program
  errors : List Diagnostic

namespace Outcome

/-- Whether the source has no errors. -/
def isOk (o : Outcome) : Bool := o.errors.isEmpty

/-- The program of a source without errors, or the errors. -/
def toExcept (o : Outcome) : Except (List Diagnostic) Program :=
  if o.errors.isEmpty then .ok o.program else .error o.errors

theorem toExcept_eq_ok_iff {o : Outcome} {p : Program} :
    o.toExcept = .ok p ↔ o.errors = [] ∧ o.program = p := by
  unfold toExcept
  split <;> simp_all

theorem toExcept_eq_error_iff {o : Outcome} {es : List Diagnostic} :
    o.toExcept = .error es ↔ o.errors ≠ [] ∧ o.errors = es := by
  unfold toExcept
  split <;> simp_all

end Outcome

/-- Parses a source. -/
def parse (source : String) (file : Option String) (options : Options) : Outcome :=
  let (program, p) := (Parser.ofSource source file options).program
  ⟨program, p.errors⟩

/-- What is logged while a source is parsed. -/
def parseLog (source : String) (file : Option String) (options : Options) : List Event :=
  (Parser.ofSource source file options).program.2.log

end ExprLang
