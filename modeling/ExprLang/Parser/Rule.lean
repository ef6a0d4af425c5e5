import ExprLang.Parser.Power
import ExprLang.Parser.Step
import ExprLang.Text.Decimal

/-!
# The rules of the grammar

One step for each rule. Where a rule needs an expression inside it calls `nested`, which stands for
the parser of nested expressions: so no rule refers to another level of nesting, and a rule
can be studied with any `nested`. Loops are bounded by the number of tokens left, which each
round lowers.

Every rule starts with the cursor on its first token and ends with it on its last one. The tables
`prefixRule?`, `infixRule?` and `statementRule?` choose a rule by the kind of a token.
-/

set_option autoImplicit false

namespace ExprLang

/-- The rules for what starts an expression. -/
inductive PrefixRule where
  | identifier
  | integer
  | boolean
  | unary
  | grouping
  | conditional
  | function
  deriving DecidableEq, Repr

/-- The rules for what continues an expression. -/
inductive InfixRule where
  | binary
  | call
  deriving DecidableEq, Repr

/-- The rules for statements that start with a keyword. -/
inductive StatementRule where
  | binding
  | result
  deriving DecidableEq, Repr

namespace Kind

/-- The rule for an expression that starts with a token of this kind. -/
def prefixRule? : Kind → Option PrefixRule
  | .identifier => some .identifier
  | .integer => some .integer
  | .trueKeyword | .falseKeyword => some .boolean
  | .not | .dash => some .unary
  | .openParen => some .grouping
  | .ifKeyword => some .conditional
  | .fnKeyword => some .function
  | _ => none

/-- The rule for an expression that goes on with a token of this kind. -/
def infixRule? : Kind → Option InfixRule
  | .equals | .notEquals | .less | .greater | .plus | .dash | .star | .slash => some .binary
  | .openParen => some .call
  | _ => none

/-- The rule for a statement whose keyword is of this kind. -/
def statementRule? : Kind → Option StatementRule
  | .letKeyword => some .binding
  | .returnKeyword => some .result
  | _ => none

/-- The tokens that bind an operand are the ones that can follow it. -/
theorem isSome_infixRule? {kind : Kind} :
    kind.infixRule?.isSome = true ↔ .lowest < kind.power := by
  cases kind <;> decide

end Kind

namespace Rule

/-! ## Words and numbers -/

/-- An identifier. -/
def identifier : Step Expr := do
  return .identifier (.ofToken (← Step.current))

/-- An integer literal. One that is no 64-bit integer is reported and counts as zero. -/
def integer : Step Expr := do
  let token ← Step.current
  match Text.readInt64? token.literal.toList with
  | some value => return .integer token value
  | none =>
    Step.update (Parser.record (.invalidNumber token.literal))
    return .integer token 0

/-- A truth value. -/
def boolean : Step Expr := do
  let token ← Step.current
  return .boolean token (token.kind == .trueKeyword)

/-! ## Statements -/

/-- The end of a binding or result: a semicolon, which may be missing unless it is required. -/
def terminator : Step Unit := do
  if (← Step.get).options.requireSemicolons then Step.expect .semicolon
  else Step.update (Parser.skip .semicolon)

section

variable (nested : Power → Step Expr)

/-- `let name = value`, and the terminator. -/
def binding : Step Stmt := do
  let token ← Step.current
  Step.expect .identifier
  let name ← Step.current
  Step.expect .assignment
  Step.advance
  let value ← nested .lowest
  terminator
  return .binding token (.ofToken name) value

/-- `return value`, and the terminator. -/
def result : Step Stmt := do
  let token ← Step.current
  Step.advance
  let value ← nested .lowest
  terminator
  return .result token value

/-- An expression, and a semicolon if there is one. -/
def expressionStatement : Step Stmt := do
  let token ← Step.current
  let value ← nested .lowest
  Step.update (Parser.skip .semicolon)
  return .expression token value

/-- A statement that starts with a keyword. -/
def keywordStatement : StatementRule → Step Stmt
  | .binding => binding nested
  | .result => result nested

/-- Any statement. -/
def statement : Step Stmt := do
  match (← Step.current).kind.statementRule? with
  | some rule => keywordStatement nested rule
  | none => expressionStatement nested

/-! ## Blocks -/

/-- The tokens that no statement of a block starts with. -/
def endsBlock (kind : Kind) : Bool := kind == .closeCurly || kind == .eof

/-- Statements up to the closing brace, which has to be there. Failed statements are dropped. -/
def block (p : Parser) : Block × Parser :=
  let inside := p.advance
  let (statements, q) :=
    Step.collect endsBlock (statement nested) inside.tokensLeft inside
  (.mk p.current statements,
    if q.current.kind = .eof then q.record (.unexpectedToken .closeCurly .eof q.current.literal)
    else q)

/-! ## What starts an expression -/

/-- An operator before its operand. -/
def unary : Step Expr := do
  let token ← Step.current
  Step.advance
  let right ← nested .prefixed
  return .unary token token.literal right

/-- `( expression )` -/
def grouping : Step Expr := do
  Step.advance
  let inner ← nested .lowest
  Step.expect .closeParen
  return inner

/-- The block behind an `else`, if one follows. -/
def alternative : Step (Option Block) := do
  if (← Step.peek).kind = .elseKeyword then
    Step.advance
    Step.expect .openCurly
    return some (← Step.always (block nested))
  else return none

/-- `if ( condition ) block`, and perhaps `else block`. -/
def conditional : Step Expr := do
  let token ← Step.current
  Step.expect .openParen
  Step.advance
  let condition ← nested .lowest
  Step.expect .closeParen
  Step.expect .openCurly
  let consequence ← Step.always (block nested)
  let alternative ← alternative nested
  return .conditional token condition consequence alternative

/-- Identifiers with commas between them, and the closing parenthesis. -/
def parametersWithin : Nat → Step (List Identifier)
  | 0 => do
    Step.expect .identifier
    return []
  | fuel + 1 => do
    Step.expect .identifier
    let name ← Step.current
    Step.advance
    let next ← Step.current
    match next.kind with
    | .comma => return .ofToken name :: (← parametersWithin fuel)
    | .closeParen => return [.ofToken name]
    | _ =>
      Step.fail
        (.unexpectedTokenDetailed next.literal "expected `,` or `)` in parameter list")

/-- The parameters of a function and their parentheses. -/
def parameters : Step (List Identifier) := do
  if (← Step.peek).kind = .closeParen then
    Step.advance
    return []
  else parametersWithin (← Step.get).tokensLeft

/-- `fn ( parameters ) block` -/
def function : Step Expr := do
  let token ← Step.current
  Step.expect .openParen
  let parameters ← parameters
  Step.expect .openCurly
  let body ← Step.always (block nested)
  return .function token parameters body

/-- What starts an expression. -/
def starting : PrefixRule → Step Expr
  | .identifier => identifier
  | .integer => integer
  | .boolean => boolean
  | .unary => unary nested
  | .grouping => grouping nested
  | .conditional => conditional nested
  | .function => function nested

/-! ## What continues an expression -/

/--
An operator and its right operand. The right operand is read at the operator's own power, so an
operator of the same power that follows takes the whole operation as its left operand.
-/
def binary (left : Expr) (power : Power) : Step Expr := do
  let token ← Step.current
  Step.advance
  let right ← nested power
  return .binary token left token.literal right

/-- Expressions with a comma before each, and the closing parenthesis. -/
def argumentsWithin : Nat → Step (List Expr)
  | 0 => do
    Step.expect .closeParen
    return []
  | fuel + 1 => do
    if (← Step.peek).kind = .comma then
      Step.advance
      Step.advance
      let argument ← nested .lowest
      return argument :: (← argumentsWithin fuel)
    else
      Step.expect .closeParen
      return []

/-- The arguments of a call and their parentheses. -/
def arguments : Step (List Expr) := do
  Step.advance
  if (← Step.current).kind = .closeParen then return []
  else
    let first ← nested .lowest
    return first :: (← argumentsWithin nested (← Step.get).tokensLeft)

/-- The arguments behind a function to call. -/
def call (callee : Expr) : Step Expr := do
  let token ← Step.current
  return .call token callee (← arguments nested)

/-- What continues the expression `left`; the power is that of the current token. -/
def continuing (left : Expr) (power : Power) : InfixRule → Step Expr
  | .binary => binary nested left power
  | .call => call nested left

/-- Continues the expression `left` as long as stronger tokens than `power` follow. -/
def continuedWithin (power : Power) : Nat → Expr → Step Expr
  | 0, left => return left
  | fuel + 1, left => do
    if power < (← Step.peek).kind.power then
      match (← Step.peek).kind.infixRule? with
      | none => return left
      | some rule =>
        Step.advance
        let extended ← continuing nested left (← Step.current).kind.power rule
        continuedWithin power fuel extended
    else return left

/-- The start of an expression, which some rule has to cover. -/
def start : Step Expr := do
  let token ← Step.current
  match token.kind.prefixRule? with
  | some rule => starting nested rule
  | none =>
    if token.kind = .illegal then Step.fail (.illegalToken token.literal)
    else Step.fail (.noPrefixRule token.kind token.literal)

/-- The longest expression whose operators outside of parentheses are stronger than `power`. -/
def expression (power : Power) : Step Expr := do
  let left ← start nested
  continuedWithin nested power (← Step.get).tokensLeft left

end

end Rule

end ExprLang
