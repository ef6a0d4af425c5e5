import ExprLang.Token.Basic

/-!
# Syntax trees

Expressions, statements, blocks and programs. Each node keeps the token it was built from: a
prefix or infix operation its operator, a call the parenthesis that opens its arguments, a block
its opening brace, an expression statement the first token of its expression, and every other node
the keyword or word that it starts with. Grouping parentheses leave no node.
-/

set_option autoImplicit false

namespace ExprLang

/-- A name, in an expression, a binding or a parameter list. -/
structure Identifier where
  token : Token
  value : String
  deriving DecidableEq, Repr

mutual

/-- An expression. -/
inductive Expr where
  | identifier (name : Identifier)
  /-- An integer literal; its spelling, which may have leading zeros, is that of the token. -/
  | integer (token : Token) (value : Int64)
  | boolean (token : Token) (value : Bool)
  /-- An operator before its operand, as in `!ready`. -/
  | unary (token : Token) (operator : String) (right : Expr)
  /-- An operator between its operands, as in `a + b`. -/
  | binary (token : Token) (left : Expr) (operator : String) (right : Expr)
  /-- `if (condition) consequence`, possibly with `else alternative`. -/
  | conditional (token : Token) (condition : Expr) (consequence : Block)
      (alternative : Option Block)
  /-- `callee(arguments)` -/
  | call (token : Token) (callee : Expr) (arguments : List Expr)
  /-- `fn(parameters) body` -/
  | function (token : Token) (parameters : List Identifier) (body : Block)

/-- Statements in braces. -/
inductive Block where
  | mk (token : Token) (statements : List Stmt)

/-- A statement. -/
inductive Stmt where
  /-- `let name = value;` -/
  | binding (token : Token) (name : Identifier) (value : Expr)
  /-- `return value;` -/
  | result (token : Token) (value : Expr)
  /-- An expression by itself. -/
  | expression (token : Token) (value : Expr)

end

/-- The statements of a whole source. -/
structure Program where
  statements : List Stmt

/-! ## Parts of a node -/

/-- The token that an expression was built from. -/
def Expr.token : Expr → Token
  | .identifier name => name.token
  | .integer token _ | .boolean token _ | .unary token _ _ | .binary token _ _ _
  | .conditional token _ _ _ | .call token _ _ | .function token _ _ => token

/-- The brace that opens a block. -/
def Block.token : Block → Token
  | .mk token _ => token

def Block.statements : Block → List Stmt
  | .mk _ statements => statements

/-- The token that a statement was built from. -/
def Stmt.token : Stmt → Token
  | .binding token _ _ | .result token _ | .expression token _ => token

/-- The expression of a statement. -/
def Stmt.value : Stmt → Expr
  | .binding _ _ value | .result _ value | .expression _ value => value

/-- The spelling of the first statement's token, empty for an empty program. -/
def Program.tokenLiteral (p : Program) : String :=
  match p.statements with
  | [] => ""
  | statement :: _ => statement.token.literal

/-- The identifier that a token spells. -/
def Identifier.ofToken (token : Token) : Identifier := ⟨token, token.literal⟩

end ExprLang
