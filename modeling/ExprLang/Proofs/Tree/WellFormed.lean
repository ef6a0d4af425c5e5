import ExprLang.Proofs.Token.Spelling
import ExprLang.Tree.Basic

/-!
# Well-formed trees

A tree is well formed if its tokens are: every token is of a kind that its node can be built from
and spelled as the kind says, and the node's other fields are what the token says. Nothing is asked
of the token of an expression statement, nor of where the tokens stand.
-/

set_option autoImplicit false

namespace ExprLang

/-- Whether the token is of one of the kinds and spelled as the kind says. -/
def Token.isProper (t : Token) (kinds : List Kind) : Bool := t.isOneOf kinds && t.isSpelled

theorem Token.isProper_iff {t : Token} {kinds : List Kind} :
    t.isProper kinds = true ↔ t.kind ∈ kinds ∧ t.isSpelled = true := by
  rw [isProper, Bool.and_eq_true, isOneOf_iff]

theorem Token.isProper_singleton_iff {t : Token} {kind : Kind} :
    t.isProper [kind] = true ↔ t.kind = kind ∧ t.isSpelled = true := by
  rw [isProper_iff, List.mem_singleton]

/-- Whether the name is the word that its token spells. -/
def Identifier.isWellFormed (x : Identifier) : Bool :=
  x.token.isProper [.identifier] && x.token.literal == x.value

theorem Identifier.kind_token {x : Identifier} (h : x.isWellFormed = true) :
    x.token.kind = .identifier := by
  rw [isWellFormed, Bool.and_eq_true, Token.isProper_singleton_iff] at h
  exact h.1.1

mutual

/-- Whether the tokens of an expression fit (module doc). -/
def Expr.isWellFormed : Expr → Bool
  | .identifier name => name.isWellFormed
  | .integer token value =>
    token.isProper [.integer] && value.toInt == Text.decimalValue token.literal.toList
  | .boolean token value => token.isProper [if value then .trueKeyword else .falseKeyword]
  | .unary token operator right =>
    token.isProper Kind.unaryOperators && token.literal == operator && right.isWellFormed
  | .binary token left operator right =>
    token.isProper Kind.binaryOperators && token.literal == operator &&
      left.isWellFormed && right.isWellFormed
  | .conditional token condition consequence alternative =>
    token.isProper [.ifKeyword] && condition.isWellFormed && consequence.isWellFormed &&
      isWellFormedElse alternative
  | .call token callee arguments =>
    token.isProper [.openParen] && callee.isWellFormed && isWellFormedEach arguments
  | .function token parameters body =>
    token.isProper [.fnKeyword] && parameters.all Identifier.isWellFormed && body.isWellFormed

/-- Whether the tokens of a block fit. -/
def Block.isWellFormed : Block → Bool
  | .mk token statements => token.isProper [.openCurly] && isWellFormedBody statements

/-- Whether the tokens of a statement fit. -/
def Stmt.isWellFormed : Stmt → Bool
  | .binding token name value =>
    token.isProper [.letKeyword] && name.isWellFormed && value.isWellFormed
  | .result token value => token.isProper [.returnKeyword] && value.isWellFormed
  | .expression _ value => value.isWellFormed

/-- Whether all of the expressions are well formed. -/
def isWellFormedEach : List Expr → Bool
  | [] => true
  | e :: es => e.isWellFormed && isWellFormedEach es

/-- Whether all of the statements are well formed. -/
def isWellFormedBody : List Stmt → Bool
  | [] => true
  | s :: ss => s.isWellFormed && isWellFormedBody ss

/-- Whether the alternative of a conditional is well formed, if there is one. -/
def isWellFormedElse : Option Block → Bool
  | none => true
  | some block => block.isWellFormed

end

/-- Whether the tokens of a program fit (module doc). -/
def Program.isWellFormed (p : Program) : Bool := isWellFormedBody p.statements

end ExprLang
