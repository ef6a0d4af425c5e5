import ExprLang.Text.Decimal
import ExprLang.Tree.Basic

/-!
# The grammar of the language

A stratified grammar of programs, with the tree that each derivation builds. Expressions have seven
levels, each looser than the next: four of binary operators, which group to the left, then unary
operators, calls and the primary expressions. Grouping parentheses leave no node, and every other
production builds its node from the token that stands for it. `strict` is the choice whether
bindings and results have to end in a semicolon.
-/

set_option autoImplicit false

namespace ExprLang.Grammar

/-- The levels of expressions, loosest first. -/
inductive Level where
  | equality
  | relation
  | sum
  | product
  | unary
  | application
  | primary
  deriving DecidableEq, Repr

namespace Level

/-- The place of a level, counted from the loosest. -/
def rank : Level → Nat
  | equality => 0
  | relation => 1
  | sum => 2
  | product => 3
  | unary => 4
  | application => 5
  | primary => 6

/-- The next level; nothing is tighter than a primary expression. -/
def tighter : Level → Level
  | equality => relation
  | relation => sum
  | sum => product
  | product => unary
  | unary => application
  | application | primary => primary

/-- The binary operators of a level. -/
def operators : Level → List Kind
  | equality => [.equals, .notEquals]
  | relation => [.less, .greater]
  | sum => [.plus, .dash]
  | product => [.star, .slash]
  | unary | application | primary => []

theorem rank_injective {l m : Level} (h : l.rank = m.rank) : l = m := by
  cases l <;> cases m <;> first | rfl | cases h

theorem rank_tighter {l : Level} (h : l.rank < 6) : l.tighter.rank = l.rank + 1 := by
  cases l <;> first | rfl | exact absurd h (by decide)

theorem rank_le (l : Level) : l.rank ≤ 6 := by cases l <;> decide

end Level

/-- The end of a statement: a semicolon, which may be missing if it is not required. -/
inductive Terminator (required : Bool) : List Token → Prop
  | semicolon {t : Token} : t.kind = .semicolon → Terminator required [t]
  | omitted : required = false → Terminator required []

/-- One or more identifiers with commas between them. -/
inductive Names : List Token → List Identifier → Prop
  | one {t : Token} : t.kind = .identifier → Names [t] [.ofToken t]
  | more {t comma : Token} {ts : List Token} {names : List Identifier} : t.kind = .identifier →
      comma.kind = .comma → Names ts names → Names (t :: comma :: ts) (.ofToken t :: names)

/-- What stands between the parentheses of a function. -/
inductive Parameters : List Token → List Identifier → Prop
  | none : Parameters [] []
  | some {ts : List Token} {names : List Identifier} : Names ts names → Parameters ts names

mutual

/-- Expressions of a level. -/
inductive Expression (strict : Bool) : Level → List Token → Expr → Prop
  | binary {level : Level} {op : Token} {ts us : List Token} {left right : Expr} :
      op.kind ∈ level.operators → Expression strict level ts left →
      Expression strict level.tighter us right →
      Expression strict level (ts ++ op :: us) (.binary op left op.literal right)
  | tighter {level : Level} {ts : List Token} {e : Expr} :
      Expression strict level.tighter ts e → Expression strict level ts e
  | unary {op : Token} {ts : List Token} {right : Expr} : op.kind ∈ [Kind.not, .dash] →
      Expression strict .unary ts right →
      Expression strict .unary (op :: ts) (.unary op op.literal right)
  | call {opening closing : Token} {ts us : List Token} {callee : Expr} {arguments : List Expr} :
      Expression strict .application ts callee → opening.kind = .openParen →
      Arguments strict us arguments → closing.kind = .closeParen →
      Expression strict .application (ts ++ opening :: us ++ [closing])
        (.call opening callee arguments)
  | identifier {t : Token} : t.kind = .identifier →
      Expression strict .primary [t] (.identifier (.ofToken t))
  | integer {t : Token} {value : Int64} : t.kind = .integer →
      value.toInt = Text.decimalValue t.literal.toList →
      Expression strict .primary [t] (.integer t value)
  | trueLiteral {t : Token} : t.kind = .trueKeyword →
      Expression strict .primary [t] (.boolean t true)
  | falseLiteral {t : Token} : t.kind = .falseKeyword →
      Expression strict .primary [t] (.boolean t false)
  | grouping {opening closing : Token} {ts : List Token} {e : Expr} :
      opening.kind = .openParen → Expression strict .equality ts e →
      closing.kind = .closeParen → Expression strict .primary (opening :: ts ++ [closing]) e
  | conditional {t opening closing : Token} {ts us vs : List Token} {condition : Expr}
      {consequence : Block} {alternative : Option Block} : t.kind = .ifKeyword →
      opening.kind = .openParen → Expression strict .equality ts condition →
      closing.kind = .closeParen → Braces strict us consequence →
      Alternative strict vs alternative →
      Expression strict .primary (t :: opening :: ts ++ closing :: us ++ vs)
        (.conditional t condition consequence alternative)
  | function {t opening closing : Token} {ts us : List Token} {names : List Identifier}
      {body : Block} : t.kind = .fnKeyword → opening.kind = .openParen → Parameters ts names →
      closing.kind = .closeParen → Braces strict us body →
      Expression strict .primary (t :: opening :: ts ++ closing :: us) (.function t names body)

/-- One or more expressions with commas between them. -/
inductive Expressions (strict : Bool) : List Token → List Expr → Prop
  | one {ts : List Token} {e : Expr} : Expression strict .equality ts e →
      Expressions strict ts [e]
  | more {comma : Token} {ts us : List Token} {e : Expr} {es : List Expr} :
      Expression strict .equality ts e → comma.kind = .comma → Expressions strict us es →
      Expressions strict (ts ++ comma :: us) (e :: es)

/-- What stands between the parentheses of a call. -/
inductive Arguments (strict : Bool) : List Token → List Expr → Prop
  | none : Arguments strict [] []
  | some {ts : List Token} {es : List Expr} : Expressions strict ts es → Arguments strict ts es

/-- The block behind an `else`, if there is one. -/
inductive Alternative (strict : Bool) : List Token → Option Block → Prop
  | none : Alternative strict [] none
  | some {t : Token} {ts : List Token} {block : Block} : t.kind = .elseKeyword →
      Braces strict ts block → Alternative strict (t :: ts) (some block)

/-- Statements in braces. -/
inductive Braces (strict : Bool) : List Token → Block → Prop
  | mk {opening closing : Token} {ts : List Token} {statements : List Stmt} :
      opening.kind = .openCurly → Statements strict ts statements → closing.kind = .closeCurly →
      Braces strict (opening :: ts ++ [closing]) (.mk opening statements)

/-- Any number of statements. A whole program is derived in this way. -/
inductive Statements (strict : Bool) : List Token → List Stmt → Prop
  | nil : Statements strict [] []
  | cons {ts us : List Token} {s : Stmt} {ss : List Stmt} : Statement strict ts s →
      Statements strict us ss → Statements strict (ts ++ us) (s :: ss)

/-- A statement. The token of an expression statement is the first one of its expression. -/
inductive Statement (strict : Bool) : List Token → Stmt → Prop
  | binding {t name equals : Token} {ts us : List Token} {value : Expr} : t.kind = .letKeyword →
      name.kind = .identifier → equals.kind = .assignment →
      Expression strict .equality ts value → Terminator strict us →
      Statement strict (t :: name :: equals :: ts ++ us) (.binding t (.ofToken name) value)
  | result {t : Token} {ts us : List Token} {value : Expr} : t.kind = .returnKeyword →
      Expression strict .equality ts value → Terminator strict us →
      Statement strict (t :: ts ++ us) (.result t value)
  | expression {t : Token} {ts us : List Token} {value : Expr} :
      Expression strict .equality (t :: ts) value → Terminator false us →
      Statement strict (t :: ts ++ us) (.expression t value)

end

theorem Expression.ne_nil {strict : Bool} {level : Level} {ts : List Token} {e : Expr} :
    Expression strict level ts e → ts ≠ []
  | .tighter h => h.ne_nil
  | .binary .. | .unary .. | .call .. | .identifier .. | .integer .. | .trueLiteral ..
  | .falseLiteral .. | .grouping .. | .conditional .. | .function .. => by simp

/-- What is derived at a level is derived at every looser one. -/
theorem Expression.loosen {strict : Bool} {l m : Level} {ts : List Token} {e : Expr}
    (h : Expression strict m ts e) (hle : l.rank ≤ m.rank) : Expression strict l ts e := by
  induction hn : m.rank - l.rank generalizing l with
  | zero =>
    obtain rfl : l = m := Level.rank_injective (by omega)
    exact h
  | succ n ih =>
    have hl : l.tighter.rank = l.rank + 1 := Level.rank_tighter (by have := m.rank_le; omega)
    exact .tighter (ih (by omega) (by omega))

end ExprLang.Grammar
