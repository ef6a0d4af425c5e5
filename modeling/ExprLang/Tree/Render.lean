import ExprLang.Tree.Basic

/-!
# The canonical text of a tree

Every operation is written in parentheses and without blanks, so the text shows how operators were
grouped. Bindings and results end in a semicolon, expression statements do not; an integer keeps
the spelling it had. A program is written one statement to a line.
-/

set_option autoImplicit false

namespace ExprLang

/-- The items with a comma between each two. -/
def commaSeparated : List String → String
  | [] => ""
  | [item] => item
  | item :: next :: rest => item ++ "," ++ commaSeparated (next :: rest)

mutual

/-- The canonical text of an expression. -/
def Expr.render : Expr → String
  | .identifier name => name.value
  | .integer token _ => token.literal
  | .boolean _ value => if value then "true" else "false"
  | .unary _ operator right => "(" ++ operator ++ right.render ++ ")"
  | .binary _ left operator right => "(" ++ left.render ++ operator ++ right.render ++ ")"
  | .conditional _ condition consequence alternative =>
    "if (" ++ condition.render ++ ") " ++ consequence.render ++ renderElse alternative
  | .call _ callee arguments =>
    callee.render ++ "(" ++ commaSeparated (renderEach arguments) ++ ")"
  | .function token parameters body =>
    token.literal ++ "(" ++ commaSeparated (parameters.map Identifier.value) ++ ") " ++ body.render

/-- The canonical text of a block, in braces and with a blank behind each statement. -/
def Block.render : Block → String
  | .mk _ statements => "\x7b " ++ renderBody statements ++ "\x7d"

/-- The canonical text of a statement. -/
def Stmt.render : Stmt → String
  | .binding token name value =>
    token.literal ++ " " ++ name.value ++ " = " ++ value.render ++ ";"
  | .result token value => token.literal ++ " " ++ value.render ++ ";"
  | .expression _ value => value.render

/-- The canonical texts of several expressions. -/
def renderEach : List Expr → List String
  | [] => []
  | e :: rest => e.render :: renderEach rest

/-- The statements of a block with a blank behind each. -/
def renderBody : List Stmt → String
  | [] => ""
  | s :: rest => s.render ++ " " ++ renderBody rest

/-- The alternative of a conditional, if it has one. -/
def renderElse : Option Block → String
  | none => ""
  | some block => " else " ++ block.render

end

/-- The statements of a program, each on a line of its own. -/
def renderLines : List Stmt → String
  | [] => ""
  | s :: rest => s.render ++ "\n" ++ renderLines rest

/-- The canonical text of a program. -/
def Program.render (p : Program) : String := renderLines p.statements

theorem renderEach_eq_map (es : List Expr) : renderEach es = es.map Expr.render := by
  induction es with
  | nil => simp [renderEach]
  | cons e es ih => simp [renderEach, ih]

theorem renderLines_append (ss rs : List Stmt) :
    renderLines (ss ++ rs) = renderLines ss ++ renderLines rs := by
  induction ss with
  | nil => simp [renderLines]
  | cons s ss ih => simp [renderLines, ih, String.append_assoc]

end ExprLang
