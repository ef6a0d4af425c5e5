import ExprLang.Tree.Basic

/-!
# Values

The values that expressions stand for: 64-bit integers, truth values and null. Only literals show
their value without being evaluated.
-/

set_option autoImplicit false

namespace ExprLang

/-- The value of an expression. -/
inductive Value where
  | integer (value : Int64)
  | boolean (value : Bool)
  | null
  deriving DecidableEq, Repr

namespace Value

/-- The name of a value's type. -/
def typeName : Value → String
  | integer _ => "INTEGER"
  | boolean _ => "BOOLEAN"
  | null => "NULL"

/-- The text of a value. -/
def render : Value → String
  | integer value => toString value.toInt
  | boolean true => "true"
  | boolean false => "false"
  | null => "null"

/-- The value of an integer or boolean literal; any other expression has to be evaluated. -/
def ofLiteral? : Expr → Option Value
  | .integer _ value => some (integer value)
  | .boolean _ value => some (boolean value)
  | _ => none

end Value

end ExprLang
