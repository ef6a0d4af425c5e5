import ExprLang.Diagnostic.Report
import ExprLang.Tree.Render

/-!
# The log of a parse

While it works, a parser tells what happens: that it starts on a source, each error as it is
recorded, each statement of the program as it is completed, and that it has finished.
-/

set_option autoImplicit false

namespace ExprLang

/-- How much attention an event asks for. -/
inductive Level where
  | debug
  | trace
  deriving DecidableEq, Repr

/-- The name of a level in logs. -/
def Level.name : Level → String
  | debug => "DEBUG"
  | trace => "TRACE"

/-- What a parser logs. -/
inductive Event where
  | started (file : String)
  | recorded (error : Diagnostic)
  | completed (statement : Stmt)
  | finished (statements errors : Nat)

namespace Event

/-- The level of an event. -/
def level : Event → Level
  | completed _ => .trace
  | _ => .debug

/-- The text of an event. -/
def message : Event → String
  | started file => "parsing " ++ file
  | recorded error =>
    "parse error at " ++ toString error.position.offset ++ ": " ++ error.fault.message
  | completed statement => "parsed statement: " ++ statement.render
  | finished statements errors =>
    "parsed " ++ toString statements ++ " statements with " ++ toString errors ++ " errors"

end Event

end ExprLang
