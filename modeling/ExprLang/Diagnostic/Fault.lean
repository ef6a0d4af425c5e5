import ExprLang.Text.Quoted
import ExprLang.Token.Kind

/-!
# Faults

What can be wrong with a source, apart from where. Each fault has a name, a message for logs, in
which source text is quoted, and a tip for the reader of a report, in which it is shown as it is.
-/

set_option autoImplicit false

namespace ExprLang

/-- A cause of an error, with the spelling of the token that shows it. -/
inductive Fault where
  /-- The token is no lexeme of the language. -/
  | illegalToken (token : String)
  /-- The token cannot start an expression. -/
  | noPrefixRule (kind : Kind) (token : String)
  /-- Another kind of token is required at this place. -/
  | unexpectedToken (expected found : Kind) (token : String)
  /-- The token does not fit at this place, as the message explains. -/
  | unexpectedTokenDetailed (token message : String)
  /-- The token is not a 64-bit integer. -/
  | invalidNumber (token : String)
  /-- Expressions are nested more than `limit` deep. -/
  | nestingTooDeep (limit : Nat)
  deriving DecidableEq, Repr

/-- Advice to the reader of a report, if there is any. -/
inductive Tip where
  | none
  | suggestion (text : String)
  deriving DecidableEq, Repr

/-- The text of a tip. -/
def Tip.text : Tip → String
  | none => ""
  | suggestion text => text

namespace Fault

/-- The name of a fault in reports. -/
def name : Fault → String
  | illegalToken _ => "IllegalToken"
  | noPrefixRule _ _ => "NoPrefixRule"
  | unexpectedToken _ _ _ => "UnexpectedToken"
  | unexpectedTokenDetailed _ _ => "UnexpectedTokenDetailed"
  | invalidNumber _ => "NumberParseError"
  | nestingTooDeep _ => "NestingTooDeep"

/-- What is wrong, in one line. -/
def message : Fault → String
  | illegalToken token => "illegal token: " ++ Text.quoted token
  | noPrefixRule kind token =>
    "no prefix rule for token kind " ++ kind.name ++ ": " ++ Text.quoted token
  | unexpectedToken expected found token =>
    "unexpected token: expected " ++ expected.name ++ ", found " ++ found.name ++ " ("
      ++ Text.quoted token ++ ")"
  | unexpectedTokenDetailed token message =>
    "unexpected token (" ++ message ++ "): " ++ Text.quoted token
  | invalidNumber token => "error parsing number: " ++ Text.quoted token
  | nestingTooDeep limit => "expression nesting exceeds " ++ toString limit ++ " levels"

/-- What the reader of a report is told. -/
def tip : Fault → Tip
  | illegalToken token => .suggestion ("Character `" ++ token ++ "` is not part of the language")
  | noPrefixRule kind token =>
    .suggestion ("`" ++ token ++ "` (" ++ kind.name ++ ") cannot start an expression")
  | unexpectedToken expected found token =>
    .suggestion ("Expected `" ++ expected.name ++ "`, found `" ++ found.name ++ "` (`" ++ token
      ++ "`)")
  | unexpectedTokenDetailed token message =>
    .suggestion ("Unexpected token: `" ++ token ++ "`, " ++ message)
  | invalidNumber token =>
    .suggestion ("Invalid number: `" ++ token ++ "`, is it above the integer limit?")
  | nestingTooDeep limit =>
    .suggestion ("Expressions may nest at most " ++ toString limit ++ " levels deep")

end Fault

end ExprLang
