import ExprLang.Text.Unprintable

/-!
# Quoted text

How a message shows a piece of source text: between double quotes, on one line, with every
character visible. Backslashes and double quotes are escaped, the common controls have their short
escapes, and every other unprintable character is written by its code point.
-/

set_option autoImplicit false

namespace ExprLang.Text

/-- The escape by code point, in lower-case hexadecimal digits without padding. -/
def escapeCodePoint (c : Char) : List Char :=
  ['\\', 'u', '{'] ++ Nat.toDigits 16 c.toNat ++ ['}']

/-- What stands for a character between quotes. -/
def escape (c : Char) : List Char :=
  match c with
  | '"' => ['\\', '"']
  | '\\' => ['\\', '\\']
  | '\n' => ['\\', 'n']
  | '\r' => ['\\', 'r']
  | '\t' => ['\\', 't']
  | '\x00' => ['\\', '0']
  | c => if isUnprintable c then escapeCodePoint c else [c]

/-- The text between double quotes, on one line. -/
def quoted (text : String) : String :=
  String.ofList ('"' :: text.toList.flatMap escape ++ ['"'])

theorem toList_quoted (text : String) :
    (quoted text).toList = '"' :: text.toList.flatMap escape ++ ['"'] :=
  String.toList_ofList

end ExprLang.Text
