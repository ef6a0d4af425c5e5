import ExprLang.Token.Stream

/-!
# A lexer with a free position

A lexer reads one token at a time from a source. Its position is a byte offset that the caller may
also move by hand, to any place: reading is defined only from an offset that has a suffix of the
source behind it, while moving and creating tokens is defined everywhere. Main statement
(`isSome_next?`): the offsets that can be read from are the byte lengths of the front parts of
the source.
-/

set_option autoImplicit false

namespace ExprLang

/-- A source with a byte position in it, which need not lie on a character or inside the source. -/
structure Lexer where
  source : String
  file : String
  offset : Nat
  deriving DecidableEq, Repr

namespace Lexer

/-- The lexer at the start of a source. -/
def ofSource (source : String) (file : Option String) : Lexer :=
  ⟨source, file.getD defaultFile, 0⟩

/-- The suffix behind the position, unless there is none. -/
def suffix? (l : Lexer) : Option Suffix :=
  (Text.dropBytes? l.offset l.source.toList).map fun text => ⟨l.offset, text⟩

/-- The unread text. -/
def remainder? (l : Lexer) : Option String := l.suffix?.map fun s => String.ofList s.text

/-- The character at the position, where the end of the source counts as the null character. -/
def current? (l : Lexer) : Option Char := l.suffix?.map fun s => s.text.headD '\x00'

/-- Whether nothing is left to read. -/
def atEnd (l : Lexer) : Bool := l.source.utf8ByteSize ≤ l.offset

/-- Moves the position by a number of bytes. -/
def advance (l : Lexer) (bytes : Nat) : Lexer := { l with offset := l.offset + bytes }

/-- Creates a token with a given spelling at the position and moves behind it. -/
def emit (l : Lexer) (kind : Kind) (literal : String) : Token × Lexer :=
  (.placed l.file l.offset kind literal, l.advance literal.utf8ByteSize)

/-- Reads the next token. -/
def next? (l : Lexer) : Option (Token × Lexer) :=
  l.suffix?.map fun s =>
    let (token, rest) := s.nextToken l.file
    (token, { l with offset := rest.offset })

/-- Reads tokens up to and including the first end of the source, at most `fuel` before it. -/
def drainWithin? : Nat → Lexer → Option (List Token)
  | 0, l => l.next?.map fun (token, _) => [token]
  | fuel + 1, l => l.next?.bind fun (token, rest) =>
    if token.kind = .eof then some [token] else (drainWithin? fuel rest).map (token :: ·)

/-- The tokens up to and including the first end of the source. -/
def drain? (l : Lexer) : Option (List Token) := drainWithin? l.source.length l

theorem isSome_next? {l : Lexer} :
    l.next?.isSome = true ↔
      ∃ front rest, l.source.toList = front ++ rest ∧ Text.byteLength front = l.offset := by
  rw [next?, Option.isSome_map, suffix?, Option.isSome_map, Option.isSome_iff_exists]
  simp only [Text.dropBytes?_eq_some_iff]
  exact exists_comm

end Lexer

end ExprLang
