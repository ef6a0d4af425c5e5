import ExprLang.Source.Position
import ExprLang.Source.Suffix
import ExprLang.Text.Blank
import ExprLang.Token.Lexeme

/-!
# Tokens

A token is a lexeme with its place in a source. `Suffix.nextToken` reads the token at the front of
a suffix: layout in front of it is skipped, and at the end of the source there is always another
token, of kind `eof`. Main statements: only that token is of kind `eof`, and every other token
leaves less text to read (`kind_nextToken_eq_eof_iff`, `length_nextToken_lt`).
-/

set_option autoImplicit false

namespace ExprLang

/-- A word, number, symbol or stray character of a source, or the end of it. -/
structure Token where
  kind : Kind
  /-- The spelling in the source, empty for the end of the source. -/
  literal : String
  span : Span
  deriving DecidableEq, Repr, Inhabited

namespace Token

/-- The token with a given spelling at the byte `offset`. -/
def placed (file : String) (offset : Nat) (kind : Kind) (literal : String) : Token :=
  ⟨kind, literal, .clamped file offset literal.utf8ByteSize⟩

/-- The text of a token in messages: its kind, and the spelling where the kind leaves it open. -/
def describe (t : Token) : String :=
  match t.kind with
  | .identifier | .integer | .illegal => t.kind.name ++ " (" ++ t.literal ++ ")"
  | kind => kind.name

/-- Whether the token is of one of the given kinds. -/
def isOneOf (t : Token) (kinds : List Kind) : Bool := kinds.contains t.kind

theorem isOneOf_iff {t : Token} {kinds : List Kind} : t.isOneOf kinds = true ↔ t.kind ∈ kinds := by
  simp [isOneOf]

end Token

namespace Suffix

/-- The token at the front, and the suffix behind it. -/
def nextToken (file : String) (s : Suffix) : Token × Suffix :=
  let start := s.dropWhile Text.isLayout
  match start.text with
  | [] => (.placed file start.offset .eof "", start)
  | c :: cs =>
    let lexeme := Lexeme.first c cs
    (.placed file start.offset lexeme.kind (String.ofList lexeme.text),
      start.drop lexeme.text.length)

theorem nextToken_of_nil {file : String} {s : Suffix}
    (h : (s.dropWhile Text.isLayout).text = []) :
    s.nextToken file =
      (.placed file (s.dropWhile Text.isLayout).offset .eof "", s.dropWhile Text.isLayout) := by
  simp [nextToken, h]

theorem nextToken_of_cons {file : String} {s : Suffix} {c : Char} {cs : List Char}
    (h : (s.dropWhile Text.isLayout).text = c :: cs) :
    s.nextToken file =
      (.placed file (s.dropWhile Text.isLayout).offset (Lexeme.first c cs).kind
          (String.ofList (Lexeme.first c cs).text),
        (s.dropWhile Text.isLayout).drop (Lexeme.first c cs).text.length) := by
  simp [nextToken, h]

theorem kind_nextToken_eq_eof_iff {file : String} {s : Suffix} :
    (s.nextToken file).1.kind = .eof ↔ (s.dropWhile Text.isLayout).text = [] := by
  cases h : (s.dropWhile Text.isLayout).text with
  | nil => simp [nextToken_of_nil h, Token.placed]
  | cons c cs => simp [nextToken_of_cons h, Token.placed, Lexeme.kind_first_ne_eof]

theorem length_nextToken_lt {file : String} {s : Suffix}
    (h : (s.nextToken file).1.kind ≠ .eof) :
    (s.nextToken file).2.text.length < s.text.length := by
  rw [ne_eq, kind_nextToken_eq_eof_iff] at h
  obtain ⟨c, cs, hs⟩ := List.exists_cons_of_ne_nil h
  have hpos := List.length_pos_iff.2 (Lexeme.text_ne_nil c cs)
  have hle : (s.dropWhile Text.isLayout).text.length ≤ s.text.length :=
    (List.dropWhile_suffix _).length_le
  rw [nextToken_of_cons hs]
  simp only [drop, List.length_drop]
  rw [hs] at hle ⊢
  simp only [List.length_cons] at hle ⊢
  omega

end Suffix

end ExprLang
