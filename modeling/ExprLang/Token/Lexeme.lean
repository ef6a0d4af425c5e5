import ExprLang.Token.Kind

/-!
# Lexemes

The lexeme at the front of a text: a longest run of ASCII letters, a longest run of ASCII digits,
the longest symbol, or else the single stray character that stands there. Main statements: a
lexeme is a non-empty front part of its text (`text_append_rest`, `text_ne_nil`).
-/

set_option autoImplicit false

namespace ExprLang

/-- A piece of source text and what it is. -/
structure Lexeme where
  kind : Kind
  text : List Char
  deriving DecidableEq, Repr

namespace Lexeme

/-- A run of letters: a keyword, or else an identifier. -/
def word (letters : List Char) : Lexeme :=
  ⟨(Kind.keyword? (String.ofList letters)).getD .identifier, letters⟩

/-- The longest lexeme at the front of the text `c :: cs`. -/
def first (c : Char) (cs : List Char) : Lexeme :=
  if c.isAlpha then word (c :: cs.takeWhile Char.isAlpha)
  else if c.isDigit then ⟨.integer, c :: cs.takeWhile Char.isDigit⟩
  else match Kind.symbol? (c :: cs) with
    | some (spelling, kind) => ⟨kind, spelling⟩
    | none => ⟨.illegal, [c]⟩

theorem first_of_isAlpha {c : Char} (h : c.isAlpha = true) (cs : List Char) :
    first c cs = word (c :: cs.takeWhile Char.isAlpha) := if_pos h

theorem kind_word_ne_eof (letters : List Char) : (word letters).kind ≠ .eof := by
  have := Kind.keyword?_ne_eof (String.ofList letters)
  cases h : Kind.keyword? (String.ofList letters) with
  | none => simp [word, h]
  | some kind => rw [h] at this; simpa [word, h] using this

theorem isPrefix_first (c : Char) (cs : List Char) : (first c cs).text <+: c :: cs := by
  unfold first
  split
  · exact (List.prefix_cons_inj c).2 <| List.takeWhile_prefix _
  · split
    · exact (List.prefix_cons_inj c).2 <| List.takeWhile_prefix _
    · split
      next h => exact (Kind.symbol?_eq_some h).2
      · simp

theorem text_ne_nil (c : Char) (cs : List Char) : (first c cs).text ≠ [] := by
  unfold first
  split
  · simp [word]
  · split
    · simp
    · split
      next h => exact Kind.ne_nil_of_mem_symbols (Kind.symbol?_eq_some h).1
      · simp

theorem kind_first_ne_eof (c : Char) (cs : List Char) : (first c cs).kind ≠ .eof := by
  unfold first
  split
  · exact kind_word_ne_eof _
  · split
    · simp
    · split
      next h => exact Kind.ne_eof_of_mem_symbols (Kind.symbol?_eq_some h).1
      · simp

/-- What follows the first lexeme of `c :: cs`. -/
theorem text_append_rest (c : Char) (cs : List Char) :
    (first c cs).text ++ (c :: cs).drop (first c cs).text.length = c :: cs :=
  List.prefix_iff_eq_append.1 (isPrefix_first c cs)

end Lexeme

end ExprLang
