/-!
# Kinds of tokens

The vocabulary of the language: its sixteen operators and punctuation marks, its seven keywords,
and the kinds of words, numbers, stray characters and the end of the source. `symbols` and
`keywords` say how the first two groups are spelled; a longer spelling stands before every shorter
one that starts it.
-/

set_option autoImplicit false

namespace ExprLang

/-- What a token is. -/
inductive Kind where
  | eof
  | illegal
  | identifier
  | integer
  | openCurly
  | closeCurly
  | openParen
  | closeParen
  | assignment
  | equals
  | not
  | notEquals
  | less
  | greater
  | comma
  | semicolon
  | plus
  | dash
  | slash
  | star
  | fnKeyword
  | letKeyword
  | ifKeyword
  | elseKeyword
  | trueKeyword
  | falseKeyword
  | returnKeyword
  deriving DecidableEq, Repr, Inhabited

namespace Kind

/-- The name of a kind in messages. -/
def name : Kind → String
  | eof => "EOF"
  | illegal => "Illegal"
  | identifier => "Identifier"
  | integer => "Integer"
  | openCurly => "OpenCurly"
  | closeCurly => "CloseCurly"
  | openParen => "OpenParen"
  | closeParen => "CloseParen"
  | assignment => "Assignment"
  | equals => "Equals"
  | not => "Not"
  | notEquals => "NotEquals"
  | less => "Less"
  | greater => "Greater"
  | comma => "Comma"
  | semicolon => "Semicolon"
  | plus => "Plus"
  | dash => "Dash"
  | slash => "Slash"
  | star => "Star"
  | fnKeyword => "Fn"
  | letKeyword => "Let"
  | ifKeyword => "If"
  | elseKeyword => "Else"
  | trueKeyword => "True"
  | falseKeyword => "False"
  | returnKeyword => "Return"

/-- All kinds. -/
def all : List Kind :=
  [eof, illegal, identifier, integer, openCurly, closeCurly, openParen, closeParen, assignment,
   equals, not, notEquals, less, greater, comma, semicolon, plus, dash, slash, star, fnKeyword,
   letKeyword, ifKeyword, elseKeyword, trueKeyword, falseKeyword, returnKeyword]

/-- The kind of a given name. -/
def ofName? (name : String) : Option Kind := all.find? fun kind => kind.name == name

/-- The operators and punctuation marks. -/
def symbols : List (List Char × Kind) :=
  [(['=', '='], equals), (['!', '='], notEquals), (['='], assignment), (['!'], not),
   (['{'], openCurly), (['}'], closeCurly), (['('], openParen), ([')'], closeParen),
   (['<'], less), (['>'], greater), ([','], comma), ([';'], semicolon),
   (['+'], plus), (['-'], dash), (['*'], star), (['/'], slash)]

/-- The longest symbol that a text starts with. -/
def symbol? (text : List Char) : Option (List Char × Kind) :=
  symbols.find? fun entry => entry.1.isPrefixOf text

/-- The words that are not identifiers. -/
def keywords : List (String × Kind) :=
  [("fn", fnKeyword), ("let", letKeyword), ("if", ifKeyword), ("else", elseKeyword),
   ("true", trueKeyword), ("false", falseKeyword), ("return", returnKeyword)]

/-- The kind of a keyword. -/
def keyword? (word : String) : Option Kind := keywords.lookup word

/-! ## The tables -/

theorem mem_all (kind : Kind) : kind ∈ all := by cases kind <;> decide

theorem name_injective {k l : Kind} (h : k.name = l.name) : k = l := by
  revert k l
  have : ∀ k ∈ all, ∀ l ∈ all, k.name = l.name → k = l := by decide
  exact fun {k l} => this k (mem_all k) l (mem_all l)

theorem symbol?_eq_some {text : List Char} {entry : List Char × Kind}
    (h : symbol? text = some entry) : entry ∈ symbols ∧ entry.1 <+: text := by
  unfold symbol? at h
  have hp := List.find?_some h
  exact ⟨List.mem_of_find?_eq_some h, List.isPrefixOf_iff_prefix.1 hp⟩

theorem ne_nil_of_mem_symbols {entry : List Char × Kind} (h : entry ∈ symbols) : entry.1 ≠ [] :=
  (by decide : ∀ entry ∈ symbols, entry.1 ≠ []) entry h

theorem ne_eof_of_mem_symbols {entry : List Char × Kind} (h : entry ∈ symbols) : entry.2 ≠ eof :=
  (by decide : ∀ entry ∈ symbols, entry.2 ≠ eof) entry h

theorem keyword?_ne_eof (word : String) : keyword? word ≠ some eof := by
  unfold keyword? keywords
  simp only [List.lookup_cons]
  repeat' split
  all_goals simp

end Kind

end ExprLang
