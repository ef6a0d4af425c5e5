import ExprLang.Text.Decimal
import ExprLang.Token.Stream
import Mathlib.Data.List.TakeWhile

/-!
# The spelling of tokens

A kind says how its tokens are spelled: an identifier is a word that is no keyword, an integer a
run of digits, and every other kind of the vocabulary has one spelling. Main statement
(`isSpelled_of_mem_ahead`): in a token stream every token that is not a stray character is spelled
as its kind says.
-/

set_option autoImplicit false

namespace ExprLang

/-- A run of letters that is no keyword. -/
def Text.isName (word : String) : Bool :=
  !word.toList.isEmpty && word.toList.all Char.isAlpha && (Kind.keyword? word).isNone

/-- A run of digits. -/
def Text.isNumeral (word : String) : Bool :=
  !word.toList.isEmpty && word.toList.all Char.isDigit

namespace Kind

/-- The kinds with a single spelling, and that spelling. -/
def fixedSpellings : List (String × Kind) :=
  symbols.map (fun entry => (String.ofList entry.1, entry.2)) ++ keywords

/-- Whether a token of this kind can be spelled like that. -/
def allowsSpelling (kind : Kind) (literal : String) : Bool :=
  match kind with
  | .identifier => Text.isName literal
  | .integer => Text.isNumeral literal
  | kind => fixedSpellings.contains (literal, kind)

/-- The operators before an operand. -/
def unaryOperators : List Kind := [.not, .dash]

/-- The operators between two operands. -/
def binaryOperators : List Kind :=
  [.equals, .notEquals, .less, .greater, .plus, .dash, .star, .slash]

theorem allowsSpelling_of_mem {literal : String} {kind : Kind}
    (h : (literal, kind) ∈ fixedSpellings) : kind.allowsSpelling literal = true :=
  (by decide +kernel : ∀ entry ∈ fixedSpellings, entry.2.allowsSpelling entry.1 = true) _ h

end Kind

/-- Whether the token is spelled as its kind says. -/
def Token.isSpelled (t : Token) : Bool := t.kind.allowsSpelling t.literal

namespace Lexeme

theorem allowsSpelling_word {letters : List Char} (hne : letters ≠ [])
    (h : ∀ c ∈ letters, c.isAlpha = true) :
    (word letters).kind.allowsSpelling (String.ofList letters) = true := by
  cases hk : Kind.keyword? (String.ofList letters) with
  | none =>
    have hname : Text.isName (String.ofList letters) = true := by
      simpa [Text.isName, hk, hne] using h
    simpa [word, hk, Kind.allowsSpelling] using hname
  | some kind =>
    obtain ⟨front, back, hkeys, -⟩ := List.lookup_eq_some_iff.1 hk
    have hmem : (String.ofList letters, kind) ∈ Kind.fixedSpellings := by
      unfold Kind.fixedSpellings
      rw [hkeys]
      simp
    simpa [word, hk] using Kind.allowsSpelling_of_mem hmem

theorem allowsSpelling_first {c : Char} {cs : List Char} (h : (first c cs).kind ≠ .illegal) :
    (first c cs).kind.allowsSpelling (String.ofList (first c cs).text) = true := by
  unfold first at h ⊢
  split
  next ha =>
    refine allowsSpelling_word (List.cons_ne_nil _ _) fun d hd => ?_
    rcases List.mem_cons.1 hd with rfl | hd
    · exact ha
    · exact List.mem_takeWhile_imp hd
  next ha =>
    rw [if_neg ha] at h
    split
    next hd => simpa [Kind.allowsSpelling, Text.isNumeral] using hd
    next hd =>
      rw [if_neg hd] at h
      cases hs : Kind.symbol? (c :: cs) with
      | none => rw [hs] at h; exact absurd rfl h
      | some entry =>
        refine Kind.allowsSpelling_of_mem (List.mem_append_left _ ?_)
        exact List.mem_map_of_mem (Kind.symbol?_eq_some hs).1

end Lexeme

/-! ## Streams -/

namespace TokenStream

/-- A token of a stream was at the front of a suffix. -/
theorem exists_of_mem_read {file : String} {t : Token} {fuel : Nat} {s : Suffix}
    (h : t ∈ (read file fuel s).ahead) : ∃ s' : Suffix, (s'.nextToken file).1 = t := by
  induction fuel generalizing s with
  | zero => simp [read, atEnd] at h
  | succ fuel ih =>
    unfold read at h
    dsimp only at h
    split at h
    · simp at h
    · rcases List.mem_cons.1 h with rfl | h
      · exact ⟨s, rfl⟩
      · exact ih h

theorem isSpelled_of_mem_ahead {source file : String} {t : Token}
    (h : t ∈ (ofSource source file).ahead) (hk : t.kind ≠ .illegal) : t.isSpelled = true := by
  have hne := (ofSource source file).ahead_ne_eof t h
  obtain ⟨s, rfl⟩ := exists_of_mem_read h
  rw [ne_eq, Suffix.kind_nextToken_eq_eof_iff] at hne
  obtain ⟨c, cs, hs⟩ := List.exists_cons_of_ne_nil hne
  rw [Suffix.nextToken_of_cons hs] at hk ⊢
  exact Lexeme.allowsSpelling_first hk

end TokenStream

/-! ## Numerals -/

theorem Text.readInt64?_of_isNumeral {literal : String} (h : Text.isNumeral literal = true) :
    Text.readInt64? literal.toList =
      if decimalValue literal.toList ≤ maxInt64 then
        some (Int64.ofNat (decimalValue literal.toList)) else none := by
  simp only [isNumeral, Bool.and_eq_true, Bool.not_eq_true', List.isEmpty_eq_false_iff,
    List.all_eq_true] at h
  exact readInt64?_digits h.1 h.2

theorem Text.isSome_readInt64? {literal : String} (h : Text.isNumeral literal = true) :
    (Text.readInt64? literal.toList).isSome = true ↔ decimalValue literal.toList ≤ maxInt64 := by
  rw [readInt64?_of_isNumeral h]
  split <;> simp_all

/-- A numeral is read exactly if its value is a 64-bit integer, and then as its value. -/
theorem Text.readInt64?_eq_some_iff {literal : String} (h : Text.isNumeral literal = true)
    {value : Int64} : Text.readInt64? literal.toList = some value ↔
      value.toInt = Text.decimalValue literal.toList := by
  rw [readInt64?_of_isNumeral h]
  generalize decimalValue literal.toList = n
  have hmax : maxInt64 = 2 ^ 63 - 1 := rfl
  constructor
  · intro hv
    split at hv
    next hn =>
      cases hv
      exact Int64.toInt_ofNat_of_lt (by omega)
    next => cases hv
  · intro hv
    have hlt : n < 2 ^ 63 := by
      have := value.toInt_lt
      omega
    rw [if_pos (by omega), Option.some.injEq, ← Int64.toInt_inj, Int64.toInt_ofNat_of_lt hlt, hv]

end ExprLang
