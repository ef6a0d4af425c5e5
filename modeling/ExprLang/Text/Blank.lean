/-!
# Blank characters

Three classes of blanks. *Indentation* is the space and the tab; *layout*, which separates tokens
and means nothing else, adds the line ends; *white space* is the Unicode property of that name
and is what is cut off the end of a line that is shown.
-/

set_option autoImplicit false

namespace ExprLang.Text

/-- Blanks at the start of a line that are not shown. -/
def isIndent (c : Char) : Bool := c == ' ' || c == '\t'

/-- Blanks between tokens. -/
def isLayout (c : Char) : Bool := c == ' ' || c == '\t' || c == '\r' || c == '\n'

/-- The code points with the Unicode property `White_Space`. -/
def whiteSpaceRanges : List (Nat × Nat) :=
  [(0x9, 0xD), (0x20, 0x20), (0x85, 0x85), (0xA0, 0xA0), (0x1680, 0x1680), (0x2000, 0x200A),
   (0x2028, 0x2029), (0x202F, 0x202F), (0x205F, 0x205F), (0x3000, 0x3000)]

/-- A character with the Unicode property `White_Space`. -/
def isWhiteSpace (c : Char) : Bool :=
  whiteSpaceRanges.any fun (low, high) => low ≤ c.toNat && c.toNat ≤ high

/-- The text without the white space at its end. -/
def trimEnd (cs : List Char) : List Char := (cs.reverse.dropWhile isWhiteSpace).reverse

theorem isLayout_of_isIndent {c : Char} (h : isIndent c = true) : isLayout c = true := by
  simp only [isIndent, isLayout, Bool.or_eq_true] at h ⊢
  exact .inl (.inl h)

theorem isWhiteSpace_of_isLayout {c : Char} (h : isLayout c = true) : isWhiteSpace c = true := by
  simp only [isLayout, Bool.or_eq_true, beq_iff_eq] at h
  rcases h with ((rfl | rfl) | rfl) | rfl <;> decide

end ExprLang.Text
