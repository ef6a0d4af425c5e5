/-!
# Decimal numbers

Reading a number from decimal digits, and the 64-bit integers among them. Leading zeros are
allowed in any number. Main statement (`readInt64?_digits`): a digit run is read as its value if
that value is at most `maxInt64`, and refused otherwise.
-/

set_option autoImplicit false

namespace ExprLang.Text

/-- The value of a digit. -/
def digitValue (c : Char) : Nat := c.toNat - '0'.toNat

/-- The value of a run of decimal digits. -/
def decimalValue (digits : List Char) : Nat :=
  digits.foldl (fun value c => 10 * value + digitValue c) 0

/-- Reads one or more digits. -/
def readNat? (text : List Char) : Option Nat :=
  if !text.isEmpty && text.all Char.isDigit then some (decimalValue text) else none

/-- Reads one or more digits behind an optional sign. -/
def readInt? : List Char → Option Int
  | '-' :: digits => (readNat? digits).map fun n => -(n : Int)
  | '+' :: digits => (readNat? digits).map Int.ofNat
  | digits => (readNat? digits).map Int.ofNat

/-- The largest 64-bit integer. -/
def maxInt64 : Nat := 9223372036854775807

/-- Reads a number as `readInt?` does, if it is a 64-bit integer. -/
def readInt64? (text : List Char) : Option Int64 :=
  match readInt? text with
  | some i => if -(maxInt64 : Int) - 1 ≤ i ∧ i ≤ maxInt64 then some (Int64.ofInt i) else none
  | none => none

theorem readInt?_digits {digits : List Char} (hne : digits ≠ [])
    (hd : ∀ c ∈ digits, c.isDigit = true) : readInt? digits = some (decimalValue digits : Int) := by
  have hr : readNat? digits = some (decimalValue digits) := by
    simpa [readNat?, hne] using hd
  unfold readInt?
  split
  · exact absurd (hd '-' (by simp)) (by decide)
  · exact absurd (hd '+' (by simp)) (by decide)
  · simp [hr]

theorem readInt64?_digits {digits : List Char} (hne : digits ≠ [])
    (hd : ∀ c ∈ digits, c.isDigit = true) :
    readInt64? digits =
      if decimalValue digits ≤ maxInt64 then some (Int64.ofNat (decimalValue digits)) else none := by
  rw [readInt64?, readInt?_digits hne hd]
  by_cases h : decimalValue digits ≤ maxInt64
  · rw [if_pos h]
    exact if_pos ⟨by omega, by omega⟩
  · rw [if_neg h]
    exact if_neg (by omega)

end ExprLang.Text
