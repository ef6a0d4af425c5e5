import ExprLang.Text.Bytes

/-!
# Lines of a source

Where a byte offset lies in terms of lines: the number of its line, the line's text and the byte
column in it. A line reaches up to and including its line feed, and the offset of the end of the
source belongs to what stands behind the last line feed, which may be nothing. Main statement
(`isSome_lineAt?`): every offset up to the length of the source lies in a line.
-/

set_option autoImplicit false

namespace ExprLang

/-- An offset of a source in terms of lines. -/
structure LinePosition where
  /-- The number of the line, counted from one. -/
  number : Nat
  /-- The whole line, with the line feed that ends it. -/
  text : String
  /-- The number of bytes between the start of the line and the offset. -/
  column : Nat
  deriving DecidableEq, Repr

namespace LinePosition

/-- The text up to and including its first line feed. -/
def firstLine : List Char → List Char
  | [] => []
  | c :: cs => if c = '\n' then [c] else c :: firstLine cs

/--
The line of the offset that lies `distance` bytes behind the start of `rest`, where `rest` starts
`column` bytes into the line that starts `line` and has the given number.
-/
def search? (number : Nat) (line : List Char) (column distance : Nat) :
    List Char → Option LinePosition
  | [] => if distance = 0 then some ⟨number, String.ofList (firstLine line), column⟩ else none
  | c :: rest =>
    if distance < c.utf8Size then
      some ⟨number, String.ofList (firstLine line), column + distance⟩
    else if c = '\n' then search? (number + 1) rest 0 (distance - c.utf8Size) rest
    else search? number line (column + c.utf8Size) (distance - c.utf8Size) rest

theorem isSome_search? {number column distance : Nat} {line rest : List Char} :
    (search? number line column distance rest).isSome = true ↔
      distance ≤ Text.byteLength rest := by
  induction rest generalizing number line column distance with
  | nil => simp [search?]
  | cons c rest ih =>
    have := c.utf8Size_pos
    simp only [search?, Text.byteLength_cons]
    split
    · simp; omega
    · split <;> rw [ih] <;> omega

end LinePosition

/-- The line of a byte offset, unless the offset is larger than the source. -/
def lineAt? (source : String) (offset : Nat) : Option LinePosition :=
  LinePosition.search? 1 source.toList 0 offset source.toList

theorem isSome_lineAt? {source : String} {offset : Nat} :
    (lineAt? source offset).isSome = true ↔ offset ≤ Text.byteLength source.toList :=
  LinePosition.isSome_search?

end ExprLang
