/-!
# Text measured in bytes

An offset into a text counts the bytes of its UTF-8 form, while the text itself is a list of
characters. `byteLength` is the distance that a text spans and `dropBytes?` the text behind an
offset, if the offset does not fall inside a character or behind the end. Main statement
(`dropBytes?_eq_some_iff`): the offsets with a text behind them are the byte lengths of the front
parts of the text.
-/

set_option autoImplicit false

namespace ExprLang.Text

/-- The number of bytes of a text's UTF-8 form. -/
def byteLength : List Char → Nat
  | [] => 0
  | c :: cs => c.utf8Size + byteLength cs

/-- The text behind the first `n` bytes, unless `n` falls inside a character or behind the end. -/
def dropBytes? : Nat → List Char → Option (List Char)
  | 0, cs => some cs
  | _ + 1, [] => none
  | n + 1, c :: cs => if c.utf8Size ≤ n + 1 then dropBytes? (n + 1 - c.utf8Size) cs else none

@[simp] theorem byteLength_nil : byteLength [] = 0 := rfl

@[simp] theorem byteLength_cons (c : Char) (cs : List Char) :
    byteLength (c :: cs) = c.utf8Size + byteLength cs := rfl

@[simp] theorem byteLength_append (cs ds : List Char) :
    byteLength (cs ++ ds) = byteLength cs + byteLength ds := by
  induction cs with
  | nil => simp
  | cons c cs ih => simp [ih, Nat.add_assoc]

theorem byteLength_eq_zero_iff {cs : List Char} : byteLength cs = 0 ↔ cs = [] := by
  cases cs with
  | nil => simp
  | cons c cs => have := c.utf8Size_pos; simp; omega

/-- A string has the bytes of its characters. -/
theorem utf8ByteSize_ofList (cs : List Char) :
    (String.ofList cs).utf8ByteSize = byteLength cs := by
  induction cs with
  | nil => rfl
  | cons c cs ih =>
    rw [show c :: cs = [c] ++ cs from rfl, String.ofList_append, String.utf8ByteSize_append, ih,
      byteLength_append]
    simp

theorem byteLength_toList (text : String) : byteLength text.toList = text.utf8ByteSize := by
  rw [← utf8ByteSize_ofList, String.ofList_toList]

/-! ## The text behind an offset -/

@[simp] theorem dropBytes?_zero (cs : List Char) : dropBytes? 0 cs = some cs := by
  cases cs <;> rfl

theorem dropBytes?_cons {n : Nat} {c : Char} {cs : List Char} (h : c.utf8Size ≤ n) :
    dropBytes? n (c :: cs) = dropBytes? (n - c.utf8Size) cs := by
  have := c.utf8Size_pos
  obtain ⟨m, rfl⟩ : ∃ m, n = m + 1 := ⟨n - 1, by omega⟩
  simp [dropBytes?, h]

theorem dropBytes?_append (front rest : List Char) :
    dropBytes? (byteLength front) (front ++ rest) = some rest := by
  induction front with
  | nil => simp
  | cons c cs ih =>
    rw [List.cons_append, dropBytes?_cons (by simp), byteLength_cons, Nat.add_sub_cancel_left, ih]

theorem dropBytes?_eq_some_iff {n : Nat} {cs rest : List Char} :
    dropBytes? n cs = some rest ↔ ∃ front, cs = front ++ rest ∧ byteLength front = n := by
  refine ⟨fun h => ?_, fun ⟨front, hcs, hn⟩ => hcs ▸ hn ▸ dropBytes?_append front rest⟩
  fun_induction dropBytes? n cs with
  | case1 cs => exact ⟨[], by simpa using h, rfl⟩
  | case2 => simp at h
  | case3 n c cs hc ih =>
    obtain ⟨front, hcs, hn⟩ := ih h
    exact ⟨c :: front, by simp [hcs], by rw [byteLength_cons, hn]; omega⟩
  | case4 => simp at h

end ExprLang.Text
