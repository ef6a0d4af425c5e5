import ExprLang.Text.Bytes

/-!
# The unread part of a source

A suffix is what is left of a source behind a byte offset. Reading moves the offset forward by
exactly the bytes that are taken off the text (`Suffix.Behind`), so an offset and its text never
part.
-/

set_option autoImplicit false

namespace ExprLang

/-- What is left of a source behind the byte `offset`. -/
structure Suffix where
  offset : Nat
  text : List Char
  deriving DecidableEq, Repr

namespace Suffix

/-- The whole of a source. -/
def ofSource (source : String) : Suffix := ⟨0, source.toList⟩

/-- The suffix behind the first `n` characters. -/
def drop (s : Suffix) (n : Nat) : Suffix :=
  ⟨s.offset + Text.byteLength (s.text.take n), s.text.drop n⟩

/-- The suffix that starts at the first character not of a class. -/
def dropWhile (s : Suffix) (p : Char → Bool) : Suffix :=
  ⟨s.offset + Text.byteLength (s.text.takeWhile p), s.text.dropWhile p⟩

/-- The suffix `t` is `s` with `front` taken off. -/
def Behind (t : Suffix) (front : List Char) (s : Suffix) : Prop :=
  s.text = front ++ t.text ∧ t.offset = s.offset + Text.byteLength front

theorem behind_drop (s : Suffix) (n : Nat) : (s.drop n).Behind (s.text.take n) s :=
  ⟨(List.take_append_drop n s.text).symm, rfl⟩

theorem behind_dropWhile (s : Suffix) (p : Char → Bool) :
    (s.dropWhile p).Behind (s.text.takeWhile p) s :=
  ⟨List.takeWhile_append_dropWhile.symm, rfl⟩

theorem Behind.trans {s t u : Suffix} {front front' : List Char} (h : t.Behind front s)
    (h' : u.Behind front' t) : u.Behind (front ++ front') s :=
  ⟨by rw [h.1, h'.1, List.append_assoc], by
    rw [h'.2, h.2, Text.byteLength_append, Nat.add_assoc]⟩

end Suffix

end ExprLang
