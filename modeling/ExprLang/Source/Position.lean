/-!
# Positions in a named source

A position is a byte offset into a source of a given name, a span the part of a source between two
positions. Offsets have 32 bits: an offset that does not fit is recorded as the largest one.
-/

set_option autoImplicit false

namespace ExprLang

/-- The name of a source that was given none. -/
def defaultFile : String := "shell"

/-- A place in a source: a byte offset and the source's name. -/
structure Position where
  offset : Nat
  file : String
  deriving DecidableEq, Repr, Inhabited

/-- The part of a source from `start` up to `stop`, the latter not included. -/
structure Span where
  start : Position
  stop : Position
  deriving DecidableEq, Repr, Inhabited

namespace Position

/-- The largest offset that a position can record. -/
def maxOffset : Nat := 4294967295

/-- The position of the byte `offset`, which stops at the largest offset. -/
def clamped (file : String) (offset : Nat) : Position := ⟨min offset maxOffset, file⟩

@[simp] theorem file_clamped (file : String) (offset : Nat) : (clamped file offset).file = file :=
  rfl

theorem offset_clamped (file : String) (offset : Nat) :
    (clamped file offset).offset = min offset maxOffset := rfl

theorem offset_clamped_of_le {file : String} {offset : Nat} (h : offset ≤ maxOffset) :
    (clamped file offset).offset = offset := Nat.min_eq_left h

end Position

/-- The span of `length` bytes from the byte `offset` on. -/
def Span.clamped (file : String) (offset length : Nat) : Span :=
  ⟨.clamped file offset, .clamped file (offset + length)⟩

end ExprLang
