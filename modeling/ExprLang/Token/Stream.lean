import ExprLang.Token.Basic

/-!
# Token streams

The tokens of a source from some point on: finitely many ahead, and then the end of the source
for ever. The invariants say which is which, so the current token is the end of the source
exactly if nothing is ahead (`kind_current_eq_eof_iff`).
-/

set_option autoImplicit false

namespace ExprLang

/-- The tokens that are still to be read. -/
structure TokenStream where
  /-- The tokens before the end of the source. -/
  ahead : List Token
  /-- The end of the source, which no reading goes past. -/
  final : Token
  ahead_ne_eof : ∀ t ∈ ahead, t.kind ≠ .eof
  final_eq_eof : final.kind = .eof

namespace TokenStream

/-- The stream at the end of its source. -/
def atEnd (file : String) (offset : Nat) : TokenStream :=
  ⟨[], .placed file offset .eof "", by simp, rfl⟩

/-- The stream with one more token in front. -/
def cons (t : Token) (h : t.kind ≠ .eof) (s : TokenStream) : TokenStream :=
  ⟨t :: s.ahead, s.final, by simpa using ⟨h, s.ahead_ne_eof⟩, s.final_eq_eof⟩

/-- The stream of a suffix, reading at most `fuel` tokens before its end. -/
def read (file : String) : Nat → Suffix → TokenStream
  | 0, s => atEnd file s.offset
  | fuel + 1, s =>
    let next := s.nextToken file
    if h : next.1.kind = .eof then ⟨[], next.1, by simp, h⟩
    else cons next.1 h (read file fuel next.2)

/-- The stream of a suffix, which holds no more tokens than characters. -/
def ofSuffix (file : String) (s : Suffix) : TokenStream := read file s.text.length s

/-- The stream of a whole source. -/
def ofSource (source file : String) : TokenStream := ofSuffix file (.ofSource source)

/-- The tokens up to and including the end of the source. -/
def toList (s : TokenStream) : List Token := s.ahead ++ [s.final]

/-- The token under the cursor. -/
def current (s : TokenStream) : Token := s.ahead.headD s.final

/-- The token behind the current one. -/
def peek (s : TokenStream) : Token := s.ahead.tail.headD s.final

/-- Moves the cursor to the next token; at the end of the source it stays. -/
def advance (s : TokenStream) : TokenStream :=
  { s with
    ahead := s.ahead.tail
    ahead_ne_eof := fun t h => s.ahead_ne_eof t (List.mem_of_mem_tail h) }

/-- The name of the source. -/
def file (s : TokenStream) : String := s.final.span.start.file

/-! ## The two tokens in view -/

@[simp] theorem ahead_advance (s : TokenStream) : s.advance.ahead = s.ahead.tail := rfl
@[simp] theorem final_advance (s : TokenStream) : s.advance.final = s.final := rfl

theorem current_advance (s : TokenStream) : s.advance.current = s.peek := rfl

theorem kind_current_eq_eof_iff {s : TokenStream} : s.current.kind = .eof ↔ s.ahead = [] := by
  have := s.ahead_ne_eof
  cases h : s.ahead with
  | nil => simp [current, h, s.final_eq_eof]
  | cons t ts => simpa [current, h] using this t (by simp [h])

theorem kind_peek_eq_eof_iff {s : TokenStream} : s.peek.kind = .eof ↔ s.ahead.length ≤ 1 := by
  rw [← current_advance, kind_current_eq_eof_iff, ahead_advance, ← List.length_eq_zero_iff,
    List.length_tail]
  omega

theorem toList_eq_cons (s : TokenStream) : s.toList = s.current :: s.toList.tail := by
  unfold toList current
  cases s.ahead <;> rfl

theorem toList_of_eof {s : TokenStream} (h : s.current.kind = .eof) : s.toList = [s.current] := by
  have hnil := kind_current_eq_eof_iff.1 h
  simp [toList, current, hnil]

theorem toList_advance {s : TokenStream} (h : s.current.kind ≠ .eof) :
    s.toList = s.current :: s.advance.toList := by
  have hne := mt kind_current_eq_eof_iff.2 h
  obtain ⟨t, ts, hts⟩ := List.exists_cons_of_ne_nil hne
  simp [toList, current, hts]

/-- Away from the end of the source the cursor makes progress. -/
theorem length_advance_lt {s : TokenStream} (h : s.current.kind ≠ .eof) :
    s.advance.ahead.length < s.ahead.length := by
  have := List.length_pos_iff.2 (mt kind_current_eq_eof_iff.2 h)
  rw [ahead_advance, List.length_tail]
  omega

end TokenStream

/-- The tokens of a source, of which the last one alone is the end of the source. -/
def tokenize (source : String) (file : Option String) : List Token :=
  (TokenStream.ofSource source (file.getD defaultFile)).toList

end ExprLang
