import ExprLang.Token.Lexer

/-!
# Tokens on demand

A lexer that stands at a suffix of its source `Feeds` the stream of that suffix: it gives the current
token of the stream, and then feeds the advanced stream (`Lexer.Feeds.next?`). A `Window` is what a
reader with one token of lookahead keeps: two tokens, and a lexer for those behind them. It `Shows` a
stream, and moved on it shows the advanced stream. Main statements: `Lexer.Feeds.pull?`,
`Window.Shows.advanceBy?`.
-/

set_option autoImplicit false

namespace ExprLang

namespace TokenStream

variable {file : String} {s : Suffix}

theorem eq_of_ahead {s t : TokenStream} (hahead : s.ahead = t.ahead) (hfinal : s.final = t.final) :
    s = t := by
  cases s
  cases t
  cases hahead
  cases hfinal
  rfl

/-- The token with number `i` from the cursor on; the end of the source comes again and again. -/
def get (s : TokenStream) (i : Nat) : Token := s.ahead.getD i s.final

/-- The stream behind `n` tokens. -/
def advanceBy : Nat → TokenStream → TokenStream
  | 0, s => s
  | n + 1, s => advanceBy n s.advance

@[simp] theorem ahead_advanceBy (n : Nat) (s : TokenStream) :
    (s.advanceBy n).ahead = s.ahead.drop n := by
  induction n generalizing s with
  | zero => rfl
  | succ n ih => rw [advanceBy, ih, ahead_advance, List.drop_tail]

@[simp] theorem final_advanceBy (n : Nat) (s : TokenStream) : (s.advanceBy n).final = s.final := by
  induction n generalizing s with
  | zero => rfl
  | succ n ih => exact ih s.advance

theorem advanceBy_advanceBy (m n : Nat) (s : TokenStream) :
    (s.advanceBy m).advanceBy n = s.advanceBy (m + n) :=
  eq_of_ahead (by simp) (by simp)

theorem advanceBy_advance (n : Nat) (s : TokenStream) :
    s.advance.advanceBy n = (s.advanceBy n).advance :=
  eq_of_ahead (by simp) (by simp)

/-- A stream that has the last tokens of another one is behind some of its tokens. -/
theorem eq_advanceBy_of_suffix {s t : TokenStream} (hahead : t.ahead <:+ s.ahead)
    (hfinal : t.final = s.final) : t = s.advanceBy (s.ahead.length - t.ahead.length) := by
  refine eq_of_ahead ?_ (hfinal.trans (final_advanceBy _ _).symm)
  rw [ahead_advanceBy]
  exact List.suffix_iff_eq_drop.1 hahead

theorem current_advanceBy (n : Nat) (s : TokenStream) : (s.advanceBy n).current = s.get n := by
  simp [current, get, List.getD, List.headD_eq_head?_getD]

/-- A suffix behind whose layout nothing is left has no tokens. -/
theorem read_of_eof (fuel : Nat) (h : (s.nextToken file).1.kind = .eof) :
    (read file fuel s).ahead = [] ∧
      (s.text.length ≤ fuel → (read file fuel s).final = (s.nextToken file).1) := by
  cases fuel with
  | zero =>
    refine ⟨rfl, fun hf => ?_⟩
    have hnil : s.text = [] := List.length_eq_zero_iff.1 (Nat.le_zero.1 hf)
    rw [Suffix.nextToken_of_nil (Suffix.kind_nextToken_eq_eof_iff.1 h), Suffix.dropWhile, hnil]
    rfl
  | succ fuel =>
    rw [read, dif_pos h]
    exact ⟨rfl, fun _ => rfl⟩

theorem read_of_ne_eof (fuel : Nat) (h : (s.nextToken file).1.kind ≠ .eof) :
    read file (fuel + 1) s = cons (s.nextToken file).1 h (read file fuel (s.nextToken file).2) := by
  rw [read, dif_neg h]

/-- More fuel than there are characters changes nothing. -/
theorem read_eq_ofSuffix {fuel : Nat} (hf : s.text.length ≤ fuel) :
    read file fuel s = ofSuffix file s := by
  suffices ∀ n, ∀ s : Suffix, s.text.length ≤ n → ∀ k, s.text.length ≤ k →
      read file n s = read file k s from this _ _ hf _ (Nat.le_refl _)
  intro n
  induction n with
  | zero =>
    intro s hn k hk
    have heof : (s.nextToken file).1.kind = .eof := by
      rw [Suffix.kind_nextToken_eq_eof_iff, Suffix.dropWhile,
        List.length_eq_zero_iff.1 (Nat.le_zero.1 hn)]
      rfl
    have hzero := read_of_eof 0 heof
    have hmore := read_of_eof k heof
    exact eq_of_ahead (hzero.1.trans hmore.1.symm) ((hzero.2 hn).trans (hmore.2 hk).symm)
  | succ n ih =>
    intro s hn k hk
    by_cases heof : (s.nextToken file).1.kind = .eof
    · have hone := read_of_eof (n + 1) heof
      have hmore := read_of_eof k heof
      exact eq_of_ahead (hone.1.trans hmore.1.symm) ((hone.2 hn).trans (hmore.2 hk).symm)
    · have hlt := Suffix.length_nextToken_lt heof
      obtain ⟨k, rfl⟩ : ∃ m, k = m + 1 := ⟨k - 1, by omega⟩
      rw [read_of_ne_eof n heof, read_of_ne_eof k heof, ih _ (by omega) k (by omega)]

theorem current_ofSuffix (file : String) (s : Suffix) :
    (ofSuffix file s).current = (s.nextToken file).1 := by
  by_cases heof : (s.nextToken file).1.kind = .eof
  · have hread := read_of_eof s.text.length heof
    rw [current, ofSuffix, hread.1]
    exact hread.2 (Nat.le_refl _)
  · rw [← read_eq_ofSuffix (Nat.le_succ _), read_of_ne_eof _ heof]
    rfl

theorem advance_ofSuffix (file : String) (s : Suffix) :
    (ofSuffix file s).advance = ofSuffix file (s.nextToken file).2 := by
  by_cases heof : (s.nextToken file).1.kind = .eof
  · have hread := read_of_eof s.text.length heof
    have htext := Suffix.kind_nextToken_eq_eof_iff.1 heof
    have hnext := @Suffix.nextToken_of_nil file s htext
    rw [hnext] at hread
    refine eq_of_ahead ?_ ?_
    · rw [ahead_advance, ofSuffix, hread.1, hnext, ofSuffix, htext]
      rfl
    · rw [final_advance, ofSuffix, hread.2 (Nat.le_refl _), hnext, ofSuffix, htext]
      rfl
  · have hlt := Suffix.length_nextToken_lt heof
    rw [← read_eq_ofSuffix (Nat.le_succ s.text.length), read_of_ne_eof _ heof,
      read_eq_ofSuffix (Nat.le_of_lt hlt)]
    rfl

end TokenStream

/-- Reading takes text off the front of a suffix. -/
theorem Suffix.exists_behind_nextToken (file : String) (s : Suffix) :
    ∃ front, (s.nextToken file).2.Behind front s := by
  have hlayout := s.behind_dropWhile Text.isLayout
  cases htext : (s.dropWhile Text.isLayout).text with
  | nil =>
    rw [nextToken_of_nil htext]
    exact ⟨_, hlayout⟩
  | cons c cs =>
    rw [nextToken_of_cons htext]
    exact ⟨_, hlayout.trans (behind_drop _ _)⟩

namespace Lexer

variable {l : Lexer} {s : TokenStream}

/-- The lexer stands at a suffix of its source, and the stream is that of the suffix. -/
def Feeds (l : Lexer) (s : TokenStream) : Prop :=
  ∃ suffix, l.suffix? = some suffix ∧ TokenStream.ofSuffix l.file suffix = s

theorem feeds_ofSource (source : String) (file : Option String) :
    (ofSource source file).Feeds (.ofSource source (file.getD defaultFile)) :=
  ⟨.ofSource source, by simp [suffix?, ofSource, Suffix.ofSource], rfl⟩

/-- A lexer at a suffix reads the token of the suffix. -/
theorem next?_of_suffix? {suffix : Suffix} (h : l.suffix? = some suffix) :
    l.next? = some ((suffix.nextToken l.file).1,
      { l with offset := (suffix.nextToken l.file).2.offset }) := by
  rw [Lexer.next?, h]
  rfl

/-- Behind the token of a suffix the lexer stands at the rest of the suffix. -/
theorem suffix?_behind_next {suffix : Suffix} (h : l.suffix? = some suffix) :
    ({ l with offset := (suffix.nextToken l.file).2.offset } : Lexer).suffix? =
      some (suffix.nextToken l.file).2 := by
  obtain ⟨front, htext, hoffset⟩ := suffix.exists_behind_nextToken l.file
  obtain ⟨text, hdrop, rfl⟩ := Option.map_eq_some_iff.1 h
  obtain ⟨before, hsource, hbefore⟩ := Text.dropBytes?_eq_some_iff.1 hdrop
  refine Option.map_eq_some_iff.2 ⟨_, Text.dropBytes?_eq_some_iff.2 ⟨before ++ front, ?_, ?_⟩, rfl⟩
  · rw [hsource, List.append_assoc, ← htext]
  · rw [Text.byteLength_append, hbefore, hoffset]

/-- A lexer gives the tokens of its stream one by one. -/
theorem Feeds.next? (h : l.Feeds s) :
    ∃ rest : Lexer, l.next? = some (s.current, rest) ∧ rest.Feeds s.advance := by
  obtain ⟨suffix, hsuffix, rfl⟩ := h
  rw [TokenStream.current_ofSuffix]
  exact ⟨_, next?_of_suffix? hsuffix, _, suffix?_behind_next hsuffix,
    (TokenStream.advance_ofSuffix _ _).symm⟩

/-- Reads `n` tokens. -/
def pull? : Nat → Lexer → Option (List Token × Lexer)
  | 0, l => some ([], l)
  | n + 1, l => l.next?.bind fun (token, rest) =>
    (pull? n rest).map fun (tokens, last) => (token :: tokens, last)

theorem Feeds.pull? (n : Nat) (h : l.Feeds s) :
    ∃ rest : Lexer, l.pull? n = some ((List.range n).map s.get, rest) ∧
      rest.Feeds (s.advanceBy n) := by
  induction n generalizing l s with
  | zero => exact ⟨l, rfl, h⟩
  | succ n ih =>
    obtain ⟨l', hnext, h'⟩ := h.next?
    obtain ⟨rest, hpull, hrest⟩ := ih h'
    refine ⟨rest, ?_, hrest⟩
    have hget : s.advance.get = s.get ∘ Nat.succ := by
      funext i
      rw [← TokenStream.current_advanceBy, Function.comp, ← TokenStream.current_advanceBy,
        TokenStream.advanceBy]
    have hhead : s.current = s.get 0 := TokenStream.current_advanceBy 0 s
    rw [Lexer.pull?, hnext, Option.bind_some]
    dsimp only
    rw [hpull, List.range_succ_eq_map, List.map_cons, List.map_map, ← hget, ← hhead]
    rfl

end Lexer

/-- Two tokens in view, and a lexer for those behind them. -/
structure Window where
  current : Token
  peek : Token
  lexer : Lexer
  deriving DecidableEq, Repr

namespace Window

variable {w : Window} {l : Lexer} {s : TokenStream}

/-- The window at the next two tokens of a lexer. -/
def open? (l : Lexer) : Option Window := do
  let (current, l) ← l.next?
  let (peek, l) ← l.next?
  return ⟨current, peek, l⟩

/-- Moves the window to the next token. -/
def advance? (w : Window) : Option Window := do
  let (next, l) ← w.lexer.next?
  return ⟨w.peek, next, l⟩

/-- Moves the window on by `n` tokens. -/
def advanceBy? : Nat → Window → Option Window
  | 0, w => some w
  | n + 1, w => w.advance?.bind (advanceBy? n)

/-- The window is at the front of the stream. -/
structure Shows (w : Window) (s : TokenStream) : Prop where
  current : w.current = s.current
  peek : w.peek = s.peek
  lexer : w.lexer.Feeds (s.advanceBy 2)

/-- A window on a lexer shows the stream of the lexer. -/
theorem shows_open? (h : l.Feeds s) : ∃ w, open? l = some w ∧ w.Shows s := by
  obtain ⟨l₁, h₁, hl₁⟩ := h.next?
  obtain ⟨l₂, h₂, hl₂⟩ := hl₁.next?
  have hopen : open? l = some ⟨s.current, s.advance.current, l₂⟩ := by simp [open?, h₁, h₂]
  exact ⟨_, hopen, rfl, rfl, hl₂⟩

theorem Shows.advance? (h : w.Shows s) : ∃ w', w.advance? = some w' ∧ w'.Shows s.advance := by
  obtain ⟨l, hnext, hl⟩ := h.lexer.next?
  rw [← TokenStream.advanceBy_advance] at hl
  have hadvance : w.advance? = some ⟨w.peek, (s.advanceBy 2).current, l⟩ := by
    simp [Window.advance?, hnext]
  exact ⟨_, hadvance, h.peek, rfl, hl⟩

theorem Shows.advanceBy? (n : Nat) (h : w.Shows s) :
    ∃ w', w.advanceBy? n = some w' ∧ w'.Shows (s.advanceBy n) := by
  induction n generalizing w s with
  | zero => exact ⟨w, rfl, h⟩
  | succ n ih =>
    obtain ⟨w₁, hw₁, h₁⟩ := h.advance?
    obtain ⟨w', hw', h'⟩ := ih h₁
    exact ⟨w', by rw [Window.advanceBy?, hw₁]; exact hw', h'⟩

end Window

end ExprLang
