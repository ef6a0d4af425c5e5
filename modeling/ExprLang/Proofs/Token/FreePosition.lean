import ExprLang.Proofs.Token.Concatenation
import ExprLang.Proofs.Token.Pulling
import Mathlib.Data.List.Forall2

/-!
# Lexers at any position

A lexer that is moved by hand can come past the end of its source or inside a character
(`Lexer.Misplaced`), and nothing can be read from there (`misplaced_iff`). From any other position
it reads the text behind it as if that were a source of its own, further on by the position
(`toList_ofSuffix`). Each token leaves it at such a position again, and the end of the source where
the same end is read again (`next?_of_eof`).

`Lexer.Operation` is what can be asked of a lexer, and `performAll` asks one thing after another.
Offsets are machine words: `limit` is the largest one, and a move by hand past it fails, as reading
at a misplaced lexer does; nothing else fails (`perform_eq_none_iff`, `performAll_eq_none_iff`).
Main statement (`safe_of_performAll`): wherever any operations leave the lexer of a source, all of
this holds.
-/

set_option autoImplicit false

namespace ExprLang

/-- Where no text is behind an offset, it is past the end or inside a character. -/
theorem Text.dropBytes?_eq_none_iff {n : Nat} {cs : List Char} :
    dropBytes? n cs = none ↔ byteLength cs < n ∨
      ∃ front c rest, cs = front ++ c :: rest ∧ byteLength front < n ∧
        n < byteLength front + c.utf8Size := by
  constructor
  · intro h
    fun_induction dropBytes? n cs with
    | case1 => cases h
    | case2 => exact .inl (Nat.succ_pos _)
    | case3 n c cs hc ih =>
      rcases ih h with hpast | ⟨front, d, rest, rfl, hstart, hstop⟩
      · exact .inl (by rw [byteLength_cons]; omega)
      · refine .inr ⟨c :: front, d, rest, rfl, ?_, ?_⟩ <;> rw [byteLength_cons] <;> omega
    | case4 n c cs hc => exact .inr ⟨[], c, cs, rfl, Nat.succ_pos _, by simp; omega⟩
  · -- behind a front part that leaves nothing, or a character longer than what is left of `n`
    rintro (hpast | ⟨front, c, rest, rfl, hstart, hstop⟩)
    · obtain ⟨k, rfl⟩ : ∃ k, n = byteLength cs + (k + 1) := ⟨n - byteLength cs - 1, by omega⟩
      have hdrop := dropBytes?_add cs (k + 1) []
      rw [List.append_nil] at hdrop
      exact hdrop
    · obtain ⟨k, rfl⟩ : ∃ k, n = byteLength front + (k + 1) :=
        ⟨n - byteLength front - 1, by omega⟩
      rw [dropBytes?_add, dropBytes?, if_neg (by omega)]

/-! ## Suffixes -/

namespace Suffix

variable {file : String} {s : Suffix}

theorem offset_nextToken_lt (h : (s.nextToken file).1.kind ≠ .eof) :
    s.offset < (s.nextToken file).2.offset := by
  obtain ⟨front, htext, hoffset⟩ := s.exists_behind_nextToken file
  have hlt := length_nextToken_lt h
  have hne : front ≠ [] := by
    rintro rfl
    rw [htext, List.nil_append] at hlt
    exact Nat.lt_irrefl _ hlt
  have hpos := Nat.pos_of_ne_zero (mt Text.byteLength_eq_zero_iff.1 hne)
  omega

theorem dropWhile_of_nil {p : Char → Bool} (h : s.text = []) : s.dropWhile p = s := by
  obtain ⟨offset, text⟩ := s
  cases h
  rfl

/-- Behind the end of the source the same end is read again. -/
theorem nextToken_of_eof (h : (s.nextToken file).1.kind = .eof) :
    (s.nextToken file).2.nextToken file = s.nextToken file := by
  have hnil := kind_nextToken_eq_eof_iff.1 h
  have hstay := dropWhile_of_nil (p := Text.isLayout) hnil
  rw [nextToken_of_nil hnil]
  have hend := @nextToken_of_nil file (s.dropWhile Text.isLayout) (by rw [hstay, hnil])
  rwa [hstay] at hend

end Suffix

namespace TokenStream

theorem length_ahead_read (file : String) (fuel : Nat) (s : Suffix) :
    (read file fuel s).ahead.length ≤ fuel := by
  induction fuel generalizing s with
  | zero => exact Nat.le_refl _
  | succ fuel ih =>
    by_cases heof : (s.nextToken file).1.kind = .eof
    · rw [(read_of_eof (fuel + 1) heof).1]
      exact Nat.zero_le _
    · rw [read_of_ne_eof fuel heof]
      exact Nat.succ_le_succ (ih _)

/-- The text behind a front part is read as a source of its own, further on by the front part. -/
theorem toList_ofSuffix (front text : String) (file : Option String) :
    (ofSuffix (file.getD defaultFile) ⟨front.utf8ByteSize, text.toList⟩).toList =
      (tokenize text file).map (Token.relocate (.shift front.utf8ByteSize)) := by
  have htile := (tiling_tokenize text file).shift front.toList
  rw [Text.byteLength_toList, Nat.add_zero] at htile
  exact (htile.eq_toList_read front.toList rfl (Text.byteLength_toList front).symm rfl
    (Nat.le_refl _)).symm

end TokenStream

namespace Lexer

variable {l : Lexer} {t : Token} {rest : Lexer}

/-! ## Where a lexer can stand -/

/-- The position is past the end of the source. -/
def PastEnd (l : Lexer) : Prop := l.source.utf8ByteSize < l.offset

/-- The position is between two bytes of one character of the source. -/
def InsideCharacter (l : Lexer) : Prop :=
  ∃ (front : String) (c : Char) (rest : String), l.source = front ++ c.toString ++ rest ∧
    front.utf8ByteSize < l.offset ∧ l.offset < front.utf8ByteSize + c.utf8Size

/-- The position has no text behind it. -/
def Misplaced (l : Lexer) : Prop := l.PastEnd ∨ l.InsideCharacter

theorem insideCharacter_iff : l.InsideCharacter ↔
    ∃ front c rest, l.source.toList = front ++ c :: rest ∧ Text.byteLength front < l.offset ∧
      l.offset < Text.byteLength front + c.utf8Size := by
  constructor
  · rintro ⟨front, c, rest, hsource, hstart, hstop⟩
    rw [← Text.byteLength_toList] at hstart hstop
    exact ⟨front.toList, c, rest.toList, by simp [hsource], hstart, hstop⟩
  · rintro ⟨front, c, rest, hsource, hstart, hstop⟩
    rw [← Text.utf8ByteSize_ofList] at hstart hstop
    refine ⟨String.ofList front, c, String.ofList rest, ?_, hstart, hstop⟩
    rw [← String.toList_inj, hsource]
    simp

theorem misplaced_iff : l.Misplaced ↔ l.suffix? = none := by
  rw [Misplaced, PastEnd, insideCharacter_iff, suffix?, Option.map_eq_none_iff,
    Text.dropBytes?_eq_none_iff, Text.byteLength_toList]

/-! ## Reading from where a lexer stands -/

theorem suffix?_eq_some_iff {suffix : Suffix} : l.suffix? = some suffix ↔
    ∃ front text : String, l.source = front ++ text ∧ front.utf8ByteSize = l.offset ∧
      suffix = ⟨l.offset, text.toList⟩ := by
  rw [suffix?, Option.map_eq_some_iff]
  constructor
  · rintro ⟨text, hdrop, rfl⟩
    obtain ⟨front, hsource, hfront⟩ := Text.dropBytes?_eq_some_iff.1 hdrop
    refine ⟨String.ofList front, String.ofList text, ?_, ?_, by simp⟩
    · rw [← String.toList_inj, hsource]
      simp
    · rw [Text.utf8ByteSize_ofList, hfront]
  · rintro ⟨front, text, hsource, hfront, rfl⟩
    refine ⟨text.toList, Text.dropBytes?_eq_some_iff.2 ⟨front.toList, ?_, ?_⟩, rfl⟩
    · rw [hsource, String.toList_append]
    · rw [Text.byteLength_toList, hfront]

/-- What a token leaves behind: only the position has changed, and it can be read from. -/
theorem next?_eq_some_iff : l.next? = some (t, rest) ↔
    ∃ suffix, l.suffix? = some suffix ∧ t = (suffix.nextToken l.file).1 ∧
      rest = { l with offset := (suffix.nextToken l.file).2.offset } := by
  constructor
  · intro h
    obtain ⟨suffix, hsuffix, -⟩ := Option.map_eq_some_iff.1 h
    rw [next?_of_suffix? hsuffix] at h
    cases h
    exact ⟨suffix, hsuffix, rfl, rfl⟩
  · rintro ⟨suffix, hsuffix, rfl, rfl⟩
    exact next?_of_suffix? hsuffix

theorem not_misplaced_of_next? (h : l.next? = some (t, rest)) : ¬ rest.Misplaced := by
  obtain ⟨suffix, hsuffix, -, rfl⟩ := next?_eq_some_iff.1 h
  rw [misplaced_iff, suffix?_behind_next hsuffix]
  exact Option.some_ne_none _

theorem offset_lt_of_next? (h : l.next? = some (t, rest)) (hk : t.kind ≠ .eof) :
    l.offset < rest.offset := by
  obtain ⟨suffix, hsuffix, rfl, rfl⟩ := next?_eq_some_iff.1 h
  obtain ⟨text, -, rfl⟩ := Option.map_eq_some_iff.1 hsuffix
  exact Suffix.offset_nextToken_lt hk

/-- The end of the source is read again and again. -/
theorem next?_of_eof (h : l.next? = some (t, rest)) (hk : t.kind = .eof) :
    rest.next? = some (t, rest) := by
  obtain ⟨suffix, hsuffix, rfl, rfl⟩ := next?_eq_some_iff.1 h
  have hagain := Suffix.nextToken_of_eof hk
  refine next?_eq_some_iff.2 ⟨_, suffix?_behind_next hsuffix, ?_, ?_⟩
  · exact (congrArg Prod.fst hagain).symm
  · rw [hagain]

/-! ## Operations -/

/-- What can be asked of a lexer. -/
inductive Operation where
  | next
  | emit (kind : Kind) (literal : String)
  | advance (bytes : Nat)
  | current
  | remainder
  | atEnd
  /-- A second lexer at the same place, which can be asked the same things from there on. -/
  | copy

/-- What a lexer answers. -/
inductive Answer where
  | token (t : Token)
  | moved
  | character (c : Char)
  | text (text : String)
  | flag (atEnd : Bool)
  | lexer (copied : Lexer)
  deriving DecidableEq

namespace Operation

/-- Whether the operation looks at the text behind the position. -/
def reads : Operation → Bool
  | next | current | remainder => true
  | _ => false

/-- By how many bytes the operation moves the position by hand. -/
def moved? : Operation → Option Nat
  | emit _ literal => some literal.utf8ByteSize
  | advance bytes => some bytes
  | _ => none

end Operation

/-- The answer to an operation and the lexer behind it, where no offset exceeds `limit`. -/
def perform (limit : Nat) (l : Lexer) : Operation → Option (Answer × Lexer)
  | .next => l.next?.map fun (t, rest) => (.token t, rest)
  | .emit kind literal =>
    if l.offset + literal.utf8ByteSize ≤ limit then
      let (t, rest) := l.emit kind literal
      some (.token t, rest)
    else none
  | .advance bytes => if l.offset + bytes ≤ limit then some (.moved, l.advance bytes) else none
  | .current => l.current?.map fun c => (.character c, l)
  | .remainder => l.remainder?.map fun text => (.text text, l)
  | .atEnd => some (.flag l.atEnd, l)
  | .copy => some (.lexer l, l)

/-- The answers to some operations, the first one first, and the lexer behind all of them. -/
def performAll (limit : Nat) : List Operation → Lexer → Option (List Answer × Lexer)
  | [], l => some ([], l)
  | op :: ops, l => (l.perform limit op).bind fun (answer, rest) =>
    (performAll limit ops rest).map fun (answers, last) => (answer :: answers, last)

section
variable {limit : Nat} {op : Operation} {ops : List Operation} {answer : Answer}
  {answers : List Answer}

theorem perform_eq_none_iff : l.perform limit op = none ↔
    op.reads = true ∧ l.Misplaced ∨ ∃ n ∈ op.moved?, limit < l.offset + n := by
  rw [misplaced_iff]
  cases op <;>
    simp [perform, Operation.reads, Operation.moved?, next?, current?, remainder?]

theorem perform_next (limit : Nat) (h : l.next? = some (t, rest)) :
    l.perform limit .next = some (.token t, rest) := by
  rw [perform, h]
  rfl

/-- An operation reads a token, moves the position by hand or leaves the lexer as it is. -/
theorem perform_cases (h : l.perform limit op = some (answer, rest)) :
    (∃ t, op = .next ∧ answer = .token t ∧ l.next? = some (t, rest)) ∨
    (∃ n, op.moved? = some n ∧ l.offset + n ≤ limit ∧ rest = l.advance n) ∨
    (op ≠ .next ∧ op.moved? = none ∧ rest = l) := by
  cases op with
  | next =>
    obtain ⟨⟨t, rest'⟩, hnext, heq⟩ := Option.map_eq_some_iff.1 h
    cases heq
    exact .inl ⟨t, rfl, rfl, hnext⟩
  | emit kind literal =>
    obtain ⟨hle, heq⟩ := Option.ite_none_right_eq_some.1 h
    cases heq
    exact .inr (.inl ⟨_, rfl, hle, rfl⟩)
  | advance bytes =>
    obtain ⟨hle, heq⟩ := Option.ite_none_right_eq_some.1 h
    cases heq
    exact .inr (.inl ⟨bytes, rfl, hle, rfl⟩)
  | current =>
    obtain ⟨c, -, heq⟩ := Option.map_eq_some_iff.1 h
    cases heq
    exact .inr (.inr ⟨nofun, rfl, rfl⟩)
  | remainder =>
    obtain ⟨text, -, heq⟩ := Option.map_eq_some_iff.1 h
    cases heq
    exact .inr (.inr ⟨nofun, rfl, rfl⟩)
  | atEnd =>
    cases h
    exact .inr (.inr ⟨nofun, rfl, rfl⟩)
  | copy =>
    cases h
    exact .inr (.inr ⟨nofun, rfl, rfl⟩)

/-- An operation changes nothing but the position. -/
theorem perform_keeps (h : l.perform limit op = some (answer, rest)) :
    rest.source = l.source ∧ rest.file = l.file := by
  obtain ⟨t, -, -, hnext⟩ | ⟨n, -, -, rfl⟩ | ⟨-, -, rfl⟩ := perform_cases h
  · obtain ⟨suffix, -, -, rfl⟩ := next?_eq_some_iff.1 hnext
    exact ⟨rfl, rfl⟩
  · exact ⟨rfl, rfl⟩
  · exact ⟨rfl, rfl⟩

/-- At the end of the source only a move by hand changes anything. -/
theorem perform_at_end (limit : Nat) (hend : l.next? = some (t, l)) (hop : op.moved? = none) :
    ∃ answer, l.perform limit op = some (answer, l) ∧ (op = .next → answer = .token t) := by
  have hdone : l.perform limit op ≠ none := by
    rw [ne_eq, perform_eq_none_iff, hop]
    rintro (⟨-, hplace⟩ | ⟨n, hn, -⟩)
    · exact not_misplaced_of_next? hend hplace
    · cases hn
  obtain ⟨⟨answer, rest⟩, hperform⟩ := Option.ne_none_iff_exists'.1 hdone
  obtain ⟨t', rfl, rfl, hnext⟩ | ⟨n, hn, -, -⟩ | ⟨hne, -, rfl⟩ := perform_cases hperform
  · rw [hend] at hnext
    cases hnext
    exact ⟨_, hperform, fun _ => rfl⟩
  · rw [hop] at hn
    cases hn
  · exact ⟨answer, hperform, fun h => absurd h hne⟩

/-! ## Runs -/

theorem performAll_cons (h : l.perform limit op = some (answer, rest)) :
    l.performAll limit (op :: ops) =
      (rest.performAll limit ops).map fun (answers, last) => (answer :: answers, last) := by
  rw [performAll, h]
  rfl

theorem performAll_keeps {last : Lexer} (h : l.performAll limit ops = some (answers, last)) :
    last.source = l.source ∧ last.file = l.file := by
  induction ops generalizing l answers with
  | nil =>
    cases h
    exact ⟨rfl, rfl⟩
  | cons op ops ih =>
    obtain ⟨⟨answer, rest⟩, hop, hrest⟩ := Option.bind_eq_some_iff.1 h
    obtain ⟨⟨others, last'⟩, hrun, heq⟩ := Option.map_eq_some_iff.1 hrest
    cases heq
    have hstep := perform_keeps hop
    have hlater := ih hrun
    exact ⟨hlater.1.trans hstep.1, hlater.2.trans hstep.2⟩

/-- A run fails where one of its operations does. -/
theorem performAll_eq_none_iff : l.performAll limit ops = none ↔
    ∃ (front : List Operation) (op : Operation) (behind : List Operation) (answers : List Answer)
      (last : Lexer), ops = front ++ op :: behind ∧
        l.performAll limit front = some (answers, last) ∧ last.perform limit op = none := by
  induction ops generalizing l with
  | nil => simp [performAll]
  | cons op ops ih =>
    cases hop : l.perform limit op with
    | none =>
      have hfail : l.performAll limit (op :: ops) = none := by rw [performAll, hop]; rfl
      exact iff_of_true hfail ⟨[], op, ops, [], l, rfl, rfl, hop⟩
    | some result =>
      obtain ⟨answer, rest⟩ := result
      rw [performAll_cons hop, Option.map_eq_none_iff, ih]
      constructor
      · rintro ⟨front, op', behind, answers, last, rfl, hfront, hfail⟩
        refine ⟨op :: front, op', behind, answer :: answers, last, rfl, ?_, hfail⟩
        rw [performAll_cons hop, hfront]
        rfl
      · rintro ⟨front, op', behind, answers, last, hops, hfront, hfail⟩
        -- the first operation has an answer, so the one that fails is behind it
        cases front with
        | nil =>
          cases hops
          cases hfront
          rw [hop] at hfail
          cases hfail
        | cons op₁ front =>
          cases hops
          rw [performAll_cons hop] at hfront
          obtain ⟨⟨others, last'⟩, hrun, heq⟩ := Option.map_eq_some_iff.1 hfront
          cases heq
          exact ⟨front, op', behind, others, last, rfl, hrun, hfail⟩

theorem performAll_at_end (hend : l.next? = some (t, l)) (hops : ∀ op ∈ ops, op.moved? = none) :
    ∃ answers, l.performAll limit ops = some (answers, l) ∧
      List.Forall₂ (fun op answer => op = .next → answer = .token t) ops answers := by
  induction ops with
  | nil => exact ⟨[], rfl, .nil⟩
  | cons op ops ih =>
    obtain ⟨answer, hop, hanswer⟩ := perform_at_end limit hend (hops op (.head _))
    obtain ⟨answers, hrun, hanswers⟩ := ih fun op' h => hops op' (.tail _ h)
    refine ⟨answer :: answers, ?_, .cons hanswer hanswers⟩
    rw [performAll_cons hop, hrun]
    rfl

/-! ## Draining -/

/-- The tokens are what is read up to the first end of the source, in one go and one by one. -/
def Drains (limit : Nat) (l : Lexer) (tokens : List Token) : Prop :=
  l.drain? = some tokens ∧ ∃ last, l.performAll limit (List.replicate tokens.length .next) =
    some (tokens.map .token, last)

variable {s : TokenStream}

theorem Feeds.drainWithin? {fuel : Nat} (h : l.Feeds s) (hf : s.ahead.length ≤ fuel) :
    l.drainWithin? fuel = some s.toList := by
  induction fuel generalizing l s with
  | zero =>
    obtain ⟨rest, hnext, -⟩ := h.next?
    have hnil : s.ahead = [] := List.length_eq_zero_iff.1 (Nat.le_zero.1 hf)
    rw [Lexer.drainWithin?, hnext,
      TokenStream.toList_of_eof (TokenStream.kind_current_eq_eof_iff.2 hnil)]
    rfl
  | succ fuel ih =>
    obtain ⟨rest, hnext, hrest⟩ := h.next?
    rw [Lexer.drainWithin?, hnext, Option.bind_some]
    dsimp only
    by_cases hk : s.current.kind = .eof
    · rw [if_pos hk, TokenStream.toList_of_eof hk]
    · have hlt := TokenStream.length_advance_lt hk
      rw [if_neg hk, ih hrest (by omega), TokenStream.toList_advance hk]
      rfl

theorem Feeds.performAll_next (h : l.Feeds s) :
    ∃ last, l.performAll limit (List.replicate s.toList.length .next) =
      some (s.toList.map .token, last) := by
  -- each token but the end leaves fewer ahead
  induction hn : s.ahead.length using Nat.strongRecOn generalizing l s with
  | _ n ih =>
    subst hn
    obtain ⟨rest, hnext, hrest⟩ := h.next?
    by_cases hk : s.current.kind = .eof
    · rw [TokenStream.toList_of_eof hk]
      exact ⟨rest, performAll_cons (perform_next limit hnext)⟩
    · obtain ⟨last, hrun⟩ := ih _ (TokenStream.length_advance_lt hk) hrest rfl
      refine ⟨last, ?_⟩
      rw [TokenStream.toList_advance hk, List.length_cons, List.replicate_succ,
        performAll_cons (perform_next limit hnext), hrun]
      rfl

theorem drains_of_suffix? {suffix : Suffix} (limit : Nat) (h : l.suffix? = some suffix) :
    l.Drains limit (TokenStream.ofSuffix l.file suffix).toList := by
  have hfeeds : l.Feeds (.ofSuffix l.file suffix) := ⟨suffix, h, rfl⟩
  refine ⟨hfeeds.drainWithin? ?_, hfeeds.performAll_next⟩
  obtain ⟨front, text, hsource, -, rfl⟩ := suffix?_eq_some_iff.1 h
  have hlength := TokenStream.length_ahead_read l.file text.toList.length ⟨l.offset, text.toList⟩
  refine Nat.le_trans hlength ?_
  rw [hsource, String.length_append, String.length_toList]
  exact Nat.le_add_left _ _

/-! ## Safety -/

/-- What holds of a lexer on a source wherever it stands, and however it came there. -/
structure Safe (limit : Nat) (source : String) (file : Option String) (l : Lexer) : Prop where
  source_eq : l.source = source
  file_eq : l.file = file.getD defaultFile
  /-- Reading fails at a misplaced lexer, a move by hand past the largest offset, nothing else. -/
  fails_iff (op : Operation) : l.perform limit op = none ↔
    op.reads = true ∧ l.Misplaced ∨ ∃ n ∈ op.moved?, limit < l.offset + n
  /-- The text behind the position is read as a source of its own, further on by the position. -/
  drains : ¬ l.Misplaced → ∃ front text, source = front ++ text ∧
    front.utf8ByteSize = l.offset ∧
      l.Drains limit ((tokenize text file).map (Token.relocate (.shift l.offset)))
  /-- A token leaves the lexer at a position to read from, and further on unless it is the end. -/
  next (t : Token) (rest : Lexer) : l.next? = some (t, rest) →
    rest.source = source ∧ ¬ rest.Misplaced ∧ (t.kind ≠ .eof → l.offset < rest.offset)
  /-- Behind the end of the source the same end is read, and the lexer stays as it is. -/
  ended (t : Token) (rest : Lexer) : l.next? = some (t, rest) → t.kind = .eof →
    ∀ ops : List Operation, (∀ op ∈ ops, op.moved? = none) →
      ∃ answers, rest.performAll limit ops = some (answers, rest) ∧
        List.Forall₂ (fun op answer => op = .next → answer = .token t) ops answers

theorem safe {source : String} {file : Option String} (hsource : l.source = source)
    (hfile : l.file = file.getD defaultFile) : l.Safe limit source file where
  source_eq := hsource
  file_eq := hfile
  fails_iff _ := perform_eq_none_iff
  drains hplace := by
    rw [misplaced_iff] at hplace
    obtain ⟨suffix, hsuffix⟩ := Option.ne_none_iff_exists'.1 hplace
    have hdrains := drains_of_suffix? limit hsuffix
    obtain ⟨front, text, hsplit, hfront, rfl⟩ := suffix?_eq_some_iff.1 hsuffix
    refine ⟨front, text, hsource.symm.trans hsplit, hfront, ?_⟩
    rwa [hfile, ← hfront, TokenStream.toList_ofSuffix, hfront] at hdrains
  next t rest hnext := by
    refine ⟨?_, not_misplaced_of_next? hnext, offset_lt_of_next? hnext⟩
    exact (perform_keeps (perform_next limit hnext)).1.trans hsource
  ended t rest hnext hk ops hops := performAll_at_end (next?_of_eof hnext hk) hops

end

/-- A lexer is safe wherever any operations leave it. -/
theorem safe_of_performAll {limit : Nat} {source : String} {file : Option String}
    {ops : List Operation} {answers : List Answer}
    (h : (ofSource source file).performAll limit ops = some (answers, l)) :
    l.Safe limit source file := by
  obtain ⟨hsource, hfile⟩ := performAll_keeps h
  exact safe hsource hfile

/--
A token that is emitted by hand leaves the lexer inside a letter, where nothing can be read; one
byte further on the rest of the source can.
-/
theorem safe_of_performAll_emitted :
    let start := ofSource "aλ = 1" none
    let inside : Lexer := { start with offset := 2 }
    let behind : Lexer := { start with offset := 3 }
    let tokens : List Answer := [.token ⟨.identifier, "a", ⟨⟨0, "shell"⟩, ⟨1, "shell"⟩⟩⟩,
      .token ⟨.plus, "+", ⟨⟨1, "shell"⟩, ⟨2, "shell"⟩⟩⟩]
    (start.performAll (UInt64.size - 1) [.next, .emit .plus "+"] = some (tokens, inside) ∧
      inside.Safe (UInt64.size - 1) "aλ = 1" none ∧ inside.next? = none) ∧
    start.performAll (UInt64.size - 1) [.next, .emit .plus "+", .atEnd, .advance 1] =
        some (tokens ++ [.flag false, .moved], behind) ∧
      behind.Safe (UInt64.size - 1) "aλ = 1" none ∧
        behind.drain?.map (List.map Token.literal) = some ["=", "1", ""] := by
  intro start inside behind tokens
  have hinside : start.performAll (UInt64.size - 1) [.next, .emit .plus "+"] =
      some (tokens, inside) := by decide +kernel
  have hbehind : start.performAll (UInt64.size - 1) [.next, .emit .plus "+", .atEnd, .advance 1] =
      some (tokens ++ [.flag false, .moved], behind) := by decide +kernel
  have hsafe := safe_of_performAll hinside
  have hmisplaced : inside.Misplaced := .inr ⟨"a", 'λ', " = 1", by decide, by decide, by decide⟩
  have hfails := (hsafe.fails_iff .next).2 (.inl ⟨rfl, hmisplaced⟩)
  exact ⟨⟨hinside, hsafe, Option.map_eq_none_iff.1 hfails⟩, hbehind, safe_of_performAll hbehind,
    by decide +kernel⟩

end Lexer

end ExprLang
