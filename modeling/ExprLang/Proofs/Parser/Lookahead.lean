import ExprLang.Proofs.Parser.Coupling
import ExprLang.Proofs.Token.Pulling

/-!
# Nothing behind the lookahead

A parser sees the current token and one token of lookahead, and no step moves back. So a step that
moves on by `i` tokens has seen the tokens up to the number `i + 1` from where it started, and does
the same for every parser that has the same tokens up to there, at the same depth and under the same
options: it is `NearSighted`.

Two runs are `Abreast` while the first one has moved on by at most `i` tokens. From then on they may
part, but a run that ends behind `i` tokens has never come to this (`nearSighted_of_coupled`). Main
statement: `nearSighted_statement_block_expression`.
-/

set_option autoImplicit false

namespace ExprLang

open Step

/-! ## Streams with the same tokens in front -/

namespace TokenStream

variable {s t : TokenStream} {last n : Nat}

theorem kind_get_eq_eof_iff : (s.get n).kind = .eof ↔ s.ahead.length ≤ n := by
  rw [← current_advanceBy, kind_current_eq_eof_iff, ahead_advanceBy, List.drop_eq_nil_iff]

theorem peek_advanceBy (n : Nat) (s : TokenStream) : (s.advanceBy n).peek = s.get (n + 1) := by
  rw [← current_advance, ← advanceBy_advance, current_advanceBy, ← current_advanceBy,
    ← current_advanceBy]
  rfl

/-- The stream `t` has the tokens of `s` up to the one with the number `last`. -/
def AgreesTo (last : Nat) (s t : TokenStream) : Prop := ∀ k ≤ last, t.get k = s.get k

/-- Streams that agree to the end of one of them are the same. -/
theorem AgreesTo.eq_of_le (h : AgreesTo last s t) (hend : s.ahead.length ≤ last) : t = s := by
  have hlength (k : Nat) (hk : k ≤ last) : t.ahead.length ≤ k ↔ s.ahead.length ≤ k := by
    rw [← kind_get_eq_eof_iff, ← kind_get_eq_eof_iff, h k hk]
  have hle : t.ahead.length ≤ s.ahead.length := (hlength _ hend).2 (Nat.le_refl _)
  have hge : s.ahead.length ≤ t.ahead.length :=
    (hlength _ (Nat.le_trans hle hend)).1 (Nat.le_refl _)
  refine eq_of_ahead (List.ext_getElem (Nat.le_antisymm hle hge) fun k hk hk' => ?_) ?_
  · have hget := h k (by omega)
    simpa [get, hk, hk'] using hget
  · have hget := h s.ahead.length hend
    simpa [get, Nat.le_antisymm hle hge] using hget

end TokenStream

namespace Parser

theorem Precedes.stream_eq {p q : Parser} (h : p.Precedes q) :
    q.stream = p.stream.advanceBy (p.tokensLeft - q.tokensLeft) :=
  TokenStream.eq_advanceBy_of_suffix h.ahead h.final

/-! ## Two runs abreast -/

/--
The runs from `start` and `start'` have done the same up to `p` and `q`, and have moved on by the same
number of tokens, by not more than `last` if their streams differ anywhere.
-/
structure Abreast (last : Nat) (start start' p q : Parser) : Prop where
  stream : ∃ n, p.stream = start.stream.advanceBy n ∧ q.stream = start'.stream.advanceBy n ∧
    (n ≤ last ∨ start'.stream = start.stream)
  options : q.options = p.options
  depth : q.depth = p.depth
  recorded : ∃ added, p.recorded = added ++ start.recorded ∧ q.recorded = added ++ start'.recorded
  journal : ∃ added, p.journal = added ++ start.journal ∧ q.journal = added ++ start'.journal

namespace Abreast

variable {last : Nat} {start start' p q : Parser}

theorem here (hoptions : start'.options = start.options) (hdepth : start'.depth = start.depth) :
    Abreast last start start' start start' :=
  ⟨⟨0, rfl, rfl, .inl (Nat.zero_le _)⟩, hoptions, hdepth, ⟨[], rfl, rfl⟩, ⟨[], rfl, rfl⟩⟩

theorem recordAt (h : Abreast last start start' p q) (fault : Fault) (position : Position) :
    Abreast last start start' (p.recordAt fault position) (q.recordAt fault position) := by
  obtain ⟨errors, hp, hq⟩ := h.recorded
  obtain ⟨events, hp', hq'⟩ := h.journal
  exact ⟨h.stream, h.options, h.depth, ⟨_ :: errors, congrArg _ hp, congrArg _ hq⟩,
    ⟨_ :: events, congrArg _ hp', congrArg _ hq'⟩⟩

section
variable (hagree : start.stream.AgreesTo (last + 1) start'.stream)
include hagree

theorem current_eq (h : Abreast last start start' p q) : q.current = p.current := by
  obtain ⟨n, hp, hq, hn | hsame⟩ := h.stream
  · rw [current, current, hp, hq, TokenStream.current_advanceBy, TokenStream.current_advanceBy,
      hagree n (Nat.le_succ_of_le hn)]
  · rw [current, current, hp, hq, hsame]

theorem peek_eq (h : Abreast last start start' p q) : q.peek = p.peek := by
  obtain ⟨n, hp, hq, hn | hsame⟩ := h.stream
  · rw [peek, peek, hp, hq, TokenStream.peek_advanceBy, TokenStream.peek_advanceBy,
      hagree (n + 1) (Nat.succ_le_succ hn)]
  · rw [peek, peek, hp, hq, hsame]

/-- Behind `last` tokens, the first run moves on to what nothing is known about. -/
theorem advance (h : Abreast last start start' p q) :
    Abreast last start start' p.advance q.advance ∨
      p.advance.tokensLeft < start.tokensLeft - last := by
  obtain ⟨n, hp, hq, hn⟩ := h.stream
  have hnext (hn : n + 1 ≤ last ∨ start'.stream = start.stream) :
      Abreast last start start' p.advance q.advance := by
    refine ⟨⟨n + 1, ?_, ?_, hn⟩, h.options, h.depth, h.recorded, h.journal⟩
    · rw [← TokenStream.advanceBy_advanceBy, ← hp]
      rfl
    · rw [← TokenStream.advanceBy_advanceBy, ← hq]
      rfl
  rcases hn with hn | hsame
  · by_cases hlt : n + 1 ≤ last
    · exact .inl (hnext (.inl hlt))
    · by_cases hend : start.stream.ahead.length ≤ last + 1
      · exact .inl (hnext (.inr (hagree.eq_of_le hend)))
      · -- there is a token behind the last one, and the cursor comes to it
        have hleft : p.tokensLeft = start.tokensLeft - n := by
          rw [tokensLeft, hp, TokenStream.ahead_advanceBy, List.length_drop]
          rfl
        have hmore : last + 1 < start.tokensLeft := Nat.lt_of_not_le hend
        rw [tokensLeft_advance]
        omega
  · exact .inl (hnext (.inr hsame))

/-- Where the first run stands behind `last` tokens, so does the second one. -/
theorem stream_eq (h : Abreast last start start' p q)
    (hp : p.stream = start.stream.advanceBy last) : q.stream = start'.stream.advanceBy last := by
  obtain ⟨n, hpn, hq, hn⟩ := h.stream
  have hsame (hsame : start'.stream = start.stream) :
      q.stream = start'.stream.advanceBy last := by rw [hq, hsame, ← hpn, hp]
  rcases hn with hn | hn
  · -- a cursor that is less far there is at the end of the source
    have hahead := congrArg (fun s => s.ahead.length) (hpn.symm.trans hp)
    simp only [TokenStream.ahead_advanceBy, List.length_drop] at hahead
    by_cases hlast : n = last
    · rw [hq, hlast]
    · exact hsame (hagree.eq_of_le (by omega))
  · exact hsame hn

end

end Abreast

end Parser

/-- Runs on streams that agree up to the token behind the one with the number `last`. -/
def Coupling.lookahead (last : Nat) (start start' : Parser) : Coupling where
  related := Parser.Abreast last start start'
  parted p _ := p.tokensLeft < start.tokensLeft - last

section
variable {last : Nat} {start start' p q : Parser}

theorem agrees_advance_lookahead {α : Type} {a : α}
    (hagree : start.stream.AgreesTo (last + 1) start'.stream)
    (h : Parser.Abreast last start start' p q) :
    (Coupling.lookahead last start start').Agrees (some a, p.advance) (some a, q.advance) :=
  (h.advance hagree).imp_left fun h => ⟨rfl, h⟩

/-- Also where it is required, a semicolon is the lookahead or missed at it. -/
theorem agrees_terminator_lookahead (hagree : start.stream.AgreesTo (last + 1) start'.stream)
    (h : Parser.Abreast last start start' p q) :
    (Coupling.lookahead last start start').Agrees (Rule.terminator p) (Rule.terminator q) := by
  have hp : Rule.terminator p = (if p.options.requireSemicolons then expect .semicolon
    else update (Parser.skip .semicolon)) p := rfl
  have hq : Rule.terminator q = (if p.options.requireSemicolons then expect .semicolon
    else update (Parser.skip .semicolon)) q := by rw [← h.options]; rfl
  rw [hp, hq]
  by_cases hr : p.options.requireSemicolons = true
  · rw [if_pos hr, expect, expect, h.peek_eq hagree]
    by_cases hk : p.peek.kind = .semicolon
    · rw [if_pos hk, if_pos hk]
      exact agrees_advance_lookahead hagree h
    · rw [if_neg hk, if_neg hk]
      exact .inl ⟨rfl, h.recordAt _ _⟩
  · rw [if_neg hr, update, update, Parser.skip, Parser.skip, h.peek_eq hagree]
    by_cases hk : p.peek.kind = .semicolon
    · rw [if_pos hk, if_pos hk]
      exact agrees_advance_lookahead hagree h
    · rw [if_neg hk, if_neg hk]
      exact .inl ⟨rfl, h⟩

theorem lawful_lookahead (hagree : start.stream.AgreesTo (last + 1) start'.stream) :
    (Coupling.lookahead last start start').Lawful where
  current h := h.current_eq hagree
  peek h := h.peek_eq hagree
  depth h := h.depth
  withDepth _ h := { h with depth := rfl }
  recordAt position _ h := h.recordAt _ position
  advance h := h.advance hagree
  terminator h := agrees_terminator_lookahead hagree h
  parted h hp _ := Nat.lt_of_le_of_lt hp.tokensLeft_le h
  parted_leave h := h

end

/-! ## Near-sighted steps -/

namespace Step

variable {α : Type}

/-- The step does the same at `q` as at `p`, and moves on by `i` tokens there. -/
structure SameRun (m : Step α) (i : Nat) (p q : Parser) : Prop where
  result : (m q).1 = (m p).1
  stream : (m q).2.stream = q.stream.advanceBy i
  current : (m q).2.current = (m p).2.current
  peek : (m q).2.peek = (m p).2.peek
  errors : ∃ added, (m p).2.errors = p.errors ++ added ∧ (m q).2.errors = q.errors ++ added
  log : ∃ added, (m p).2.log = p.log ++ added ∧ (m q).2.log = q.log ++ added

/--
Each run of the step moves on by some number of tokens, and does not depend on anything behind the
lookahead that it ends with.
-/
structure NearSighted (m : Step α) : Prop where
  moves_on (p : Parser) : ∃ i, (m p).2.stream = p.stream.advanceBy i
  same_run {p q : Parser} {i : Nat} : q.options = p.options → q.depth = p.depth →
    (m p).2.stream = p.stream.advanceBy i → (∀ k ≤ i + 1, q.stream.get k = p.stream.get k) →
    m.SameRun i p q

theorem reverse_of_added {β : Type} {xs ys zs ws : List β}
    (h : ∃ added, xs = added ++ ys ∧ zs = added ++ ws) :
    ∃ added, xs.reverse = ys.reverse ++ added ∧ zs.reverse = ws.reverse ++ added := by
  obtain ⟨added, rfl, rfl⟩ := h
  exact ⟨added.reverse, List.reverse_append, List.reverse_append⟩

theorem nearSighted_of_coupled {m : Step α}
    (h : ∀ {last : Nat} {start start' : Parser}, (Coupling.lookahead last start start').Lawful →
      (Coupling.lookahead last start start').Coupled m) : m.NearSighted := by
  refine ⟨fun p => ?_, fun {p q i} hoptions hdepth hstream hagree => ?_⟩
  · have hlawful : (Coupling.lookahead 0 p p).Lawful := lawful_lookahead fun _ _ => rfl
    exact ⟨_, ((h hlawful).steady.precedes p).stream_eq⟩
  rcases (h (lawful_lookahead hagree)).agrees (.here hoptions hdepth) with ⟨hresult, hend⟩ | hparted
  · exact ⟨hresult, hend.stream_eq hagree hstream, hend.current_eq hagree, hend.peek_eq hagree,
      reverse_of_added hend.recorded, reverse_of_added hend.journal⟩
  · -- runs only part behind more tokens than this one has moved on by
    have hleft : (m p).2.tokensLeft = p.tokensLeft - i := by
      rw [Parser.tokensLeft, hstream, TokenStream.ahead_advanceBy, List.length_drop]
      rfl
    exact absurd hleft (Nat.ne_of_lt hparted)

end Step

/-- Nothing behind the lookahead where they end has an influence on the rules. -/
theorem nearSighted_statement_block_expression :
    Parser.statement.NearSighted ∧ (always Parser.block).NearSighted ∧
      ∀ power, (Parser.expression power).NearSighted :=
  ⟨nearSighted_of_coupled fun L => L.coupled_statement (L.coupled_expressionWithin _),
    nearSighted_of_coupled fun L => L.coupled_block (L.coupled_expressionWithin _),
    fun power => nearSighted_of_coupled fun L => L.coupled_expressionWithin _ power⟩

/-- A statement that fails in front of `b`, whatever comes behind `b`. -/
theorem nearSighted_in_front_of_b :
    let p := Parser.opened "a(; b + 1" none {}
    let q := Parser.opened "a(; b @ \x7b" none {}
    (∀ k ≤ 3, q.stream.get k = p.stream.get k) ∧ q.stream.get 4 ≠ p.stream.get 4 ∧
      Parser.statement.SameRun 2 p q := by
  intro p q
  have hagree : ∀ k ≤ 3, q.stream.get k = p.stream.get k := by decide +kernel
  have hstream : (Parser.statement p).2.stream = p.stream.advanceBy 2 :=
    TokenStream.eq_of_ahead (by decide +kernel) (by decide +kernel)
  exact ⟨hagree, by decide +kernel, nearSighted_statement_block_expression.1.same_run
    (Eq.refl ({} : Options)) (Eq.refl 0) hstream hagree⟩

end ExprLang
