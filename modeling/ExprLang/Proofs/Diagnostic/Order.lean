import ExprLang.Proofs.Diagnostic.Description

/-!
# The order of errors

Errors are recorded in the order of the source, and at most twice at one token: first as the token
that another kind was demanded in place of, when it is still behind the current one, and then for
what it is itself. So errors go up in `rank`, which counts two places for each byte. Only at the end
of the source can there be more of them, since the cursor does not move on from there.

`Ordered` keeps the rank of what is recorded below a limit that depends on the stage of the cursor.
Main statement (`errors_in_order`): the positions of the errors of a source do not decrease, they
are starts of tokens, and at each token that is not the end there is at most one error of each sort.
-/

set_option autoImplicit false

namespace ExprLang

open Cursor

/-- The token is not the one that was demanded. -/
def Fault.isUnexpected : Fault → Bool
  | unexpectedToken _ _ _ => true
  | _ => false

namespace Diagnostic

/-- The place of an error among the errors of a source (module doc). -/
def rank (d : Diagnostic) : Nat := 2 * d.position.offset + if d.fault.isUnexpected then 0 else 1

/-- The error `e` can be recorded behind `d`, in a source that ends at the byte `last`. -/
def Before (last : Nat) (d e : Diagnostic) : Prop :=
  d.rank < e.rank ∨ d.position.offset = last ∧ e.position.offset = last

theorem rank_of_isUnexpected {d : Diagnostic} (h : d.fault.isUnexpected = true) :
    d.rank = 2 * d.position.offset := by
  simp [rank, h]

theorem rank_of_not_isUnexpected {d : Diagnostic} (h : d.fault.isUnexpected = false) :
    d.rank = 2 * d.position.offset + 1 := by
  simp [rank, h]

theorem le_rank (d : Diagnostic) : 2 * d.position.offset ≤ d.rank := Nat.le_add_right _ _

theorem rank_le (d : Diagnostic) : d.rank ≤ 2 * d.position.offset + 1 := by
  unfold rank
  split <;> omega

variable {last : Nat} {d e : Diagnostic}

theorem Before.offset_le (h : d.Before last e) : d.position.offset ≤ e.position.offset := by
  have := d.le_rank
  have := e.rank_le
  rcases h with h | ⟨hd, he⟩ <;> omega

/-- At the end of the source, errors can be recorded in any order. -/
theorem before_of_offset_eq (hd : d.position.offset ≤ last) (he : e.position.offset = last) :
    d.Before last e := by
  unfold Before
  have := d.rank_le
  have := e.le_rank
  omega

/-- Two errors of one sort at one place are at the end of the source. -/
theorem not_before (hp : d.position = e.position) (hf : d.fault.isUnexpected = e.fault.isUnexpected)
    (hlast : d.position.offset ≠ last) : ¬ d.Before last e := by
  rintro (h | ⟨h, -⟩)
  · unfold rank at h
    rw [hp, hf] at h
    exact Nat.lt_irrefl _ h
  · exact hlast h

end Diagnostic

/-! ## Streams with tokens in order -/

namespace TokenStream

/-- Each token starts behind the start of the one before. -/
def Increasing (s : TokenStream) : Prop :=
  s.toList.Pairwise fun t u => t.span.start.offset < u.span.start.offset

variable {s : TokenStream} (h : s.Increasing)
include h

theorem Increasing.advance : s.advance.Increasing := h.sublist s.toList_advance_suffix.sublist

theorem Increasing.current_lt_peek (hk : s.current.kind ≠ .eof) :
    s.current.span.start.offset < s.peek.span.start.offset := by
  unfold Increasing at h
  rw [toList_advance hk, toList_eq_cons s.advance] at h
  exact (List.pairwise_cons.1 h).1 _ List.mem_cons_self

theorem Increasing.lt_final {t : Token} (ht : t ∈ s.ahead) :
    t.span.start.offset < s.final.span.start.offset :=
  (List.pairwise_append.1 h).2.2 t ht _ (List.mem_singleton_self _)

theorem Increasing.current_le_final : s.current.span.start.offset ≤ s.final.span.start.offset := by
  unfold current
  cases hs : s.ahead with
  | nil => exact Nat.le_refl _
  | cons t ts => exact Nat.le_of_lt (h.lt_final (by simp [hs]))

omit h in
theorem current_eq_final (hk : s.current.kind = .eof) : s.current = s.final := by
  simp [current, kind_current_eq_eof_iff.1 hk]

omit h in
theorem advance_eq_self (hk : s.current.kind = .eof) : s.advance = s := by
  have hnil := kind_current_eq_eof_iff.1 hk
  cases s
  subst hnil
  rfl

end TokenStream

/-! ## Moves of the cursor -/

/-- The highest rank of what is recorded where the cursor is, if that is not at the end. -/
def Cursor.limit (s : Stage) (p : Parser) : Nat :=
  match s with
  | .fresh => 2 * p.current.span.start.offset
  | .taken => 2 * p.current.span.start.offset + 1
  | .stuck => 2 * p.peek.span.start.offset

/-- What is recorded is in order and not above the limit, in a source that ends at `last`. -/
structure Ordered (last : Nat) (s : Stage) (p : Parser) : Prop where
  increasing : p.stream.Increasing
  final : p.stream.final.span.start.offset = last
  le_last : ∀ d ∈ p.recorded, d.position.offset ≤ last
  le_limit : p.current.kind ≠ .eof → ∀ d ∈ p.recorded, d.rank ≤ limit s p
  pairwise : p.recorded.Pairwise fun e d => d.Before last e

namespace Ordered

variable {last : Nat} {s s' : Stage} {p : Parser}

theorem mono (h : Ordered last s p)
    (hle : p.current.kind ≠ .eof → limit s p ≤ limit s' p) : Ordered last s' p :=
  ⟨h.increasing, h.final, h.le_last,
    fun hk d hd => Nat.le_trans (h.le_limit hk d hd) (hle hk), h.pairwise⟩

theorem take (h : Ordered last .fresh p) : Ordered last .taken p :=
  h.mono fun _ => Nat.le_succ _

/-- The cursor leaves the token behind that the last errors are about. -/
theorem advance (h : Ordered last s p) (hs : s ≠ .fresh) : Ordered last .fresh p.advance := by
  refine ⟨h.increasing.advance, h.final, h.le_last, fun hk d hd => ?_, h.pairwise⟩
  -- the limit binds only if the new token is not the end, and then the old one was not either
  have hne : p.current.kind ≠ .eof := by
    intro he
    have hself : p.advance.current = p.current :=
      congrArg TokenStream.current (TokenStream.advance_eq_self he)
    exact hk (hself ▸ he)
  have hlt : p.current.span.start.offset < p.peek.span.start.offset :=
    h.increasing.current_lt_peek hne
  have hle : d.rank ≤ limit s p := h.le_limit hne d hd
  change d.rank ≤ 2 * p.peek.span.start.offset
  cases s with
  | fresh => exact absurd rfl hs
  | taken => simp only [limit] at hle; omega
  | stuck => exact hle

/-- An error of a rank above all others and not above the new limit is recorded. -/
theorem recordAt (h : Ordered last s p) {e : Diagnostic} (hlast : e.position.offset ≤ last)
    (hend : p.current.kind = .eof → e.position.offset = last)
    (hlt : p.current.kind ≠ .eof → limit s p < e.rank)
    (hle : p.current.kind ≠ .eof → e.rank ≤ limit s' p) :
    Ordered last s' (p.recordAt e.fault e.position) := by
  refine ⟨h.increasing, h.final, List.forall_mem_cons.2 ⟨hlast, h.le_last⟩, fun hk => ?_,
    List.pairwise_cons.2 ⟨fun d hd => ?_, h.pairwise⟩⟩
  · have hup := Nat.le_of_lt (Nat.lt_of_lt_of_le (hlt hk) (hle hk))
    exact List.forall_mem_cons.2 ⟨hle hk, (h.mono fun _ => hup).le_limit hk⟩
  · -- at the end the limit says nothing, but there all further errors are at one place
    by_cases hk : p.current.kind = .eof
    · exact Diagnostic.before_of_offset_eq (h.le_last d hd) (hend hk)
    · exact .inl (Nat.lt_of_le_of_lt (h.le_limit hk d hd) (hlt hk))

/-- What a token is itself is recorded when the cursor has come to it. -/
theorem record (h : Ordered last .fresh p) {fault : Fault} (hf : fault.isUnexpected = false)
    (hs : s' ≠ .fresh) : Ordered last s' (p.record fault) := by
  have hrank : Diagnostic.rank ⟨fault, p.position⟩ = 2 * p.current.span.start.offset + 1 :=
    Diagnostic.rank_of_not_isUnexpected hf
  have hlast : p.current.span.start.offset ≤ last := h.final ▸ h.increasing.current_le_final
  refine h.recordAt (e := ⟨fault, p.position⟩) hlast (fun hk => ?_) (fun _ => ?_) fun hk => ?_
  · rw [← h.final, ← TokenStream.current_eq_final hk]
    rfl
  · rw [hrank]
    exact Nat.lt_succ_self _
  · have hlt : p.current.span.start.offset < p.peek.span.start.offset :=
      h.increasing.current_lt_peek hk
    rw [hrank]
    cases s' with
    | fresh => exact absurd rfl hs
    | taken => exact Nat.le_refl _
    | stuck => simp only [limit]; omega

/-- That a token is not the demanded one is recorded in front of it. -/
theorem record_peek (h : Ordered last .taken p) {fault : Fault} (hf : fault.isUnexpected = true) :
    Ordered last .stuck (p.recordAt fault p.peek.span.start) := by
  have hrank : Diagnostic.rank ⟨fault, p.peek.span.start⟩ = 2 * p.peek.span.start.offset :=
    Diagnostic.rank_of_isUnexpected hf
  have hlast : p.peek.span.start.offset ≤ last := h.final ▸ h.increasing.advance.current_le_final
  refine h.recordAt (e := ⟨fault, p.peek.span.start⟩) hlast (fun hk => ?_) (fun hk => ?_)
    fun _ => Nat.le_of_eq hrank
  · have hpeek : p.peek = p.stream.final := by
      rw [← TokenStream.current_eq_final hk]
      exact congrArg TokenStream.current (TokenStream.advance_eq_self hk)
    rw [hpeek, h.final]
  · have hlt : p.current.span.start.offset < p.peek.span.start.offset :=
      h.increasing.current_lt_peek hk
    rw [hrank]
    simp only [limit]
    omega

/-- At the end of the source anything is in order. -/
theorem record_end (h : Ordered last s p) {fault : Fault} (hk : p.current.kind = .eof) :
    Ordered last s' (p.record fault) := by
  have hlast : p.current.span.start.offset = last := by
    rw [← h.final, ← TokenStream.current_eq_final hk]
    rfl
  exact h.recordAt (e := ⟨fault, p.position⟩) (Nat.le_of_eq hlast) (fun _ => hlast)
    (absurd hk) (absurd hk)

theorem move {c d : Cursor} (h : c.Move d) (hc : Ordered last c.stage c.parser) :
    Ordered last d.stage d.parser := by
  cases h with
  | note => exact ⟨hc.increasing, hc.final, hc.le_last, hc.le_limit, hc.pairwise⟩
  | advance => exact hc.advance nofun
  | take | closeBlock => exact hc.take
  | number => exact hc.record rfl nofun
  | reject hr =>
    refine hc.record ?_ nofun
    cases hr <;> rfl
  | parameter => exact (hc.advance nofun).record rfl nofun
  | unexpected => exact hc.record_peek rfl
  | openBlock => exact (hc.advance nofun).take.advance nofun
  | unclosed hk => exact hc.record_end hk
  | resume => exact hc.advance nofun

end Ordered

/-! ## Sources -/

section
variable {source : String} {file : Option String} {options : Options}

/-- The byte at which the tokens of a source end. -/
def endOffset (source : String) (file : Option String) (options : Options) : Nat :=
  (Parser.opened source file options).stream.final.span.start.offset

/-- Each error of a source can be recorded behind the ones before. -/
theorem pairwise_errors (hlen : source.utf8ByteSize ≤ Position.maxOffset) :
    (parse source file options).errors.Pairwise
      (Diagnostic.Before (endOffset source file options)) := by
  have hstart : Ordered (endOffset source file options) .fresh (.opened source file options) :=
    ⟨pairwise_start_tokenize hlen, rfl, fun _ hd => absurd hd List.not_mem_nil,
      fun _ _ hd => absurd hd List.not_mem_nil, .nil⟩
  obtain ⟨q, hq, -, herrors⟩ := parse_keeps
    (I := fun c => Ordered (endOffset source file options) c.stage c.parser) Ordered.move hstart
  rw [herrors, Parser.errors, List.pairwise_reverse]
  exact hq.pairwise

/-- Of what cannot stand twice in a list, there is at most one. -/
theorem countP_le_one {α : Type} {R : α → α → Prop} {P : α → Bool} {l : List α}
    (h : l.Pairwise R) (hR : ∀ a b, P a = true → P b = true → ¬ R a b) : l.countP P ≤ 1 := by
  induction h with
  | nil => exact Nat.zero_le _
  | @cons a l ha _ ih =>
    by_cases hp : P a = true
    · have hnone : l.countP P = 0 :=
        List.countP_eq_zero.2 fun b hb hpb => hR a b hp hpb (ha b hb)
      simp [hp, hnone]
    · simpa [hp] using ih

/--
The errors of a source are in the order of its tokens, and at most two of them are at one token that
is not the end: that another token was demanded, and what is wrong with this one.
-/
theorem errors_in_order (hlen : source.utf8ByteSize ≤ Position.maxOffset) :
    (parse source file options).errors.Pairwise
        (fun d e => d.position.offset ≤ e.position.offset) ∧
      (∀ e ∈ (parse source file options).errors,
        ∃ t ∈ tokenize source file, e.position = t.span.start) ∧
      ∀ t ∈ tokenize source file, t.kind ≠ .eof →
        (parse source file options).errors.countP
            (fun e => e.position == t.span.start && e.fault.isUnexpected) ≤ 1 ∧
          (parse source file options).errors.countP
            (fun e => e.position == t.span.start && !e.fault.isUnexpected) ≤ 1 := by
  have hpairwise : (parse source file options).errors.Pairwise
      (Diagnostic.Before (endOffset source file options)) := pairwise_errors hlen
  refine ⟨hpairwise.imp Diagnostic.Before.offset_le, fun e he => ?_, fun t ht hk => ?_⟩
  · obtain ⟨front, t, behind, htokens, hposition, -⟩ := describes_errors he
    exact ⟨t, htokens ▸ List.mem_append_right _ List.mem_cons_self, hposition⟩
  · have hincreasing : (Parser.opened source file options).stream.Increasing :=
      pairwise_start_tokenize hlen
    have hlast : t.span.start.offset ≠ endOffset source file options :=
      Nat.ne_of_lt (hincreasing.lt_final (mem_ahead_opened ht hk))
    -- the two counts differ only in the sort of error, on which two errors of one count agree
    constructor <;> refine countP_le_one hpairwise fun d e hd he => ?_
    all_goals
      simp only [Bool.and_eq_true, beq_iff_eq, Bool.not_eq_true'] at hd he
      exact Diagnostic.not_before (hd.1.trans he.1.symm) (hd.2.trans he.2.symm) (hd.1 ▸ hlast)

end

/-- A stray character in the place of a name: the errors are one of each sort at one token. -/
theorem errors_in_order_stray :
    ("let @".utf8ByteSize ≤ Position.maxOffset ∧
      (parse "let @" none {}).errors =
        [⟨.unexpectedToken .identifier .illegal "@", ⟨4, "shell"⟩⟩,
          ⟨.illegalToken "@", ⟨4, "shell"⟩⟩]) ∧
    (parse "let @" none {}).errors.Pairwise (fun d e => d.position.offset ≤ e.position.offset) ∧
      (∀ e ∈ (parse "let @" none {}).errors,
        ∃ t ∈ tokenize "let @" none, e.position = t.span.start) ∧
      ∀ t ∈ tokenize "let @" none, t.kind ≠ .eof →
        (parse "let @" none {}).errors.countP
            (fun e => e.position == t.span.start && e.fault.isUnexpected) ≤ 1 ∧
          (parse "let @" none {}).errors.countP
            (fun e => e.position == t.span.start && !e.fault.isUnexpected) ≤ 1 := by
  have hlen : "let @".utf8ByteSize ≤ Position.maxOffset := by decide
  exact ⟨⟨hlen, by decide +kernel⟩, errors_in_order hlen⟩

end ExprLang
