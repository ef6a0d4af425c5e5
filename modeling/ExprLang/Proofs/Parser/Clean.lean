import ExprLang.Proofs.Parser.Steady

/-!
# Clean runs

A run of a step is clean if it succeeds and records nothing. Since errors are never taken back, a
run of steps in sequence is clean exactly if each of its parts is (`clean_bind_iff`), so what a
step does in a clean run can be read off the steps that it is made of.
-/

set_option autoImplicit false

namespace ExprLang

namespace Parser

/-- The tokens from the current one on, the end of the source not counted. -/
def ahead (p : Parser) : List Token := p.stream.ahead

/-- The tokens behind the current one, the end of the source not counted. -/
def rest (p : Parser) : List Token := p.stream.ahead.tail

variable {p : Parser} {t : Token} {ts : List Token}

theorem ahead_advance (p : Parser) : p.advance.ahead = p.rest := rfl

theorem current_advance (p : Parser) : p.advance.current = p.peek := rfl

theorem ahead_of_current (h : p.current.kind ≠ .eof) : p.ahead = p.current :: p.rest := by
  unfold ahead rest current TokenStream.current at *
  cases hs : p.stream.ahead with
  | nil => rw [hs] at h; exact absurd p.stream.final_eq_eof h
  | cons t ts => rfl

theorem rest_of_peek (h : p.peek.kind ≠ .eof) : p.rest = p.peek :: p.advance.rest :=
  ahead_of_current (p := p.advance) h

theorem current_of_ahead (h : p.ahead = t :: ts) : p.current = t ∧ p.rest = ts := by
  unfold ahead rest current TokenStream.current at *
  rw [h]
  exact ⟨rfl, rfl⟩

theorem kind_current_of_ahead_nil (h : p.ahead = []) : p.current.kind = .eof :=
  TokenStream.kind_current_eq_eof_iff.2 h

theorem tokensLeft_advance (p : Parser) : p.advance.tokensLeft = p.tokensLeft - 1 :=
  List.length_tail

/-- A token of the lowest power is behind the last token of a parse. -/
theorem not_lt_power_of_tokensLeft {power : Power} (h : p.tokensLeft ≤ 1) :
    ¬ power < p.peek.kind.power := by
  have hk : p.peek.kind = .eof := TokenStream.kind_peek_eq_eof_iff.2 h
  rw [hk]
  exact Power.not_lt_lowest _

theorem recorded_skip (kind : Kind) (p : Parser) : (p.skip kind).recorded = p.recorded := by
  unfold skip
  split <;> rfl

end Parser

/-- The step runs from `p` to `q` with the result `a` and records nothing on the way. -/
def Step.Clean {α : Type} (m : Step α) (p : Parser) (a : α) (q : Parser) : Prop :=
  m p = (some a, q) ∧ q.recorded = p.recorded

namespace Step

variable {α β : Type} {p q : Parser}

theorem Clean.precedes {m : Step α} {a : α} (h : m.Clean p a q) (hm : m.Steady) :
    p.Precedes q := by
  have := hm.precedes p
  rwa [h.1] at this

/-- A steady step that records nothing succeeds. -/
theorem Steady.clean_of_recorded {m : Step α} (hm : m.Steady)
    (h : (m p).2.recorded = p.recorded) : ∃ a, m.Clean p a (m p).2 := by
  cases ha : (m p).1 with
  | none => exact absurd h.symm (hm.records p ha)
  | some a => exact ⟨a, Prod.ext ha rfl, h⟩

/-! ## Sequences -/

theorem clean_bind_iff {m : Step α} {f : α → Step β} {b : β} (hm : m.Steady)
    (hf : ∀ a, (f a).Steady) :
    (m >>= f).Clean p b q ↔ ∃ a r, m.Clean p a r ∧ (f a).Clean r b q := by
  constructor
  · rintro ⟨h, hq⟩
    rw [bind_apply] at h
    cases hr : m p with
    | mk result r =>
      rw [hr] at h
      cases result with
      | none => cases h
      | some a =>
        have h1 := hm.precedes p
        have h2 := (hf a).precedes r
        rw [hr] at h1
        rw [show f a r = (some b, q) from h] at h2
        -- nothing between `p` and `q` means nothing on either side of `r`
        have hrp : p.recorded = r.recorded :=
          h1.recorded.eq_of_length_le (hq ▸ h2.recorded.length_le)
        exact ⟨a, r, ⟨hr, hrp.symm⟩, h, hq.trans hrp⟩
  · rintro ⟨a, r, ⟨h1, h1'⟩, h2, h2'⟩
    exact ⟨(bind_of_some h1).trans h2, h2'.trans h1'⟩

theorem clean_pure_iff {a b : α} : (pure a : Step α).Clean p b q ↔ b = a ∧ q = p := by
  constructor
  · rintro ⟨h, -⟩
    cases h
    exact ⟨rfl, rfl⟩
  · rintro ⟨rfl, rfl⟩
    exact ⟨rfl, rfl⟩

theorem clean_bind_pure_iff {m : Step α} {f : α → β} {b : β} (hm : m.Steady) :
    (m >>= fun a => pure (f a)).Clean p b q ↔ ∃ a, m.Clean p a q ∧ b = f a := by
  rw [clean_bind_iff hm fun _ => steady_pure _]
  constructor
  · rintro ⟨a, r, h, hb⟩
    obtain ⟨rfl, rfl⟩ := clean_pure_iff.1 hb
    exact ⟨a, h, rfl⟩
  · rintro ⟨a, h, rfl⟩
    exact ⟨a, q, h, clean_pure_iff.2 ⟨rfl, rfl⟩⟩

theorem clean_get_bind {f : Parser → Step β} {b : β} :
    (get >>= f).Clean p b q ↔ (f p).Clean p b q := Iff.rfl

theorem clean_current_bind {f : Token → Step β} {b : β} :
    (current >>= f).Clean p b q ↔ (f p.current).Clean p b q := Iff.rfl

theorem clean_peek_bind {f : Token → Step β} {b : β} :
    (peek >>= f).Clean p b q ↔ (f p.peek).Clean p b q := Iff.rfl

theorem clean_advance_bind {f : Unit → Step β} {b : β} :
    (advance >>= f).Clean p b q ↔ (f ()).Clean p.advance b q := Iff.rfl

theorem clean_skip_bind {kind : Kind} {f : Unit → Step β} {b : β} :
    (update (Parser.skip kind) >>= f).Clean p b q ↔ (f ()).Clean (p.skip kind) b q := by
  unfold Clean
  rw [Parser.recorded_skip]
  exact Iff.rfl

theorem clean_expect_iff {kind : Kind} {u : Unit} :
    (expect kind).Clean p u q ↔ p.peek.kind = kind ∧ q = p.advance := by
  constructor
  · rintro ⟨h, -⟩
    unfold expect at h
    split at h
    next hk =>
      cases h
      exact ⟨hk, rfl⟩
    next => cases h
  · rintro ⟨hk, rfl⟩
    exact ⟨if_pos hk, rfl⟩

theorem clean_expect_bind {kind : Kind} {f : Unit → Step β} {b : β} :
    (expect kind >>= f).Clean p b q ↔ p.peek.kind = kind ∧ (f ()).Clean p.advance b q := by
  by_cases hk : p.peek.kind = kind
  · have he : expect kind p = (some (), p.advance) := if_pos hk
    unfold Clean
    rw [bind_of_some he]
    exact ⟨fun h => ⟨hk, h⟩, fun h => h.2⟩
  · have he : (expect kind p).1 = none := by rw [expect, if_neg hk]
    have hb : (expect kind >>= f) p = (none, (expect kind p).2) := bind_of_none (Prod.ext he rfl)
    refine ⟨fun h => ?_, fun h => absurd h.1 hk⟩
    have := h.1
    rw [hb] at this
    cases this

theorem not_clean_fail {fault : Fault} {a : α} : ¬ (fail fault : Step α).Clean p a q :=
  fun h => nomatch h.1

theorem clean_enclosed_iff {step : Step α} {a : α} :
    (enclosed step).Clean p a q ↔
      p.depth < maxNestingDepth ∧ ∃ r, step.Clean p.deepen a r ∧ q = r.leave := by
  constructor
  · rintro ⟨h, hq⟩
    by_cases hd : p.depth < maxNestingDepth
    · rw [enclosed_of_lt hd, Prod.mk.injEq] at h
      obtain ⟨ha, rfl⟩ := h
      exact ⟨hd, _, ⟨Prod.ext ha rfl, hq⟩, rfl⟩
    · rw [enclosed_of_not_lt hd] at h
      cases h
  · rintro ⟨hd, r, ⟨h, hr⟩, rfl⟩
    exact ⟨by rw [enclosed_of_lt hd, h], hr⟩

end Step

end ExprLang
