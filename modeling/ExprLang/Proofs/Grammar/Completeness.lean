import ExprLang.Proofs.Grammar.Kinds
import ExprLang.Proofs.Token.Spelling

/-!
# What is derived is read

Kinds that the grammar of `Fits` derives in any way are read without errors, if no number is too
large and no expression too deep. The parser takes as much as it can at every place, so it may not
follow the derivation it is given, but what it has left is always something that `Continues` where
the derivation did. A run is accepted (`Step.Accepts`) if it is clean or has recorded that
expressions are nested too deep, in which case nothing is said about the rest of it. Main
statement (`errors_eq_nil_of_fits`): a derivable source without such an error has no error.
-/

set_option autoImplicit false

namespace ExprLang

open Step Rule Grammar

namespace Parser

variable {p q : Parser} {k : Kind} {ks : List Kind} {strict : Bool}

/-- It was recorded that expressions are nested too deep. -/
def TooDeep (p : Parser) : Prop := ∃ d ∈ p.recorded, ∃ limit, d.fault = .nestingTooDeep limit

theorem TooDeep.precedes (h : p.TooDeep) (hpq : p.Precedes q) : q.TooDeep := by
  obtain ⟨d, hd, hf⟩ := h
  exact ⟨d, hpq.recorded.subset hd, hf⟩

/-- The kinds from the current token on. -/
def kinds (p : Parser) : List Kind := p.ahead.map Token.kind

/-- The kinds behind the current token. -/
def restKinds (p : Parser) : List Kind := p.rest.map Token.kind

theorem kinds_advance (p : Parser) : p.advance.kinds = p.restKinds := rfl

theorem kind_current (p : Parser) : p.current.kind = p.kinds.headD .eof := by
  unfold kinds
  cases h : p.ahead with
  | nil => exact kind_current_of_ahead_nil h
  | cons t ts => rw [(current_of_ahead h).1]; rfl

theorem kind_peek (p : Parser) : p.peek.kind = p.restKinds.headD .eof := kind_current p.advance

theorem current_of_kinds (h : p.kinds = k :: ks) : p.current.kind = k ∧ p.restKinds = ks := by
  obtain ⟨t, ts, ha, rfl, rfl⟩ := List.map_eq_cons_iff.1 h
  obtain ⟨hc, hr⟩ := current_of_ahead ha
  exact ⟨by rw [hc], by rw [restKinds, hr]⟩

theorem peek_of_restKinds (h : p.restKinds = k :: ks) :
    p.peek.kind = k ∧ p.advance.restKinds = ks := current_of_kinds (p := p.advance) h

/-- The parser has the choice `strict`, and all numbers ahead are small enough. -/
structure Ready (strict : Bool) (p : Parser) : Prop where
  options : p.options.requireSemicolons = strict
  numbers : ∀ t ∈ p.ahead, t.kind = .integer → (Text.readInt64? t.literal.toList).isSome = true

theorem Ready.precedes (h : p.Ready strict) (hpq : p.Precedes q) : q.Ready strict :=
  ⟨by rw [hpq.options, h.options], fun t ht => h.numbers t (hpq.ahead.subset ht)⟩

theorem Ready.advance (h : p.Ready strict) : p.advance.Ready strict :=
  h.precedes (precedes_advance p)

end Parser

/-- The run of the step is clean and ends with `Q`, or expressions are nested too deep in it. -/
def Step.Accepts {α : Type} (m : Step α) (p : Parser) (Q : α → Parser → Prop) : Prop :=
  ¬ (m p).2.TooDeep → ∃ a q, m.Clean p a q ∧ Q a q

namespace Step

variable {α β : Type} {p q : Parser} {Q Q' : α → Parser → Prop} {R : β → Parser → Prop}

theorem accepts_of_clean {m : Step α} {a : α} (h : m.Clean p a q) (hq : Q a q) : m.Accepts p Q :=
  fun _ => ⟨a, q, h, hq⟩

theorem accepts_pure {a : α} (h : Q a p) : (pure a : Step α).Accepts p Q :=
  accepts_of_clean (clean_pure_iff.2 ⟨rfl, rfl⟩) h

theorem Accepts.mono {m : Step α} (h : m.Accepts p Q) (hq : ∀ a q, m.Clean p a q → Q a q → Q' a q) :
    m.Accepts p Q' := by
  intro hd
  obtain ⟨a, q, hc, ha⟩ := h hd
  exact ⟨a, q, hc, hq a q hc ha⟩

theorem Accepts.bind {m : Step α} {f : α → Step β} (hf : ∀ a, (f a).Steady)
    (h : m.Accepts p Q) (k : ∀ a q, m.Clean p a q → Q a q → (f a).Accepts q R) :
    (m >>= f).Accepts p R := by
  intro hd
  rw [bind_apply] at hd
  -- the first step is not too deep either, since nothing recorded is lost
  have hm : ¬ (m p).2.TooDeep := by
    intro ht
    cases hr : m p with
    | mk result r =>
      rw [hr] at hd ht
      cases result with
      | none => exact hd ht
      | some a => exact hd (ht.precedes ((hf a).precedes r))
  obtain ⟨a, q, hc, ha⟩ := h hm
  rw [hc.1] at hd
  obtain ⟨b, r, hc', hb⟩ := k a q hc ha hd
  exact ⟨b, r, ⟨(bind_of_some hc.1).trans hc'.1, hc'.2.trans hc.2⟩, hb⟩

theorem Accepts.expect_bind {kind : Kind} {f : Unit → Step β} (hk : p.peek.kind = kind)
    (h : (f ()).Accepts p.advance R) : (expect kind >>= f).Accepts p R := by
  have he : (expect kind >>= f) p = f () p.advance :=
    bind_of_some (show expect kind p = (some (), p.advance) from if_pos hk)
  intro hd
  rw [he] at hd
  obtain ⟨b, r, hc, hb⟩ := h hd
  exact ⟨b, r, ⟨he.trans hc.1, hc.2⟩, hb⟩

theorem accepts_expect {kind : Kind} {R : Unit → Parser → Prop} (hk : p.peek.kind = kind)
    (h : R () p.advance) : (expect kind).Accepts p R :=
  accepts_of_clean (clean_expect_iff.2 ⟨hk, rfl⟩) h

theorem accepts_enclosed {step : Step α} (h : step.Accepts p.deepen Q)
    (hq : ∀ a q, Q a q → Q' a q.leave) : (enclosed step).Accepts p Q' := by
  intro hd
  by_cases hlt : p.depth < maxNestingDepth
  · rw [enclosed_of_lt hlt] at hd
    obtain ⟨a, q, hc, ha⟩ := h hd
    exact ⟨a, q.leave, clean_enclosed_iff.2 ⟨hlt, q, hc, rfl⟩, hq a q ha⟩
  · rw [enclosed_of_not_lt hlt] at hd
    exact absurd ⟨_, .head _, _, rfl⟩ hd

theorem accepts_current_bind {f : Token → Step β} (h : (f p.current).Accepts p R) :
    (current >>= f).Accepts p R := h

theorem accepts_peek_bind {f : Token → Step β} (h : (f p.peek).Accepts p R) :
    (peek >>= f).Accepts p R := h

theorem accepts_get_bind {f : Parser → Step β} (h : (f p).Accepts p R) :
    (get >>= f).Accepts p R := h

theorem accepts_advance_bind {f : Unit → Step β} (h : (f ()).Accepts p.advance R) :
    (advance >>= f).Accepts p R := h

theorem accepts_skip {kind : Kind} {R : Unit → Parser → Prop} (h : R () (p.skip kind)) :
    (update (Parser.skip kind)).Accepts p R :=
  accepts_of_clean ⟨rfl, Parser.recorded_skip kind p⟩ h

end Step

namespace Grammar

variable {strict required : Bool} {p q : Parser} {tail ks : List Kind}

/-! ## Statements -/

theorem Following.skip (htail : endsBlock (tail.headD .eof) = true)
    (h : Following strict required tail p.restKinds) :
    ∃ ss, Fits strict .statements ss ∧ (p.skip .semicolon).restKinds = ss ++ tail := by
  by_cases hk : p.peek.kind = .semicolon
  · cases hr : p.restKinds with
    | nil =>
      rw [Parser.kind_peek, hr] at hk
      cases hk
    | cons k ks =>
      obtain ⟨rfl, hks⟩ := Parser.peek_of_restKinds hr
      rw [hr, hk] at h
      rw [Parser.skip, if_pos hk, hks]
      exact h.statements_of_eq htail
  · rw [Parser.skip, if_neg hk]
    exact (h.statements_of_ne (by rwa [← Parser.kind_peek])).2

theorem accepts_terminator (htail : endsBlock (tail.headD .eof) = true) (hp : p.Ready strict)
    (h : Following strict strict tail p.restKinds) :
    terminator.Accepts p fun _ q =>
      ∃ ss, Fits strict .statements ss ∧ q.restKinds = ss ++ tail := by
  refine accepts_get_bind ?_
  rw [hp.options]
  cases strict with
  | false => exact accepts_skip (h.skip htail)
  | true =>
    obtain ⟨es, ss, he, hs, hks⟩ := h
    cases he with
    | semicolon =>
      obtain ⟨hk, hr⟩ := Parser.peek_of_restKinds hks
      exact accepts_expect hk ⟨ss, hs, hr⟩
    | omitted hr => cases hr

theorem greedy_closeParen (strict : Bool) (ks : List Kind) :
    Greedy strict (· = .closeParen :: ks) :=
  .of_lowest (fun _ h => by rw [h]; rfl) fun _ h => by rw [h]; exact Kind.noConfusion

theorem greedy_moreArguments (strict : Bool) (ks : List Kind) :
    Greedy strict fun ls => ∃ ms, Fits strict .moreArguments ms ∧ ls = ms ++ .closeParen :: ks := by
  have hcases {ls : List Kind} (h : ∃ ms, Fits strict .moreArguments ms ∧
      ls = ms ++ .closeParen :: ks) :
      ls.headD .eof = .closeParen ∨ ls.headD .eof = .comma := by
    obtain ⟨ms, hm, rfl⟩ := h
    cases hm with
    | noMoreArguments => exact .inl rfl
    | moreArguments => exact .inr rfl
  refine .of_lowest (fun ls h => ?_) fun ls h => ?_
  · rcases hcases h with h | h <;> rw [h] <;> rfl
  · rcases hcases h with h | h <;> rw [h] <;> decide

/-- What a step for expressions of a power accepts, and what it leaves. -/
def Reads (strict : Bool) (nested : Power → Step Expr) : Prop :=
  ∀ {power : Power} {p : Parser} {after : List Kind → Prop} {us ks : List Kind},
    Greedy strict after → p.Ready strict → p.kinds = us ++ ks → Fits strict .unary us →
    Continues strict after ks → (nested power).Accepts p fun _ q =>
      Continues strict after q.restKinds ∧ ¬ power < q.peek.kind.power

section
variable {nested : Power → Step Expr} (hn : ∀ power, (nested power).Steady)
  (hr : Reads strict nested)
include hr

theorem accepts_expression {after : List Kind → Prop} {es : List Kind} (hg : Greedy strict after)
    (hp : p.Ready strict) (hk : p.kinds = es ++ ks) (he : Fits strict .expression es)
    (ha : after ks) : (nested .lowest).Accepts p fun _ q => after q.restKinds := by
  cases he with
  | @expression us ops hu hops =>
    refine (hr hg hp (hk.trans (List.append_assoc _ _ _)) hu
      (Continues.of_operations hops (.stop ha))).mono ?_
    rintro _ q - ⟨hc, hpow⟩
    refine Greedy.after_of_continues hc ?_
    rw [← Parser.kind_peek]
    exact Power.rank_injective (Nat.le_zero.1 (Power.not_lt.1 hpow))

include hn

/-- What comes behind the keyword of a statement, from its value on. -/
theorem accepts_value {es ts ls : List Kind} {f : Expr → Stmt}
    (htail : endsBlock (tail.headD .eof) = true) (hp : p.Ready strict)
    (hk : p.kinds = es ++ (ts ++ (ls ++ tail))) (he : Fits strict .expression es)
    (ht : Ending strict ts) (hl : Fits strict .statements ls) :
    (nested .lowest >>= fun value => terminator >>= fun _ => pure (f value)).Accepts p fun _ q =>
      ∃ ss, Fits strict .statements ss ∧ q.restKinds = ss ++ tail := by
  have hfollowing : Following strict strict tail (ts ++ (ls ++ tail)) :=
    ⟨ts, ls, ht, hl, (List.append_assoc _ _ _).symm⟩
  refine Accepts.bind (fun _ => steady_terminator.bind fun _ => steady_pure _)
    (accepts_expression hr (greedy_following htail) hp hk he hfollowing) ?_
  intro value r hv hf
  refine Accepts.bind (fun _ => steady_pure _)
    (accepts_terminator htail (hp.precedes (hv.precedes (hn _))) hf) ?_
  exact fun _ q _ hq => accepts_pure hq

theorem accepts_statement {ss ls : List Kind} (htail : endsBlock (tail.headD .eof) = true)
    (hp : p.Ready strict) (hk : p.kinds = ss ++ ls ++ tail) (hs : Fits strict .statement ss)
    (hl : Fits strict .statements ls) : (Rule.statement nested).Accepts p fun _ q =>
      ∃ ss, Fits strict .statements ss ∧ q.restKinds = ss ++ tail := by
  refine accepts_current_bind ?_
  cases hs with
  | @binding es ts he ht =>
    obtain ⟨h1, hk⟩ := Parser.current_of_kinds (p := p) hk
    obtain ⟨h2, hk⟩ := Parser.peek_of_restKinds (p := p) hk
    obtain ⟨h3, hk⟩ := Parser.peek_of_restKinds (p := p.advance) hk
    rw [h1]
    refine accepts_current_bind (Accepts.expect_bind h2 (accepts_current_bind
      (Accepts.expect_bind h3 (accepts_advance_bind ?_))))
    have hkinds : p.advance.advance.advance.kinds = es ++ (ts ++ (ls ++ tail)) := by
      rw [Parser.kinds_advance, hk]
      simp
    exact accepts_value hn hr htail hp.advance.advance.advance hkinds he ht hl
  | @result es ts he ht =>
    obtain ⟨h1, hk⟩ := Parser.current_of_kinds (p := p) hk
    rw [h1]
    have hkinds : p.advance.kinds = es ++ (ts ++ (ls ++ tail)) := by
      rw [Parser.kinds_advance, hk]
      simp
    exact accepts_current_bind (accepts_advance_bind
      (accepts_value hn hr htail hp.advance hkinds he ht hl))
  | @expressionStatement es ts he ht =>
    have hrule : p.current.kind.statementRule? = none := by
      cases he with
      | expression hu =>
        obtain ⟨k, ls, rfl, hk'⟩ := hu.exists_prefixRule
        rw [(Parser.current_of_kinds (p := p) hk).1]
        exact Kind.statementRule?_eq_none hk'
    rw [hrule]
    refine accepts_current_bind (Accepts.bind (fun _ =>
      (steady_skip _).bind fun _ => steady_pure _) (accepts_expression hr
        (greedy_following htail) hp (by rw [hk]; simp) he
        ⟨ts, ls, ht, hl, rfl⟩) ?_)
    intro value r hv hf
    refine Accepts.bind (fun _ => steady_pure _) (accepts_skip
      (R := fun _ q => ∃ ss, Fits strict .statements ss ∧ q.restKinds = ss ++ tail)
      (hf.skip htail)) ?_
    exact fun _ q _ hq => accepts_pure hq

end

/-- A loop over statements goes through to the end of them. -/
theorem collected_of_fits {stop : Kind → Bool} {step : Step Stmt} (hs : step.Steady)
    (hstep : ∀ {p : Parser} {ss ls : List Kind}, p.Ready strict → p.kinds = ss ++ ls ++ tail →
      Fits strict .statement ss → Fits strict .statements ls → step.Accepts p fun _ q =>
        ∃ ss, Fits strict .statements ss ∧ q.restKinds = ss ++ tail)
    (hstart : ∀ k, k.startsStatement = true → stop k = false)
    (htail : stop (tail.headD .eof) = true) {fuel : Nat} {ss : List Kind}
    (hf : p.tokensLeft ≤ fuel) (hp : p.Ready strict) (hk : p.kinds = ss ++ tail)
    (hss : Fits strict .statements ss) (hd : ¬ (collect stop step fuel p).2.TooDeep) :
    ∃ as q, Collected stop step p as q ∧ q.kinds = tail := by
  induction fuel generalizing p ss with
  | zero =>
    have ha : p.ahead = [] := List.length_eq_zero_iff.1 (Nat.le_zero.1 hf)
    have hnil : p.kinds = [] := by rw [Parser.kinds, ha, List.map_nil]
    obtain ⟨rfl, rfl⟩ := List.append_eq_nil_iff.1 (hk.symm.trans hnil)
    exact ⟨[], p, .done (by rwa [Parser.kind_current_of_ahead_nil ha]), hnil⟩
  | succ fuel ih =>
    cases hss with
    | noStatements => exact ⟨[], p, .done (by rwa [Parser.kind_current, hk]), hk⟩
    | statements hs1 hs2 =>
      obtain ⟨k, ks, rfl, hk1⟩ := hs1.exists_startsStatement
      have hc : stop p.current.kind = false := by
        rw [(Parser.current_of_kinds (p := p) hk).1]
        exact hstart k hk1
      rw [collect_succ hc] at hd
      have hlate : Parser.Precedes (step p).2 (collect stop step fuel (step p).2.advance).2 :=
        (Parser.precedes_advance _).trans (precedes_collect hs _ _)
      obtain ⟨a, q, ha, ss, hss, hq⟩ := hstep hp hk hs1 hs2 fun h => hd (h.precedes hlate)
      rw [ha.1] at hd
      have hpq := ha.precedes hs
      have hleft : q.advance.tokensLeft ≤ fuel := by
        have := hpq.tokensLeft_le
        rw [Parser.tokensLeft_advance]
        omega
      obtain ⟨as, r, hr, htl⟩ := ih hleft (hp.precedes hpq).advance hq hss hd
      exact ⟨a :: as, r, .round hc ha hr, htl⟩

/-! ## Parameters -/

theorem namesRead_of_fits {ms : List Kind} (h : Fits strict .moreParameters ms)
    (hk : p.restKinds = .identifier :: ms ++ .closeParen :: ks) :
    ∃ names q, NamesRead p names q ∧ q.restKinds = ks := by
  generalize hm : Phrase.moreParameters = phrase at h
  induction h generalizing p with
  | noMoreParameters =>
    obtain ⟨hi, hk⟩ := Parser.peek_of_restKinds hk
    obtain ⟨hc, hk⟩ := Parser.peek_of_restKinds hk
    exact ⟨_, _, .last hi hc, hk⟩
  | moreParameters _ ih =>
    obtain ⟨hi, hk⟩ := Parser.peek_of_restKinds hk
    obtain ⟨hc, hk⟩ := Parser.peek_of_restKinds hk
    obtain ⟨names, q, hn, hq⟩ := ih hk hm
    exact ⟨_, q, .more hi hc hn, hq⟩
  | _ => cases hm

theorem accepts_parameters {ps : List Kind} (h : Fits strict .parameters ps)
    (hk : p.restKinds = ps ++ .closeParen :: ks) :
    parameters.Accepts p fun _ q => q.restKinds = ks := by
  cases h with
  | noParameters =>
    obtain ⟨hc, hk⟩ := Parser.peek_of_restKinds hk
    exact accepts_of_clean (clean_parameters_iff.2 (.inl ⟨hc, rfl, rfl⟩)) hk
  | parameters h =>
    obtain ⟨names, q, hn, hq⟩ := namesRead_of_fits h hk
    exact accepts_of_clean (clean_parameters_iff.2 (.inr hn)) hq

section
variable {nested : Power → Step Expr} (hn : ∀ power, (nested power).Steady)
  (hr : Reads strict nested)
include hn hr

/-! ## Blocks -/

theorem accepts_block {bs : List Kind} (hp : p.Ready strict) (hk : p.kinds = bs ++ ks)
    (hb : Fits strict .block bs) :
    (always (Rule.block nested)).Accepts p fun _ q => q.restKinds = ks := by
  cases hb with
  | @block ss hss =>
    obtain ⟨-, hk⟩ := Parser.current_of_kinds (p := p) hk
    intro hd
    have hdeep : ¬ (collect endsBlock (Rule.statement nested) p.advance.tokensLeft
        p.advance).2.TooDeep := by
      -- the error for a missing brace does not take others away
      intro h
      apply hd
      unfold always Rule.block
      dsimp only
      split
      · exact h.precedes (Parser.precedes_recordAt _ _ _)
      · exact h
    have hin : p.advance.kinds = ss ++ .closeCurly :: ks := by
      rw [Parser.kinds_advance, hk]
      simp
    obtain ⟨as, q, hc, hq⟩ := collected_of_fits (steady_statement hn)
      (accepts_statement hn hr rfl) (by intro k; cases k <;> decide) rfl (Nat.le_refl _)
      hp.advance hin hss hdeep
    obtain ⟨hc', hq'⟩ := Parser.current_of_kinds hq
    exact ⟨_, q, (clean_block_iff hn).2 ⟨as, hc, hc', rfl⟩, hq'⟩

omit hr in
theorem accepts_alternative_none (hk : p.restKinds = ks) (helse : ks.headD .eof ≠ .elseKeyword) :
    (alternative nested).Accepts p fun _ q => q.restKinds = ks := by
  have hpeek : p.peek.kind ≠ .elseKeyword := by rwa [Parser.kind_peek, hk]
  exact accepts_of_clean ((clean_alternative_iff hn).2 (.inl ⟨hpeek, rfl, rfl⟩)) hk

theorem accepts_alternative_some {bs : List Kind} (hp : p.Ready strict)
    (hk : p.restKinds = .elseKeyword :: bs ++ ks) (hb : Fits strict .block bs) :
    (alternative nested).Accepts p fun _ q => q.restKinds = ks := by
  obtain ⟨he, hk⟩ := Parser.peek_of_restKinds (p := p) hk
  have hc : p.advance.peek.kind = .openCurly := by
    cases hb
    exact (Parser.peek_of_restKinds (p := p.advance) hk).1
  refine accepts_peek_bind ?_
  rw [if_pos he]
  refine accepts_advance_bind (Accepts.expect_bind hc (Accepts.bind (fun _ => steady_pure _)
    (accepts_block hn hr hp.advance.advance hk hb) ?_))
  exact fun _ q _ hq => accepts_pure hq

/-! ## What starts an expression -/

omit hn in
theorem accepts_grouping {es : List Kind} (hp : p.Ready strict)
    (hk : p.kinds = .openParen :: es ++ .closeParen :: ks) (he : Fits strict .expression es) :
    (Rule.grouping nested).Accepts p fun _ q => q.restKinds = ks := by
  obtain ⟨-, hk⟩ := Parser.current_of_kinds (p := p) hk
  refine accepts_advance_bind (Accepts.bind (fun _ => (steady_expect _).bind fun _ =>
    steady_pure _) (accepts_expression hr (greedy_closeParen strict ks) hp.advance hk he rfl) ?_)
  intro e r _ hrest
  obtain ⟨hc, hks⟩ := Parser.peek_of_restKinds hrest
  exact Accepts.expect_bind hc (accepts_pure hks)

theorem accepts_conditional {es bs : List Kind} (as : List Kind) (hp : p.Ready strict)
    (hk : p.kinds = .ifKeyword :: .openParen :: es ++ .closeParen :: bs ++ (as ++ ks))
    (he : Fits strict .expression es) (hb : Fits strict .block bs)
    (ha : ∀ {q : Parser}, q.Ready strict → q.restKinds = as ++ ks →
      (alternative nested).Accepts q fun _ r => r.restKinds = ks) :
    (Rule.conditional nested).Accepts p fun _ q => q.restKinds = ks := by
  obtain ⟨-, hk⟩ := Parser.current_of_kinds (p := p) hk
  obtain ⟨ho, hk⟩ := Parser.peek_of_restKinds (p := p) hk
  refine accepts_current_bind (Accepts.expect_bind ho (accepts_advance_bind (Accepts.bind
    (fun _ => (steady_expect _).bind fun _ => (steady_expect _).bind fun _ =>
      (steady_block hn).bind fun _ => (steady_alternative hn).bind fun _ => steady_pure _)
    (accepts_expression hr (greedy_closeParen strict (bs ++ (as ++ ks))) hp.advance.advance
      (by rw [Parser.kinds_advance, hk]; simp) he rfl) ?_)))
  intro condition r hcond hrest
  have hpr := hp.advance.advance.precedes (hcond.precedes (hn _))
  obtain ⟨hc, hrest⟩ := Parser.peek_of_restKinds (p := r) hrest
  have hopen : r.advance.peek.kind = .openCurly := by
    cases hb
    exact (Parser.peek_of_restKinds (p := r.advance) hrest).1
  refine Accepts.expect_bind hc (Accepts.expect_bind hopen (Accepts.bind (fun _ =>
    (steady_alternative hn).bind fun _ => steady_pure _)
    (accepts_block hn hr hpr.advance.advance hrest hb) ?_))
  intro consequence s hblock hs
  refine Accepts.bind (fun _ => steady_pure _)
    (ha (hpr.advance.advance.precedes (hblock.precedes (steady_block hn))) hs) ?_
  exact fun _ q _ hq => accepts_pure hq

theorem accepts_function {ps bs : List Kind} (hp : p.Ready strict)
    (hk : p.kinds = .fnKeyword :: .openParen :: ps ++ .closeParen :: bs ++ ks)
    (hps : Fits strict .parameters ps) (hb : Fits strict .block bs) :
    (Rule.function nested).Accepts p fun _ q => q.restKinds = ks := by
  obtain ⟨-, hk⟩ := Parser.current_of_kinds (p := p) hk
  obtain ⟨ho, hk⟩ := Parser.peek_of_restKinds (p := p) hk
  have hin : p.advance.restKinds = ps ++ .closeParen :: (bs ++ ks) := by
    rw [hk]
    simp
  refine accepts_current_bind (Accepts.expect_bind ho (Accepts.bind (fun _ =>
    (steady_expect _).bind fun _ => (steady_block hn).bind fun _ => steady_pure _)
    (accepts_parameters hps hin) ?_))
  intro names r hnames hrest
  have hpr := hp.advance.precedes (hnames.precedes steady_parameters)
  have hopen : r.peek.kind = .openCurly := by
    cases hb
    exact (Parser.peek_of_restKinds (p := r) hrest).1
  refine Accepts.expect_bind hopen (Accepts.bind (fun _ => steady_pure _)
    (accepts_block hn hr hpr.advance hrest hb) ?_)
  exact fun _ q _ hq => accepts_pure hq

/-- A primary expression is read to its end, if no `else` comes behind it. -/
theorem accepts_primary {ps : List Kind} (hp : p.Ready strict) (hk : p.kinds = ps ++ ks)
    (hps : Fits strict .primary ps) (helse : ks.headD .eof ≠ .elseKeyword) :
    (start nested).Accepts p fun _ q => q.restKinds = ks := by
  have hcur {k : Kind} {ls : List Kind} (h : ps = k :: ls) : p.current.kind = k := by
    have hks : p.kinds = k :: (ls ++ ks) := by rw [hk, h]; rfl
    exact (Parser.current_of_kinds hks).1
  refine accepts_current_bind ?_
  cases hps with
  | identifier =>
    rw [hcur rfl]
    exact accepts_of_clean (clean_identifier_iff.2 ⟨rfl, rfl⟩) (Parser.current_of_kinds hk).2
  | integer =>
    obtain ⟨value, hvalue⟩ := Option.isSome_iff_exists.1
      (hp.numbers p.current (by
        rw [Parser.ahead_of_current (p := p) (by simp [hcur rfl])]
        exact .head _) (hcur rfl))
    rw [hcur rfl]
    exact accepts_of_clean (clean_integer_iff.2 ⟨value, hvalue, rfl, rfl⟩)
      (Parser.current_of_kinds hk).2
  | trueLiteral =>
    rw [hcur rfl]
    exact accepts_of_clean (clean_boolean_iff.2 ⟨rfl, rfl⟩) (Parser.current_of_kinds hk).2
  | falseLiteral =>
    rw [hcur rfl]
    exact accepts_of_clean (clean_boolean_iff.2 ⟨rfl, rfl⟩) (Parser.current_of_kinds hk).2
  | grouping he =>
    rw [hcur rfl]
    exact accepts_grouping hr hp (by rw [hk]; simp) he
  | conditional he hb =>
    rw [hcur rfl]
    exact accepts_conditional hn hr [] hp (by rw [hk]; simp) he hb
      fun _ hrest => accepts_alternative_none hn hrest helse
  | @conditionalElse es bs ms he hb hm =>
    rw [hcur rfl]
    exact accepts_conditional hn hr (.elseKeyword :: ms) hp (by rw [hk]; simp) he hb
      fun hq hrest => accepts_alternative_some hn hr hq hrest hm
  | function hps hb =>
    rw [hcur rfl]
    exact accepts_function hn hr hp (by rw [hk]) hps hb

theorem accepts_start {after : List Kind → Prop} {us : List Kind} (hg : Greedy strict after)
    (hp : p.Ready strict) (hk : p.kinds = us ++ ks) (hu : Fits strict .unary us)
    (hc : Continues strict after ks) :
    (start nested).Accepts p fun _ q => Continues strict after q.restKinds := by
  cases hu with
  | @unary op us hop hu =>
    obtain ⟨hcur, hk⟩ := Parser.current_of_kinds (p := p) hk
    refine accepts_current_bind ?_
    rw [hcur, show op.prefixRule? = some .unary from Kind.prefixRule?_eq_some_iff.2 hop]
    refine accepts_current_bind (accepts_advance_bind (Accepts.bind (fun _ => steady_pure _)
      (hr hg hp.advance hk hu hc) ?_))
    exact fun _ q _ hq => accepts_pure hq.1
  | @application ps cs hps hcs =>
    have hcont := Continues.of_calls hcs hc
    refine (accepts_primary hn hr hp (hk.trans (List.append_assoc _ _ _)) hps
      (hg.continues_ne_else hcont)).mono ?_
    intro _ q _ hq
    rwa [hq]

/-! ## What continues an expression -/

theorem accepts_argumentsWithin {fuel : Nat} {ms : List Kind} (hf : p.tokensLeft ≤ fuel)
    (hp : p.Ready strict) (hm : Fits strict .moreArguments ms)
    (hk : p.restKinds = ms ++ .closeParen :: ks) :
    (argumentsWithin nested fuel).Accepts p fun _ q => q.restKinds = ks := by
  induction fuel generalizing p ms with
  | zero =>
    have hnil : p.rest = [] := by
      rw [Parser.rest, List.length_eq_zero_iff.1 (Nat.le_zero.1 hf)]
      rfl
    rw [Parser.restKinds, hnil] at hk
    cases ms <;> cases hk
  | succ fuel ih =>
    refine accepts_peek_bind ?_
    cases hm with
    | noMoreArguments =>
      obtain ⟨hc, hk⟩ := Parser.peek_of_restKinds hk
      rw [hc]
      exact Accepts.expect_bind hc (accepts_pure hk)
    | @moreArguments es ms he hm =>
      obtain ⟨hc, hk⟩ := Parser.peek_of_restKinds hk
      rw [if_pos hc]
      refine accepts_advance_bind (accepts_advance_bind (Accepts.bind (fun _ =>
        (steady_argumentsWithin hn _).bind fun _ => steady_pure _)
        (accepts_expression hr (greedy_moreArguments strict ks) hp.advance.advance
          (by rw [Parser.kinds_advance, hk]; simp) he
          ⟨ms, hm, rfl⟩) ?_))
      rintro e r he ⟨ms, hm, hrest⟩
      have hpr := he.precedes (hn _)
      have hleft : r.tokensLeft ≤ fuel := by
        have := hpr.tokensLeft_le
        rw [Parser.tokensLeft_advance, Parser.tokensLeft_advance] at this
        omega
      refine Accepts.bind (fun _ => steady_pure _)
        (ih hleft (hp.advance.advance.precedes hpr) hm hrest) ?_
      exact fun _ q _ hq => accepts_pure hq

theorem accepts_arguments {as : List Kind} (hp : p.Ready strict) (ha : Fits strict .arguments as)
    (hk : p.restKinds = as ++ .closeParen :: ks) :
    (Rule.arguments nested).Accepts p fun _ q => q.restKinds = ks := by
  refine accepts_advance_bind (accepts_current_bind ?_)
  rw [Parser.current_advance]
  cases ha with
  | noArguments =>
    obtain ⟨hc, hk⟩ := Parser.peek_of_restKinds hk
    rw [if_pos hc]
    exact accepts_pure hk
  | @arguments es ms he hm =>
    have hne : p.peek.kind ≠ .closeParen := by
      cases he with
      | expression hu =>
        obtain ⟨k, ls, rfl, hk'⟩ := hu.exists_prefixRule
        rw [(Parser.peek_of_restKinds (p := p) hk).1]
        rintro rfl
        cases hk'
    rw [if_neg hne]
    refine Accepts.bind (fun _ => steady_get.bind fun _ => (steady_argumentsWithin hn _).bind
      fun _ => steady_pure _) (accepts_expression hr (greedy_moreArguments strict ks) hp.advance
        (by rw [Parser.kinds_advance, hk]; simp) he
        ⟨ms, hm, rfl⟩) ?_
    rintro e r he ⟨ms, hm, hrest⟩
    refine accepts_get_bind (Accepts.bind (fun _ => steady_pure _) (accepts_argumentsWithin hn hr
      (Nat.le_refl _) (hp.advance.precedes (he.precedes (hn _))) hm hrest) ?_)
    exact fun _ q _ hq => accepts_pure hq

/-- What looks like a call or an operation is read, also if the derivation had something else. -/
theorem accepts_continuedWithin {after : List Kind → Prop} {power : Power} {fuel : Nat}
    {left : Expr} (hg : Greedy strict after) (hf : p.tokensLeft ≤ fuel) (hp : p.Ready strict)
    (hc : Continues strict after p.restKinds) :
    (continuedWithin nested power fuel left).Accepts p fun _ q =>
      Continues strict after q.restKinds ∧ ¬ power < q.peek.kind.power := by
  induction fuel generalizing p left with
  | zero => exact accepts_pure ⟨hc, Parser.not_lt_power_of_tokensLeft (Nat.le_succ_of_le hf)⟩
  | succ fuel ih =>
    refine accepts_peek_bind ?_
    by_cases hlt : power < p.peek.kind.power
    · rw [if_pos hlt]
      have hlow : (p.restKinds.headD .eof).power ≠ .lowest := by
        rw [← Parser.kind_peek]
        intro h
        rw [h] at hlt
        exact Power.not_lt_lowest _ hlt
      have hloop {step : Step Expr} (hstep : step.Steady) (h : step.Accepts p.advance fun _ q =>
          Continues strict after q.restKinds) :
          (step >>= continuedWithin nested power fuel).Accepts p.advance fun _ q =>
            Continues strict after q.restKinds ∧ ¬ power < q.peek.kind.power := by
        refine Accepts.bind (fun _ => steady_continuedWithin hn _ _ _) h fun e q he hq => ?_
        have hpq := he.precedes hstep
        have hleft : q.tokensLeft ≤ fuel := by
          have := hpq.tokensLeft_le
          rw [Parser.tokensLeft_advance] at this
          omega
        exact ih hleft (hp.advance.precedes hpq) hq
      refine accepts_peek_bind ?_
      rcases hg.continues_merges hc hlow with ⟨as, ls, hk, ha, hl⟩ | ⟨op, us, ls, hk, hop, hu, hl⟩
      · obtain ⟨hpeek, hk⟩ := Parser.peek_of_restKinds (p := p) hk
        rw [hpeek]
        refine accepts_advance_bind (accepts_current_bind (hloop (steady_call hn _)
          (accepts_current_bind (Accepts.bind (fun _ => steady_pure _)
            (accepts_arguments hn hr hp.advance ha hk) ?_))))
        intro _ q _ hq
        refine accepts_pure ?_
        rwa [hq]
      · obtain ⟨hpeek, hk⟩ := Parser.peek_of_restKinds (p := p) hk
        rw [hpeek, (Kind.power_of_mem_binaryOperators hop).2.2]
        refine accepts_advance_bind (accepts_current_bind (hloop (steady_binary hn _ _)
          (accepts_current_bind (accepts_advance_bind (Accepts.bind (fun _ => steady_pure _)
            (hr hg hp.advance.advance hk hu hl) ?_)))))
        exact fun _ q _ hq => accepts_pure hq.1
    · rw [if_neg hlt]
      exact accepts_pure ⟨hc, hlt⟩

end

/-! ## Expressions, programs -/

theorem reads_expressionWithin (strict : Bool) (room : Nat) :
    Reads strict (Parser.expressionWithin room) := by
  induction room with
  | zero =>
    intro _ p _ _ _ _ _ _ _ _ hd
    exact absurd ⟨_, .head _, _, rfl⟩ hd
  | succ room ih =>
    intro power p after us ks hg hp hk hu hc
    have hn := Parser.steady_expressionWithin room
    have hdeep : p.deepen.Ready strict := ⟨hp.options, hp.numbers⟩
    refine accepts_enclosed ?_ fun _ _ h => h
    refine Accepts.bind (fun _ => steady_get.bind fun _ => steady_continuedWithin hn _ _ _)
      (accepts_start hn ih hg hdeep hk hu hc) ?_
    intro left r hl hrest
    exact accepts_get_bind (accepts_continuedWithin hn ih hg (Nat.le_refl _)
      (hdeep.precedes (hl.precedes (steady_start hn))) hrest)

theorem accepts_loggedStatement {ss ls : List Kind} (hp : p.Ready strict)
    (hk : p.kinds = ss ++ ls ++ []) (hs : Fits strict .statement ss)
    (hl : Fits strict .statements ls) : Parser.loggedStatement.Accepts p fun _ q =>
      ∃ ss, Fits strict .statements ss ∧ q.restKinds = ss ++ [] := by
  refine Accepts.bind (fun _ => (steady_of_update fun p => Parser.precedes_note _ p).bind
    fun _ => steady_pure _) (accepts_statement (Parser.steady_expressionWithin _)
      (reads_expressionWithin strict _) rfl hp hk hs hl) ?_
  exact fun _ q _ hq => accepts_of_clean ⟨rfl, rfl⟩ hq

/-- A source whose kinds can be derived is read without errors, unless it is nested too deep. -/
theorem errors_eq_nil_of_fits {source : String} {file : Option String} {options : Options}
    (hs : Fits options.requireSemicolons .statements
      ((tokenize source file).dropLast.map Token.kind))
    (hi : ∀ t ∈ tokenize source file, t.kind = .integer →
      Text.decimalValue t.literal.toList ≤ Text.maxInt64)
    (hd : ∀ d ∈ (parse source file options).errors, ∀ limit, d.fault ≠ .nestingTooDeep limit) :
    (parse source file options).errors = [] := by
  have hready : (Parser.opened source file options).Ready options.requireSemicolons := by
    refine ⟨rfl, fun t ht hk => ?_⟩
    have hnum : Text.isNumeral t.literal = true := by
      have := Parser.spelled_opened source file options t ht (by simp [hk])
      simpa [Token.isSpelled, hk, Kind.allowsSpelling] using this
    have hmem : t ∈ tokenize source file := by
      rw [← dropLast_tokenize source file options] at ht
      exact List.dropLast_subset _ ht
    rw [Text.isSome_readInt64? hnum]
    exact hi t hmem hk
  rw [dropLast_tokenize source file options] at hs
  have hdeep : ¬ (collect (· == .eof) Parser.loggedStatement
      (Parser.opened source file options).tokensLeft
      (Parser.opened source file options)).2.TooDeep := by
    rintro ⟨d, hmem, limit, hf⟩
    exact hd d (List.mem_reverse.2 hmem) limit hf
  obtain ⟨as, q, hc, -⟩ := collected_of_fits Parser.steady_loggedStatement
    accepts_loggedStatement (by intro k; cases k <;> decide) rfl (Nat.le_refl _) hready
    (List.append_nil _).symm hs hdeep
  rw [parse_eq_iff.2 ⟨q, hc⟩]

/-- Three statements that are read as one, a call less `c`. -/
theorem errors_eq_nil_of_fits_merged :
    Fits false .statements ((tokenize "a (b) -c" none).dropLast.map Token.kind) ∧
      (parse "a (b) -c" none {}).program.statements.length = 1 ∧
      (parse "a (b) -c" none {}).errors = [] := by
  have hks : (tokenize "a (b) -c" none).dropLast.map Token.kind =
      [.identifier, .openParen, .identifier, .closeParen, .dash, .identifier] := by decide +kernel
  have hname : Fits false .unary [.identifier] := .application .identifier .noCalls
  have ha : Fits false .statement [.identifier] :=
    .expressionStatement (.expression hname .noOperations) (.omitted rfl)
  have hb : Fits false .statement [.openParen, .identifier, .closeParen] :=
    .expressionStatement (.expression (.application (.grouping (.expression hname .noOperations))
      .noCalls) .noOperations) (.omitted rfl)
  have hc : Fits false .statement [.dash, .identifier] :=
    .expressionStatement (.expression (.unary (by decide) hname) .noOperations) (.omitted rfl)
  have hs : Fits false .statements ((tokenize "a (b) -c" none).dropLast.map Token.kind) := by
    rw [hks]
    exact .statements ha (.statements hb (.statements hc .noStatements))
  refine ⟨hs, by decide +kernel, errors_eq_nil_of_fits hs (by decide +kernel) ?_⟩
  have he : (parse "a (b) -c" none {}).errors = [] := by decide +kernel
  rw [he]
  exact fun _ h => nomatch h

end Grammar

end ExprLang
