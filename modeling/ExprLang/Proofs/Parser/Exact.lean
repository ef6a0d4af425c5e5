import ExprLang.Proofs.Parser.CleanRules

/-!
# The exact condition of a clean run

`m.Exact p c Q`: the step `m` has a clean run from `p` exactly if the condition `c` holds, and then
it ends with `Q`. The condition of a sequence is that of both parts (`Exact.bind`), and the loops
are taken round by round, so the condition of a rule is found by going through its steps.
-/

set_option autoImplicit false

namespace ExprLang

open Step

/-- Clean runs from `p` exist exactly if `c` holds, and end with `Q`. -/
structure Step.Exact {α : Type} (m : Step α) (p : Parser) (c : Prop) (Q : α → Parser → Prop) :
    Prop where
  runs : (∃ a q, m.Clean p a q) ↔ c
  ends {a : α} {q : Parser} : m.Clean p a q → Q a q

namespace Step

variable {α β : Type} {p q : Parser} {c c' d : Prop} {m : Step α} {f : α → Step β}
  {Q Q' : α → Parser → Prop} {R : β → Parser → Prop}

theorem Clean.unique {a b : α} {r : Parser} (h : m.Clean p a q) (h' : m.Clean p b r) :
    a = b ∧ q = r := by
  have := h.1.symm.trans h'.1
  simpa using this

theorem exact_of_clean {a : α} (h : m.Clean p a q) (hq : Q a q) : m.Exact p True Q := by
  refine ⟨iff_of_true ⟨a, q, h⟩ trivial, fun h' => ?_⟩
  obtain ⟨rfl, rfl⟩ := h.unique h'
  exact hq

theorem exact_pure {a : α} (h : Q a p) : (pure a : Step α).Exact p True Q :=
  exact_of_clean (clean_pure_iff.2 ⟨rfl, rfl⟩) h

theorem exact_fail {fault : Fault} : (fail fault : Step α).Exact p False Q :=
  ⟨iff_of_false (fun ⟨_, _, h⟩ => not_clean_fail h) id, fun h => absurd h not_clean_fail⟩

theorem Exact.mono (h : m.Exact p c Q) (hq : ∀ a q, Q a q → Q' a q) : m.Exact p c Q' :=
  ⟨h.runs, fun hm => hq _ _ (h.ends hm)⟩

theorem Exact.congr (h : m.Exact p c Q) (hc : c ↔ c') : m.Exact p c' Q :=
  ⟨h.runs.trans hc, h.ends⟩

theorem Exact.of_true (h : m.Exact p True Q) (hc : c) : m.Exact p c Q :=
  h.congr (iff_of_true trivial hc)

/-- A step with the clean runs of another one. -/
theorem Exact.of_clean_iff {m' : Step α} {p' : Parser} (h : m'.Exact p' c Q)
    (hiff : ∀ a q, m.Clean p a q ↔ m'.Clean p' a q) : m.Exact p c Q :=
  ⟨by simpa only [hiff] using h.runs, fun ha => h.ends ((hiff _ _).1 ha)⟩

theorem Exact.bind (hm : m.Steady) (hf : ∀ a, (f a).Steady) (h : m.Exact p c Q)
    (k : ∀ a q, Q a q → (f a).Exact q d R) : (m >>= f).Exact p (c ∧ d) R := by
  refine ⟨⟨?_, ?_⟩, ?_⟩
  · rintro ⟨b, r, hb⟩
    obtain ⟨a, q, ha, hb⟩ := (clean_bind_iff hm hf).1 hb
    exact ⟨h.runs.1 ⟨a, q, ha⟩, (k a q (h.ends ha)).runs.1 ⟨b, r, hb⟩⟩
  · rintro ⟨hc, hd⟩
    obtain ⟨a, q, ha⟩ := h.runs.2 hc
    obtain ⟨b, r, hb⟩ := (k a q (h.ends ha)).runs.2 hd
    exact ⟨b, r, (clean_bind_iff hm hf).2 ⟨a, q, ha, hb⟩⟩
  · intro b r hb
    obtain ⟨a, q, ha, hb⟩ := (clean_bind_iff hm hf).1 hb
    exact (k a q (h.ends ha)).ends hb

/-- A sequence that always goes on behind its first part. -/
theorem Exact.bind_true (hm : m.Steady) (hf : ∀ a, (f a).Steady) (h : m.Exact p c Q)
    (k : ∀ a q, Q a q → (f a).Exact q True R) : (m >>= f).Exact p c R :=
  (h.bind hm hf k).congr (and_iff_left trivial)

theorem Exact.map {g : α → β} (hm : m.Steady) (h : m.Exact p c Q)
    (k : ∀ a q, Q a q → R (g a) q) : (m >>= fun a => pure (g a)).Exact p c R :=
  h.bind_true hm (fun _ => steady_pure _) fun a q ha => exact_pure (k a q ha)

theorem exact_current_bind {f : Token → Step β} (h : (f p.current).Exact p c R) :
    (current >>= f).Exact p c R := ⟨h.runs, h.ends⟩

theorem exact_peek_bind {f : Token → Step β} (h : (f p.peek).Exact p c R) :
    (peek >>= f).Exact p c R := ⟨h.runs, h.ends⟩

theorem exact_advance_bind {f : Unit → Step β} (h : (f ()).Exact p.advance c R) :
    (advance >>= f).Exact p c R := ⟨h.runs, h.ends⟩

theorem exact_skip_bind {kind : Kind} {f : Unit → Step β} (h : (f ()).Exact (p.skip kind) c R) :
    (update (Parser.skip kind) >>= f).Exact p c R :=
  h.of_clean_iff fun _ _ => clean_skip_bind

theorem exact_expect_bind {kind : Kind} {f : Unit → Step β} (hk : p.peek.kind = kind)
    (h : (f ()).Exact p.advance c R) : (expect kind >>= f).Exact p c R :=
  h.of_clean_iff fun _ _ => clean_expect_bind.trans (and_iff_right hk)

theorem exact_enclosed (h : m.Exact p.deepen c Q) (hq : ∀ a q, Q a q → Q' a q.leave) :
    (enclosed m).Exact p (p.depth < maxNestingDepth ∧ c) Q' := by
  refine ⟨⟨?_, ?_⟩, ?_⟩
  · rintro ⟨a, q, ha⟩
    obtain ⟨hd, r, hr, -⟩ := clean_enclosed_iff.1 ha
    exact ⟨hd, h.runs.1 ⟨a, r, hr⟩⟩
  · rintro ⟨hd, hc⟩
    obtain ⟨a, r, hr⟩ := h.runs.2 hc
    exact ⟨a, r.leave, clean_enclosed_iff.2 ⟨hd, r, hr, rfl⟩⟩
  · intro a q ha
    obtain ⟨-, r, hr, rfl⟩ := clean_enclosed_iff.1 ha
    exact hq a r (h.ends hr)

/-! ## Statements up to a token -/

/-- The whole loop over the results of a step. -/
def collected (stop : Kind → Bool) (step : Step α) : Step (List α) :=
  fun p => (some (collect stop step p.tokensLeft p).1, (collect stop step p.tokensLeft p).2)

section
variable {stop : Kind → Bool} {step : Step α} (hs : step.Steady) (hstop : stop .eof = true)
include hs hstop

theorem clean_collected_iff {as : List α} :
    (collected stop step).Clean p as q ↔ Collected stop step p as q := by
  rw [← collected_iff hs hstop (Nat.le_refl _)]
  refine and_congr_left fun _ => ?_
  simp [collected, Prod.ext_iff]

theorem exact_collected_done {Q : List α → Parser → Prop} (h : stop p.current.kind = true)
    (hq : Q [] p) : (collected stop step).Exact p True Q :=
  exact_of_clean ((clean_collected_iff hs hstop).2 (.done h)) hq

theorem exact_collected_round {Q : α → Parser → Prop} {R : List α → Parser → Prop}
    (h : stop p.current.kind = false) (ha : step.Exact p c Q)
    (k : ∀ a q, Q a q → (collected stop step).Exact q.advance d fun as r => R (a :: as) r) :
    (collected stop step).Exact p (c ∧ d) R := by
  have hiff {as : List α} {r : Parser} : (collected stop step).Clean p as r ↔
      ∃ a q bs, step.Clean p a q ∧ (collected stop step).Clean q.advance bs r ∧ as = a :: bs := by
    simp only [clean_collected_iff hs hstop]
    exact collected_iff_of_not_stop h
  refine ⟨⟨?_, ?_⟩, ?_⟩
  · rintro ⟨as, r, hc⟩
    obtain ⟨a, q, bs, hq, hbs, rfl⟩ := hiff.1 hc
    exact ⟨ha.runs.1 ⟨a, q, hq⟩, (k a q (ha.ends hq)).runs.1 ⟨bs, r, hbs⟩⟩
  · rintro ⟨hc, hd⟩
    obtain ⟨a, q, hq⟩ := ha.runs.2 hc
    obtain ⟨bs, r, hbs⟩ := (k a q (ha.ends hq)).runs.2 hd
    exact ⟨a :: bs, r, hiff.2 ⟨a, q, bs, hq, hbs, rfl⟩⟩
  · intro as r hc
    obtain ⟨a, q, bs, hq, hbs, rfl⟩ := hiff.1 hc
    exact (k a q (ha.ends hq)).ends hbs

end

end Step

namespace Rule

variable {p : Parser} {c d : Prop} {nested : Power → Step Expr}

/-! ## Expressions -/

theorem exact_start (rule : PrefixRule) {R : Expr → Parser → Prop}
    (hk : p.current.kind ∈ rule.kinds) (h : (starting nested rule).Exact p c R) :
    (start nested).Exact p c R := by
  refine exact_current_bind ?_
  rw [Kind.prefixRule?_eq_some_iff.2 hk]
  exact h

/-- The whole loop that continues an expression. -/
def continued (nested : Power → Step Expr) (power : Power) (left : Expr) : Step Expr := do
  continuedWithin nested power (← Step.get).tokensLeft left

theorem expression_eq (nested : Power → Step Expr) (power : Power) :
    expression nested power = start nested >>= continued nested power := rfl

section
variable (hn : ∀ power, (nested power).Steady)
include hn

theorem steady_continued (power : Power) (left : Expr) : (continued nested power left).Steady :=
  steady_get.bind fun _ => steady_continuedWithin hn _ _ _

theorem clean_continued_iff {power : Power} {left e : Expr} {q : Parser} :
    (continued nested power left).Clean p e q ↔ Continued nested power left p e q := by
  rw [continued, clean_get_bind, clean_continuedWithin_iff hn (Nat.le_refl _)]

theorem exact_continued_stop {power : Power} {left : Expr} {Q : Expr → Parser → Prop}
    (h : ¬ power < p.peek.kind.power) (hq : Q left p) :
    (continued nested power left).Exact p True Q :=
  exact_of_clean ((clean_continued_iff hn).2 (.stop h)) hq

theorem exact_continued_extend {power : Power} {left : Expr} (rule : InfixRule)
    {Q R : Expr → Parser → Prop} (h : power < p.peek.kind.power)
    (hrule : p.peek.kind.infixRule? = some rule)
    (he : (continuing nested left p.peek.kind.power rule).Exact p.advance c Q)
    (k : ∀ x q, Q x q → (continued nested power x).Exact q d R) :
    (continued nested power left).Exact p (c ∧ d) R := by
  have hboth := he.bind (steady_continuing hn _ _ _) (fun _ => steady_continued hn power _) k
  refine hboth.of_clean_iff fun e r => ?_
  rw [clean_continued_iff hn,
    clean_bind_iff (steady_continuing hn _ _ _) fun _ => steady_continued hn _ _]
  simp only [clean_continued_iff hn]
  exact continued_iff_of_lt h hrule

/-! ## Arguments -/

/-- The loop over the arguments behind the first one. -/
def moreArguments (nested : Power → Step Expr) : Step (List Expr) := do
  argumentsWithin nested (← Step.get).tokensLeft

theorem steady_moreArguments : (moreArguments nested).Steady :=
  steady_get.bind fun _ => steady_argumentsWithin hn _

theorem clean_moreArguments_iff {es : List Expr} {q : Parser} :
    (moreArguments nested).Clean p es q ↔ MoreArguments nested p es q := by
  rw [moreArguments, clean_get_bind, clean_argumentsWithin_iff hn (Nat.le_refl _)]

section
variable {Q : Expr → Parser → Prop} {R : List Expr → Parser → Prop}

theorem exact_moreArguments_close (h : p.peek.kind = .closeParen) (hr : R [] p.advance) :
    (moreArguments nested).Exact p True R :=
  exact_of_clean ((clean_moreArguments_iff hn).2 (.close h)) hr

theorem exact_moreArguments_more (h : p.peek.kind = .comma)
    (he : (nested .lowest).Exact p.advance.advance c Q)
    (k : ∀ e q, Q e q → (moreArguments nested).Exact q d fun es r => R (e :: es) r) :
    (moreArguments nested).Exact p (c ∧ d) R := by
  have hboth : (nested .lowest >>= fun e => moreArguments nested >>= fun es =>
      pure (e :: es)).Exact p.advance.advance (c ∧ d) R :=
    he.bind (hn _) (fun _ => (steady_moreArguments hn).bind fun _ => steady_pure _)
      fun e q hq => (k e q hq).map (steady_moreArguments hn) fun _ _ hr => hr
  refine hboth.of_clean_iff fun es r => ?_
  rw [clean_bind_iff (hn _) fun _ => (steady_moreArguments hn).bind fun _ => steady_pure _]
  simp only [clean_bind_pure_iff (steady_moreArguments hn), clean_moreArguments_iff hn]
  rw [moreArguments_iff_of_comma h]
  simp only [exists_and_left]

omit hn in
theorem exact_arguments_nil (h : p.peek.kind = .closeParen) (hr : R [] p.advance) :
    (arguments nested).Exact p True R := by
  refine exact_advance_bind (exact_current_bind ?_)
  rw [if_pos (show p.advance.current.kind = .closeParen from h)]
  exact exact_pure hr

theorem exact_arguments_cons (h : p.peek.kind ≠ .closeParen)
    (he : (nested .lowest).Exact p.advance c Q)
    (k : ∀ e q, Q e q → (moreArguments nested).Exact q d fun es r => R (e :: es) r) :
    (arguments nested).Exact p (c ∧ d) R := by
  refine exact_advance_bind (exact_current_bind ?_)
  rw [if_neg (show p.advance.current.kind ≠ .closeParen from h)]
  refine he.bind (hn _) (fun _ => steady_get.bind fun _ => (steady_argumentsWithin hn _).bind
    fun _ => steady_pure _) fun e q hq => ?_
  exact (k e q hq).map (steady_moreArguments hn) fun _ _ hr => hr

end

/-! ## Blocks -/

theorem exact_block {Q : List Stmt → Parser → Prop} {R : Block → Parser → Prop}
    (h : (collected endsBlock (statement nested)).Exact p.advance c Q)
    (hq : ∀ ss q, Q ss q → q.current.kind = .closeCurly ∧ R (.mk p.current ss) q) :
    (always (block nested)).Exact p c R := by
  have hs := steady_statement hn
  have hiff {b : Block} {q : Parser} : (always (block nested)).Clean p b q ↔
      ∃ ss, (collected endsBlock (statement nested)).Clean p.advance ss q ∧
        b = .mk p.current ss := by
    have hcol {ss : List Stmt} : (collected endsBlock (statement nested)).Clean p.advance ss q ↔
        Collected endsBlock (statement nested) p.advance ss q := clean_collected_iff hs rfl
    rw [clean_block_iff hn]
    simp only [hcol]
    refine exists_congr fun ss => and_congr_right fun hc => and_iff_right ?_
    exact (hq ss q (h.ends (hcol.2 hc))).1
  refine ⟨?_, ?_⟩
  · rw [← h.runs]
    constructor
    · rintro ⟨b, q, hb⟩
      obtain ⟨ss, hss, -⟩ := hiff.1 hb
      exact ⟨ss, q, hss⟩
    · rintro ⟨ss, q, hss⟩
      exact ⟨_, q, hiff.2 ⟨ss, hss, rfl⟩⟩
  · intro b q hb
    obtain ⟨ss, hss, rfl⟩ := hiff.1 hb
    exact (hq ss q (h.ends hss)).2

end

end Rule

end ExprLang
