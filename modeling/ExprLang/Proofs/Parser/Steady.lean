import ExprLang.Parser.Parse

/-!
# What every step keeps

`Precedes p q`: `q` is a later state of the parse that `p` is a state of, inside as many open
expressions. A step is `Steady` if it leads to such a state, however it ends, and never fails
without recording an error. Steps made of steady steps are steady (`Steady.bind`), so every rule is
steady over steady nested expressions, and with them the whole parser (`steady_expressionWithin`,
`steady_loggedStatement`).
-/

set_option autoImplicit false

namespace ExprLang

open ExprLang.Parser

/-- `q` comes behind `p` in the same parse, at the same depth (module doc). -/
structure Parser.Precedes (p q : Parser) : Prop where
  options : q.options = p.options
  depth : q.depth = p.depth
  final : q.stream.final = p.stream.final
  ahead : q.stream.ahead <:+ p.stream.ahead
  recorded : p.recorded <:+ q.recorded

namespace Parser.Precedes

variable {p q r : Parser}

theorem refl (p : Parser) : p.Precedes p :=
  ⟨rfl, rfl, rfl, List.suffix_refl _, List.suffix_refl _⟩

theorem trans (h : p.Precedes q) (h' : q.Precedes r) : p.Precedes r where
  options := h'.options.trans h.options
  depth := h'.depth.trans h.depth
  final := h'.final.trans h.final
  ahead := h'.ahead.trans h.ahead
  recorded := h.recorded.trans h'.recorded

theorem tokensLeft_le (h : p.Precedes q) : q.tokensLeft ≤ p.tokensLeft := h.ahead.length_le

end Parser.Precedes

namespace Parser

theorem precedes_advance (p : Parser) : p.Precedes p.advance :=
  ⟨rfl, rfl, rfl, List.tail_suffix _, List.suffix_refl _⟩

theorem precedes_skip (kind : Kind) (p : Parser) : p.Precedes (p.skip kind) := by
  unfold skip
  split
  · exact precedes_advance p
  · exact .refl p

theorem precedes_note (event : Event) (p : Parser) : p.Precedes (p.note event) :=
  ⟨rfl, rfl, rfl, List.suffix_refl _, List.suffix_refl _⟩

theorem precedes_recordAt (fault : Fault) (position : Position) (p : Parser) :
    p.Precedes (p.recordAt fault position) :=
  ⟨rfl, rfl, rfl, List.suffix_refl _, List.suffix_cons _ _⟩

theorem recorded_ne_recordAt (fault : Fault) (position : Position) (p : Parser) :
    p.recorded ≠ (p.recordAt fault position).recorded :=
  List.ne_cons_self

end Parser

/-- A step that goes forward at the depth it starts from, and that records an error if it fails. -/
structure Step.Steady {α : Type} (m : Step α) : Prop where
  precedes (p : Parser) : p.Precedes (m p).2
  records (p : Parser) : (m p).1 = none → p.recorded ≠ (m p).2.recorded

namespace Step

variable {α β : Type}

/-! ## Basic steps -/

theorem steady_of_update {f : Parser → Parser} (h : ∀ p : Parser, p.Precedes (f p)) :
    (update f).Steady :=
  ⟨h, fun _ hn => nomatch hn⟩

theorem steady_always {f : Parser → α × Parser} (h : ∀ p : Parser, p.Precedes (f p).2) :
    (always f).Steady :=
  ⟨h, fun _ hn => nomatch hn⟩

theorem steady_pure (a : α) : (pure a : Step α).Steady := ⟨.refl, fun _ hn => nomatch hn⟩

theorem steady_get : get.Steady := ⟨.refl, fun _ hn => nomatch hn⟩

theorem steady_current : current.Steady := ⟨.refl, fun _ hn => nomatch hn⟩

theorem steady_peek : peek.Steady := ⟨.refl, fun _ hn => nomatch hn⟩

theorem steady_advance : advance.Steady := steady_of_update precedes_advance

theorem steady_skip (kind : Kind) : (update (skip kind)).Steady :=
  steady_of_update (precedes_skip kind)

theorem steady_fail (fault : Fault) : (fail fault : Step α).Steady :=
  ⟨fun p => precedes_recordAt fault p.position p,
    fun p _ => recorded_ne_recordAt fault p.position p⟩

theorem steady_expect (kind : Kind) : (expect kind).Steady := by
  refine ⟨fun p => ?_, fun p hn => ?_⟩
  · unfold expect
    split
    · exact precedes_advance p
    · exact precedes_recordAt _ _ p
  · unfold expect at hn ⊢
    split at hn
    · cases hn
    · rw [if_neg ‹_›]
      exact recorded_ne_recordAt _ _ p

/-! ## Steps in sequence -/

/-- Steps in sequence only go on from where the first one stops. -/
theorem precedes_bind {m : Step α} {f : α → Step β} (hf : ∀ a, (f a).Steady) (p : Parser) :
    (m p).2.Precedes ((m >>= f) p).2 := by
  rw [bind_apply]
  rcases m p with ⟨_ | a, q⟩
  · exact .refl q
  · exact (hf a).precedes q

theorem Steady.bind {m : Step α} {f : α → Step β} (hm : m.Steady) (hf : ∀ a, (f a).Steady) :
    (m >>= f).Steady := by
  refine ⟨fun p => (hm.precedes p).trans (precedes_bind hf p), fun p hn => ?_⟩
  have h := hm.precedes p
  have hr := hm.records p
  rw [bind_apply] at hn ⊢
  split
  next a q hq =>
    rw [hq] at h hn
    -- what the first step kept, the second one only adds to
    intro he
    have hle := ((hf a).precedes q).recorded
    rw [← he] at hle
    exact (hf a).records q hn (h.recorded.eq_of_length_le hle.length_le ▸ he)
  next q hq =>
    rw [hq] at hr
    exact hr rfl

theorem enclosed_of_lt {step : Step α} {p : Parser} (h : p.depth < maxNestingDepth) :
    enclosed step p = ((step p.deepen).1, (step p.deepen).2.leave) := by
  have he : enter p = (some (), p.deepen) := if_pos h
  exact bind_of_some he

theorem enclosed_of_not_lt {step : Step α} {p : Parser} (h : ¬ p.depth < maxNestingDepth) :
    enclosed step p = (none, p.record (.nestingTooDeep maxNestingDepth)) := by
  have he : enter p = (none, p.record (.nestingTooDeep maxNestingDepth)) := if_neg h
  exact bind_of_none he

theorem steady_enclosed {step : Step α} (h : step.Steady) : (enclosed step).Steady := by
  refine ⟨fun p => ?_, fun p hn => ?_⟩
  · by_cases hd : p.depth < maxNestingDepth
    · have hs := h.precedes p.deepen
      rw [enclosed_of_lt hd]
      have hdepth : (step p.deepen).2.depth - 1 = p.depth := by rw [hs.depth]; rfl
      exact ⟨hs.options, hdepth, hs.final, hs.ahead, hs.recorded⟩
    · rw [enclosed_of_not_lt hd]
      exact precedes_recordAt _ _ p
  · by_cases hd : p.depth < maxNestingDepth
    · rw [enclosed_of_lt hd] at hn ⊢
      exact h.records p.deepen hn
    · rw [enclosed_of_not_lt hd]
      exact recorded_ne_recordAt _ _ p

theorem precedes_collect {stop : Kind → Bool} {step : Step α} (h : step.Steady) (fuel : Nat)
    (p : Parser) : p.Precedes (collect stop step fuel p).2 := by
  induction fuel generalizing p with
  | zero => exact .refl p
  | succ fuel ih =>
    unfold collect
    split
    · exact .refl p
    · exact ((h.precedes p).trans (precedes_advance _)).trans (ih _)

end Step

/-! ## The rules -/

namespace Rule

open Step

theorem steady_identifier : identifier.Steady := steady_current.bind fun _ => steady_pure _

theorem steady_integer : integer.Steady := by
  refine steady_current.bind fun token => ?_
  split
  · exact steady_pure _
  · exact (steady_of_update fun p => precedes_recordAt _ _ p).bind fun _ => steady_pure _

theorem steady_boolean : boolean.Steady := steady_current.bind fun _ => steady_pure _

theorem steady_terminator : terminator.Steady := by
  refine steady_get.bind fun p => ?_
  split
  · exact steady_expect _
  · exact steady_skip _

theorem steady_parametersWithin (fuel : Nat) : (parametersWithin fuel).Steady := by
  induction fuel with
  | zero => exact (steady_expect _).bind fun _ => steady_pure _
  | succ fuel ih =>
    refine (steady_expect _).bind fun _ => steady_current.bind fun name =>
      steady_advance.bind fun _ => steady_current.bind fun next => ?_
    split
    · exact ih.bind fun _ => steady_pure _
    · exact steady_pure _
    · exact steady_fail _

theorem steady_parameters : parameters.Steady := by
  refine steady_peek.bind fun token => ?_
  split
  · exact steady_advance.bind fun _ => steady_pure _
  · exact steady_get.bind fun _ => steady_parametersWithin _

section
variable {nested : Power → Step Expr} (hn : ∀ power, (nested power).Steady)
include hn

theorem steady_binding : (binding nested).Steady :=
  steady_current.bind fun _ => (steady_expect _).bind fun _ => steady_current.bind fun _ =>
    (steady_expect _).bind fun _ => steady_advance.bind fun _ => (hn _).bind fun _ =>
      steady_terminator.bind fun _ => steady_pure _

theorem steady_result : (result nested).Steady :=
  steady_current.bind fun _ => steady_advance.bind fun _ => (hn _).bind fun _ =>
    steady_terminator.bind fun _ => steady_pure _

theorem steady_expressionStatement : (expressionStatement nested).Steady :=
  steady_current.bind fun _ => (hn _).bind fun _ => (steady_skip _).bind fun _ => steady_pure _

theorem steady_keywordStatement (rule : StatementRule) : (keywordStatement nested rule).Steady := by
  cases rule with
  | binding => exact steady_binding hn
  | result => exact steady_result hn

theorem steady_statement : (statement nested).Steady := by
  refine steady_current.bind fun token => ?_
  split
  · exact steady_keywordStatement hn _
  · exact steady_expressionStatement hn

theorem precedes_block (p : Parser) : p.Precedes (block nested p).2 := by
  have h : p.Precedes (collect endsBlock (statement nested) p.advance.tokensLeft p.advance).2 :=
    (precedes_advance p).trans (precedes_collect (steady_statement hn) _ _)
  unfold block
  dsimp only
  split
  · exact h.trans (precedes_recordAt _ _ _)
  · exact h

theorem steady_block : (always (block nested)).Steady := steady_always (precedes_block hn)

theorem steady_unary : (unary nested).Steady :=
  steady_current.bind fun _ => steady_advance.bind fun _ => (hn _).bind fun _ => steady_pure _

theorem steady_grouping : (grouping nested).Steady :=
  steady_advance.bind fun _ => (hn _).bind fun _ => (steady_expect _).bind fun _ => steady_pure _

theorem steady_alternative : (alternative nested).Steady := by
  refine steady_peek.bind fun token => ?_
  split
  · exact steady_advance.bind fun _ => (steady_expect _).bind fun _ =>
      (steady_block hn).bind fun _ => steady_pure _
  · exact steady_pure _

theorem steady_conditional : (conditional nested).Steady :=
  steady_current.bind fun _ => (steady_expect _).bind fun _ => steady_advance.bind fun _ =>
    (hn _).bind fun _ => (steady_expect _).bind fun _ => (steady_expect _).bind fun _ =>
      (steady_block hn).bind fun _ => (steady_alternative hn).bind fun _ => steady_pure _

theorem steady_function : (function nested).Steady :=
  steady_current.bind fun _ => (steady_expect _).bind fun _ => steady_parameters.bind fun _ =>
    (steady_expect _).bind fun _ => (steady_block hn).bind fun _ => steady_pure _

theorem steady_starting (rule : PrefixRule) : (starting nested rule).Steady := by
  cases rule with
  | identifier => exact steady_identifier
  | integer => exact steady_integer
  | boolean => exact steady_boolean
  | unary => exact steady_unary hn
  | grouping => exact steady_grouping hn
  | conditional => exact steady_conditional hn
  | function => exact steady_function hn

theorem steady_binary (left : Expr) (power : Power) : (binary nested left power).Steady :=
  steady_current.bind fun _ => steady_advance.bind fun _ => (hn _).bind fun _ => steady_pure _

theorem steady_argumentsWithin (fuel : Nat) : (argumentsWithin nested fuel).Steady := by
  induction fuel with
  | zero => exact (steady_expect _).bind fun _ => steady_pure _
  | succ fuel ih =>
    refine steady_peek.bind fun token => ?_
    split
    · exact steady_advance.bind fun _ => steady_advance.bind fun _ => (hn _).bind fun _ =>
        ih.bind fun _ => steady_pure _
    · exact (steady_expect _).bind fun _ => steady_pure _

theorem steady_arguments : (arguments nested).Steady := by
  refine steady_advance.bind fun _ => steady_current.bind fun token => ?_
  split
  · exact steady_pure _
  · exact (hn _).bind fun _ => steady_get.bind fun _ => (steady_argumentsWithin hn _).bind fun _ =>
      steady_pure _

theorem steady_call (callee : Expr) : (call nested callee).Steady :=
  steady_current.bind fun _ => (steady_arguments hn).bind fun _ => steady_pure _

theorem steady_continuing (left : Expr) (power : Power) (rule : InfixRule) :
    (continuing nested left power rule).Steady := by
  cases rule with
  | binary => exact steady_binary hn left power
  | call => exact steady_call hn left

theorem steady_continuedWithin (power : Power) (fuel : Nat) (left : Expr) :
    (continuedWithin nested power fuel left).Steady := by
  induction fuel generalizing left with
  | zero => exact steady_pure _
  | succ fuel ih =>
    refine steady_peek.bind fun token => ?_
    split
    · refine steady_peek.bind fun _ => ?_
      split
      · exact steady_pure _
      · exact steady_advance.bind fun _ => steady_current.bind fun _ =>
          (steady_continuing hn _ _ _).bind fun _ => ih _
    · exact steady_pure _

theorem steady_start : (start nested).Steady := by
  refine steady_current.bind fun token => ?_
  split
  · exact steady_starting hn _
  · split
    · exact steady_fail _
    · exact steady_fail _

theorem steady_expression (power : Power) : (expression nested power).Steady :=
  (steady_start hn).bind fun _ => steady_get.bind fun _ => steady_continuedWithin hn _ _ _

end

end Rule

/-! ## The parser -/

namespace Parser

theorem steady_expressionWithin (room : Nat) (power : Power) :
    (expressionWithin room power).Steady := by
  induction room generalizing power with
  | zero => exact Step.steady_fail _
  | succ room ih => exact Step.steady_enclosed (Rule.steady_expression ih power)

theorem steady_loggedStatement : loggedStatement.Steady :=
  (Rule.steady_statement (steady_expressionWithin _)).bind fun _ =>
    (Step.steady_of_update fun p => precedes_note _ p).bind fun _ => Step.steady_pure _

end Parser

end ExprLang
