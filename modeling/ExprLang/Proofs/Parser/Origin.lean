import ExprLang.Proofs.Parser.SpareFuel

/-!
# Where statements come from

A statement is read at its own token, however the reading goes on (`token_of_loggedStatement`). So
the tokens of statements that are collected were ahead (`token_mem_ahead`). A source without errors
starts with the first token of its first statement (`head_of_errors_eq_nil`).
-/

set_option autoImplicit false

namespace ExprLang

/-- What the step gives has the property, unless it fails. -/
def Step.Gives {α : Type} (m : Step α) (p : Parser) (P : α → Prop) : Prop :=
  ∀ a q, m p = (some a, q) → P a

theorem Parser.Precedes.rest {p q : Parser} (h : p.Precedes q) : q.rest <:+ p.rest := by
  obtain ⟨gone, hgone⟩ := h.ahead
  rw [Parser.rest, Parser.rest, ← hgone]
  cases gone with
  | nil => exact List.suffix_refl _
  | cons t ts => exact (List.tail_suffix _).trans (List.suffix_append ts _)

namespace Step

variable {α β : Type} {p : Parser}

theorem gives_pure {P : α → Prop} {a : α} (h : P a) : (pure a : Step α).Gives p P := by
  rintro b q hb
  cases hb
  exact h

theorem gives_bind {P : β → Prop} {m : Step α} {f : α → Step β}
    (h : ∀ a q, (f a).Gives q P) : (m >>= f).Gives p P := by
  intro b q hb
  rw [bind_apply] at hb
  split at hb
  next a r _ => exact h a r b q hb
  next => cases hb

theorem gives_current_bind {P : β → Prop} {f : Token → Step β}
    (h : (f p.current).Gives p P) : (current >>= f).Gives p P := h

/-! ## Loops -/

variable {stop : Kind → Bool} {step : Step α}

/-- A loop that goes through a round moves on. -/
theorem ahead_collectAll (hs : step.Steady) (hstop : stop .eof = true)
    (h : stop p.current.kind = false) : (collectAll stop step p).2.ahead <:+ p.rest := by
  rw [collectAll_round hs hstop h]
  exact (precedes_collectAll stop hs _).ahead.trans (hs.precedes p).rest

theorem mem_collectAll {step : Step Stmt} (hs : step.Steady) (hstop : stop .eof = true)
    (hstep : ∀ p, step.Gives p fun s => s.token = p.current) {s : Stmt}
    (h : s ∈ (collectAll stop step p).1) : s.token ∈ p.ahead := by
  induction p using rounds_induction hs hstop with
  | stopped p hc =>
    rw [collectAll_of_stop hc] at h
    cases h
  | round p hc ih =>
    rw [collectAll_round hs hstop hc] at h
    rcases List.mem_append.1 h with hfirst | hmore
    · have hs' := hstep p s (step p).2 (Prod.ext (Option.mem_toList.1 hfirst) rfl)
      rw [hs', Parser.ahead_of_current]
      · exact List.mem_cons_self
      · intro he
        rw [he, hstop] at hc
        cases hc
    · have hround : (step p).2.advance.ahead <:+ p.ahead :=
        ((hs.precedes p).trans (Parser.precedes_advance _)).ahead
      exact hround.subset (ih hmore)

end Step

/-! ## Statements -/

namespace Rule

open Step

variable {nested : Power → Step Expr} (p : Parser)

theorem gives_binding : (binding nested).Gives p fun s => s.token = p.current := by
  rw [binding]
  refine gives_current_bind (gives_bind fun _ _ => gives_bind fun _ _ => ?_)
  refine gives_bind fun _ _ => gives_bind fun _ _ => gives_bind fun _ _ => ?_
  exact gives_bind fun _ _ => gives_pure rfl

theorem gives_result : (result nested).Gives p fun s => s.token = p.current := by
  rw [result]
  refine gives_current_bind (gives_bind fun _ _ => gives_bind fun _ _ => ?_)
  exact gives_bind fun _ _ => gives_pure rfl

theorem gives_expressionStatement :
    (expressionStatement nested).Gives p fun s => s.token = p.current := by
  rw [expressionStatement]
  refine gives_current_bind (gives_bind fun _ _ => ?_)
  exact gives_bind fun _ _ => gives_pure rfl

theorem gives_statement : (statement nested).Gives p fun s => s.token = p.current := by
  rw [statement]
  refine gives_current_bind ?_
  cases p.current.kind.statementRule? with
  | none => exact gives_expressionStatement p
  | some rule =>
    cases rule with
    | binding => exact gives_binding p
    | result => exact gives_result p

end Rule

open Step

theorem token_of_loggedStatement {p q : Parser} {s : Stmt}
    (h : Parser.loggedStatement p = (some s, q)) : s.token = p.current := by
  rw [Parser.loggedStatement, bind_apply] at h
  split at h
  next s' r hs =>
    cases h
    exact Rule.gives_statement p s r hs
  next => cases h

theorem token_mem_ahead {p : Parser} {s : Stmt}
    (h : s ∈ (collectAll (· == .eof) Parser.loggedStatement p).1) : s.token ∈ p.ahead :=
  mem_collectAll Parser.steady_loggedStatement rfl (fun _ _ _ => token_of_loggedStatement) h

theorem startsStatement_of_clean {p q : Parser} {s : Stmt}
    (h : Parser.loggedStatement.Clean p s q) : p.current.kind.startsStatement = true := by
  obtain ⟨r, hs, -⟩ := Parser.clean_loggedStatement_iff.1 h
  rcases Rule.clean_statement_iff.1 hs with ⟨hk, -⟩ | ⟨hk, -⟩ | ⟨-, he⟩
  · rw [hk]
    rfl
  · rw [hk]
    rfl
  · obtain ⟨_, _, hv, -⟩ :=
      (Rule.clean_expressionStatement_iff (Parser.steady_expressionWithin _)).1 he
    obtain ⟨-, _, _, _, hstart, -⟩ := Parser.clean_expressionWithin_succ_iff.1 hv
    obtain ⟨rule, hrule, -⟩ := Rule.clean_start_iff.1 hstart
    have hk : p.current.kind.prefixRule? = some rule := Kind.prefixRule?_eq_some_iff.2 hrule
    rw [Kind.startsStatement, hk]
    simp

/-- The first statement of a source without errors is read at the first token. -/
theorem head_of_errors_eq_nil {source : String} {file : Option String} {options : Options}
    (h : (parse source file options).errors = []) {s : Stmt} {ss : List Stmt}
    (hs : (parse source file options).program.statements = s :: ss) :
    s.token = (Parser.opened source file options).current ∧
      (Parser.opened source file options).current.kind.startsStatement = true := by
  have hp : parse source file options = ⟨⟨s :: ss⟩, []⟩ := by rw [← hs, ← h]
  obtain ⟨q, hq⟩ := parse_eq_iff.1 hp
  cases hq with
  | round _ hc _ => exact ⟨token_of_loggedStatement hc.1, startsStatement_of_clean hc⟩

end ExprLang
