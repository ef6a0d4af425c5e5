import ExprLang.Proofs.Parser.SpareFuel
import Mathlib.Logic.Relation

/-!
# What the cursor does

However a source is read, the cursor makes only a few kinds of moves. A token that it comes to is
`fresh` until a rule takes it; where none does, or where the token behind a `taken` one is not the
one that has to come, an error is recorded and the cursor is `stuck`. It goes on from there only in
a list of statements: of a block, or of the program.

`Cursor.Move` is one such move, with all that it records, and `Step.Moves` says that a step goes by
such moves: so what each move keeps, every step keeps (`Cursor.Leads.keeps`). Every rule goes by
them (`Rule.moves_statement`), and with the rules the whole parse: so what each move keeps holds
where the parse ends (`parse_keeps`).
-/

set_option autoImplicit false

namespace ExprLang

open Step

/-! ## The moves -/

/-- No rule takes the token as it is: a stray character, or a number that is out of range. -/
def Token.isBad (t : Token) : Bool :=
  t.kind == .illegal || t.kind == .integer && (Text.readInt64? t.literal.toList).isNone

/-- The faults of a token that no expression starts with. -/
inductive Token.Rejected (t : Token) : Fault → Prop
  | illegal : t.kind = .illegal → Rejected t (.illegalToken t.literal)
  | noPrefixRule : t.kind ≠ .illegal → t.kind.prefixRule? = none →
      Rejected t (.noPrefixRule t.kind t.literal)
  | tooDeep : Rejected t (.nestingTooDeep maxNestingDepth)

/-- The tokens that a rule can demand. -/
def Kind.demanded : List Kind :=
  [.identifier, .assignment, .openParen, .closeParen, .openCurly, .semicolon]

/-- What has become of the token under the cursor. -/
inductive Stage where
  | fresh
  | taken
  | stuck
  deriving DecidableEq

/-- A parser, and the number of open lists of statements in which it goes on behind an error. -/
structure Cursor where
  stage : Stage
  lists : Nat
  parser : Parser

namespace Cursor

/-- One move of the cursor (module doc). -/
inductive Move : Cursor → Cursor → Prop
  /-- The depth and the log change at any time. -/
  | note {s : Stage} {n : Nat} {p : Parser} (depth : Nat) (journal : List Event) :
      Move ⟨s, n, p⟩ ⟨s, n, { p with depth, journal }⟩
  | advance {n : Nat} {p : Parser} : Move ⟨.taken, n, p⟩ ⟨.fresh, n, p.advance⟩
  | take {n : Nat} {p : Parser} : p.current.isBad = false → Move ⟨.fresh, n, p⟩ ⟨.taken, n, p⟩
  /-- A number that is out of range is taken nevertheless. -/
  | number {n : Nat} {p : Parser} : p.current.kind = .integer →
      Text.readInt64? p.current.literal.toList = none →
      Move ⟨.fresh, n, p⟩ ⟨.taken, n, p.record (.invalidNumber p.current.literal)⟩
  | reject {n : Nat} {p : Parser} {fault : Fault} : p.current.Rejected fault →
      Move ⟨.fresh, n, p⟩ ⟨.stuck, n, p.record fault⟩
  /-- Behind a parameter the cursor moves before it looks. -/
  | parameter {n : Nat} {p : Parser} : p.current.kind = .identifier →
      p.peek.kind ≠ .comma → p.peek.kind ≠ .closeParen →
      Move ⟨.taken, n, p⟩ ⟨.stuck, n, p.advance.record (.unexpectedTokenDetailed p.peek.literal
        "expected `,` or `)` in parameter list")⟩
  | unexpected {n : Nat} {p : Parser} {kind : Kind} : kind ∈ Kind.demanded →
      (kind = .semicolon → p.options.requireSemicolons = true) → p.peek.kind ≠ kind →
      Move ⟨.taken, n, p⟩ ⟨.stuck, n, p.recordAt (.unexpectedToken kind p.peek.kind p.peek.literal)
        p.peek.span.start⟩
  | openBlock {n : Nat} {p : Parser} : p.peek.kind = .openCurly →
      Move ⟨.taken, n, p⟩ ⟨.fresh, n + 1, p.advance.advance⟩
  | closeBlock {n : Nat} {p : Parser} : p.current.kind = .closeCurly →
      Move ⟨.fresh, n + 1, p⟩ ⟨.taken, n, p⟩
  | unclosed {n : Nat} {p : Parser} : p.current.kind = .eof →
      Move ⟨.fresh, n + 1, p⟩ ⟨.taken, n, p.record (.unexpectedToken .closeCurly .eof
        p.current.literal)⟩
  | resume {n : Nat} {p : Parser} : Move ⟨.stuck, n + 1, p⟩ ⟨.fresh, n + 1, p.advance⟩

/-- Any number of moves. -/
abbrev Leads : Cursor → Cursor → Prop := Relation.ReflTransGen Move

/-- What every move keeps, a run keeps. -/
theorem Leads.keeps {I : Cursor → Prop} (hmove : ∀ {c d}, Move c d → I c → I d) {c d : Cursor}
    (h : c.Leads d) (hc : I c) : I d := by
  induction h with
  | refl => exact hc
  | tail _ hcd ih => exact hmove hcd ih

/-- A token that is not bad is taken from the one in front of it. -/
theorem leads_onto {n : Nat} {p : Parser} (h : p.peek.isBad = false) :
    Leads ⟨.taken, n, p⟩ ⟨.taken, n, p.advance⟩ :=
  .head .advance (.single (.take h))

end Cursor

open Cursor

/-- Most kinds are those of good tokens. -/
theorem Token.isBad_eq_false {t : Token} {kind : Kind} (hk : t.kind = kind)
    (h : kind ≠ .illegal ∧ kind ≠ .integer) : t.isBad = false := by
  simp [isBad, hk, h]

theorem Token.isBad_of_mem_demanded {t : Token} (h : t.kind ∈ Kind.demanded) :
    t.isBad = false := by
  have hgood : ∀ kind ∈ Kind.demanded, kind ≠ .illegal ∧ kind ≠ .integer := by decide
  exact isBad_eq_false rfl (hgood _ h)

theorem Token.isBad_of_infixRule? {t : Token} {rule : InfixRule}
    (h : t.kind.infixRule? = some rule) : t.isBad = false := by
  refine isBad_eq_false rfl ⟨?_, ?_⟩ <;> intro hk <;> rw [hk] at h <;> cases h

/-! ## Steps by moves -/

/-- The stage that a step ends in if it ends in `s` where it does not fail. -/
def Stage.orStuck {α : Type} (s : Stage) (result : Option α) : Stage :=
  if result.isSome then s else .stuck

/-- The step goes from stage `s` to stage `s'` by moves of the cursor, or gets stuck. -/
def Step.Moves {α : Type} (m : Step α) (p : Parser) (s s' : Stage) : Prop :=
  ∀ n, Leads ⟨s, n, p⟩ ⟨s'.orStuck (m p).1, n, (m p).2⟩

namespace Step

variable {α β : Type} {p : Parser} {s s' s'' : Stage}

theorem moves_pure {a : α} : (pure a : Step α).Moves p s s := fun _ => .refl

theorem Moves.bind {m : Step α} {f : α → Step β} (hm : m.Moves p s s')
    (hf : ∀ a q, (f a).Moves q s' s'') : (m >>= f).Moves p s s'' := by
  intro n
  have h := hm n
  rw [bind_apply]
  generalize m p = r at h ⊢
  rcases r with ⟨_ | a, q⟩
  · exact h
  · exact h.trans (hf a q n)

theorem moves_current_bind {f : Token → Step β} (h : (f p.current).Moves p s s') :
    (current >>= f).Moves p s s' := h

theorem moves_peek_bind {f : Token → Step β} (h : (f p.peek).Moves p s s') :
    (peek >>= f).Moves p s s' := h

theorem moves_get_bind {f : Parser → Step β} (h : (f p).Moves p s s') :
    (get >>= f).Moves p s s' := h

theorem moves_advance_bind {f : Unit → Step β} (h : (f ()).Moves p.advance .fresh s') :
    (advance >>= f).Moves p .taken s' :=
  fun n => .head .advance (h n)

/-- The cursor goes on to a token that is not bad. -/
theorem moves_onto_bind {f : Unit → Step β} (hb : p.peek.isBad = false)
    (h : (f ()).Moves p.advance .taken s') : (advance >>= f).Moves p .taken s' :=
  fun n => (leads_onto hb).trans (h n)

theorem moves_fail {fault : Fault} (h : p.current.Rejected fault) :
    (fail fault : Step α).Moves p .fresh s' :=
  fun _ => .single (.reject h)

theorem moves_expect_bind {kind : Kind} {f : Unit → Step β} (hk : kind ∈ Kind.demanded)
    (hs : kind = .semicolon → p.options.requireSemicolons = true)
    (h : p.peek.kind = kind → (f ()).Moves p.advance .taken s') :
    (expect kind >>= f).Moves p .taken s' := by
  intro n
  by_cases hp : p.peek.kind = kind
  · rw [bind_of_some (if_pos hp)]
    have hb : p.peek.isBad = false := Token.isBad_of_mem_demanded (hp ▸ hk)
    exact (leads_onto hb).trans (h hp n)
  · rw [bind_of_none (if_neg hp)]
    exact .single (.unexpected hk hs hp)

theorem moves_skip_bind {kind : Kind} {f : Unit → Step β} (hk : kind ∈ Kind.demanded)
    (h : ∀ q, (f ()).Moves q .taken s') :
    (update (Parser.skip kind) >>= f).Moves p .taken s' := by
  intro n
  have hf := h (p.skip kind) n
  change Leads _ ⟨s'.orStuck (f () (p.skip kind)).1, n, (f () (p.skip kind)).2⟩
  unfold Parser.skip at hf ⊢
  by_cases hp : p.peek.kind = kind
  · rw [if_pos hp] at hf ⊢
    exact (leads_onto (Token.isBad_of_mem_demanded (hp ▸ hk))).trans hf
  · rw [if_neg hp] at hf ⊢
    exact hf

theorem moves_enclosed {step : Step α} (h : step.Moves p.deepen .fresh s') :
    (enclosed step).Moves p .fresh s' := by
  intro n
  by_cases hd : p.depth < maxNestingDepth
  · rw [enclosed_of_lt hd]
    have hin : Leads ⟨.fresh, n, p⟩ ⟨.fresh, n, p.deepen⟩ := .single (.note _ _)
    exact (hin.trans (h n)).tail (.note _ _)
  · rw [enclosed_of_not_lt hd]
    exact .single (.reject .tooDeep)

/-! ## Lists of statements -/

section
variable {stop : Kind → Bool} {step : Step α}

/-- What a round keeps, the loop keeps, and it ends at a token to stop at. -/
theorem collectAll_keeps {I : Parser → Prop} (hs : step.Steady) (hstop : stop .eof = true)
    (hround : ∀ p, I p → I (step p).2.advance) (h : I p) :
    I (collectAll stop step p).2 ∧ stop (collectAll stop step p).2.current.kind = true := by
  induction p using rounds_induction hs hstop with
  | stopped p hc =>
    rw [collectAll_of_stop hc]
    exact ⟨h, hc⟩
  | round p hc ih =>
    rw [collectAll_round hs hstop hc]
    exact ih (hround p h)

/-- Behind a statement, and behind an error, the cursor moves on. -/
theorem leads_collectAll (p : Parser) (stop : Kind → Bool) (hs : step.Steady)
    (hstop : stop .eof = true) (hstep : ∀ p, step.Moves p .fresh .taken) (n : Nat) :
    Leads ⟨.fresh, n + 1, p⟩ ⟨.fresh, n + 1, (collectAll stop step p).2⟩ ∧
      stop (collectAll stop step p).2.current.kind = true := by
  refine collectAll_keeps (I := fun q => Leads ⟨.fresh, n + 1, p⟩ ⟨.fresh, n + 1, q⟩) hs hstop
    (fun q hq => ?_) .refl
  have hround := hq.trans (hstep q (n + 1))
  generalize step q = r at hround ⊢
  rcases r with ⟨_ | a, r⟩
  · exact hround.tail .resume
  · exact hround.tail .advance

end

end Step

/-! ## The rules -/

namespace Rule

variable {p : Parser}

theorem moves_terminator : terminator.Moves p .taken .taken := by
  apply moves_get_bind
  by_cases hr : p.options.requireSemicolons = true
  · rw [if_pos hr, ← Step.bind_pure (expect _)]
    exact moves_expect_bind (by decide) (fun _ => hr) fun _ => moves_pure
  · rw [if_neg hr, ← Step.bind_pure (update _)]
    exact moves_skip_bind (by decide) fun _ => moves_pure

theorem moves_parametersWithin (fuel : Nat) : (parametersWithin fuel).Moves p .taken .taken := by
  induction fuel generalizing p with
  | zero => exact moves_expect_bind (by decide) nofun fun _ => moves_pure
  | succ fuel ih =>
    intro n
    by_cases hi : p.peek.kind = .identifier
    · have hname : Leads ⟨.taken, n, p⟩ ⟨.taken, n, p.advance⟩ :=
        leads_onto (Token.isBad_eq_false hi (by decide))
      by_cases hc : p.advance.peek.kind = .comma
      · have hcomma : Leads ⟨.taken, n, p.advance⟩ ⟨.taken, n, p.advance.advance⟩ :=
          leads_onto (Token.isBad_eq_false hc (by decide))
        rw [parametersWithin_of_comma hi hc]
        exact (hname.trans hcomma).trans (ih.bind (fun _ _ => moves_pure) n)
      · rw [parametersWithin_of_ne_comma hi hc]
        by_cases hp : p.advance.peek.kind = .closeParen
        · rw [if_pos hp]
          exact hname.trans (leads_onto (Token.isBad_eq_false hp (by decide)))
        · rw [if_neg hp]
          exact hname.tail (.parameter hi hc hp)
    · rw [parametersWithin_of_ne hi]
      exact .single (.unexpected (by decide) nofun hi)

theorem moves_parameters : parameters.Moves p .taken .taken := by
  apply moves_peek_bind
  by_cases hp : p.peek.kind = .closeParen
  · rw [if_pos hp]
    exact moves_onto_bind (Token.isBad_eq_false hp (by decide)) moves_pure
  · rw [if_neg hp]
    exact moves_get_bind (moves_parametersWithin _)

section
variable {nested : Power → Step Expr}
  (hn : ∀ power p, (nested power).Moves p .fresh .taken)
include hn

/-! ## Statements -/

theorem moves_binding : (binding nested).Moves p .taken .taken := by
  refine moves_current_bind (moves_expect_bind (by decide) nofun fun _ => ?_)
  refine moves_current_bind (moves_expect_bind (by decide) nofun fun _ => ?_)
  refine moves_advance_bind ((hn _ _).bind fun _ _ => ?_)
  exact moves_terminator.bind fun _ _ => moves_pure

theorem moves_result : (result nested).Moves p .taken .taken := by
  refine moves_current_bind (moves_advance_bind ((hn _ _).bind fun _ _ => ?_))
  exact moves_terminator.bind fun _ _ => moves_pure

theorem moves_keywordStatement (rule : StatementRule) :
    (keywordStatement nested rule).Moves p .taken .taken := by
  cases rule with
  | binding => exact moves_binding hn
  | result => exact moves_result hn

theorem moves_expressionStatement : (expressionStatement nested).Moves p .fresh .taken := by
  refine moves_current_bind ((hn _ _).bind fun _ _ => ?_)
  exact moves_skip_bind (by decide) fun _ => moves_pure

theorem moves_statement : (statement nested).Moves p .fresh .taken := by
  apply moves_current_bind
  cases hk : p.current.kind.statementRule? with
  | none => exact moves_expressionStatement hn
  | some rule =>
    have hb : p.current.isBad = false := by
      refine Token.isBad_eq_false rfl ⟨?_, ?_⟩ <;> intro h <;> rw [h] at hk <;> cases hk
    exact fun n => .head (.take hb) (moves_keywordStatement hn rule n)

/-! ## Blocks -/

variable (hs : ∀ power, (nested power).Steady)
include hs

/-- A block is read from the token in front of its brace. -/
theorem moves_block_bind {β : Type} {f : Block → Step β} {s' : Stage}
    (h : ∀ b q, (f b).Moves q .taken s') :
    (expect .openCurly >>= fun _ => always (block nested) >>= f).Moves p .taken s' := by
  intro n
  by_cases hp : p.peek.kind = .openCurly
  · rw [bind_of_some (if_pos hp), bind_of_some always_block]
    refine Relation.ReflTransGen.trans ?_ (h _ _ n)
    -- the statements of the block are one more list in which the cursor goes on
    have hstatement : ∀ q, (statement nested).Moves q .fresh .taken := fun _ => moves_statement hn
    obtain ⟨hbody, hend⟩ := leads_collectAll p.advance.advance endsBlock (steady_statement hs) rfl
      hstatement n
    refine (Relation.ReflTransGen.head (.openBlock hp) hbody).tail ?_
    generalize (collectAll endsBlock (statement nested) p.advance.advance).2 = q at hend
    unfold closeBlock
    by_cases hq : q.current.kind = .eof
    · rw [if_pos hq]
      exact .unclosed hq
    · rw [if_neg hq]
      exact .closeBlock (by simpa [endsBlock, hq] using hend)
  · rw [bind_of_none (if_neg hp)]
    exact .single (.unexpected (by decide) (fun h => absurd h (by decide)) hp)

theorem moves_alternative : (alternative nested).Moves p .taken .taken := by
  apply moves_peek_bind
  by_cases hk : p.peek.kind = .elseKeyword
  · rw [if_pos hk]
    refine moves_onto_bind (Token.isBad_eq_false hk (by decide)) ?_
    exact moves_block_bind hn hs fun _ _ => moves_pure
  · rw [if_neg hk]
    exact moves_pure

/-! ## What starts an expression -/

theorem moves_conditional : (conditional nested).Moves p .taken .taken := by
  refine moves_current_bind (moves_expect_bind (by decide) nofun fun _ => ?_)
  refine moves_advance_bind ((hn _ _).bind fun _ _ => ?_)
  refine moves_expect_bind (by decide) nofun fun _ => moves_block_bind hn hs fun _ _ => ?_
  exact (moves_alternative hn hs).bind fun _ _ => moves_pure

theorem moves_function : (function nested).Moves p .taken .taken := by
  refine moves_current_bind (moves_expect_bind (by decide) nofun fun _ => ?_)
  refine moves_parameters.bind fun _ _ => ?_
  exact moves_block_bind hn hs fun _ _ => moves_pure

omit hs in
theorem moves_unary : (unary nested).Moves p .taken .taken :=
  moves_current_bind (moves_advance_bind ((hn _ _).bind fun _ _ => moves_pure))

omit hs in
theorem moves_grouping : (grouping nested).Moves p .taken .taken := by
  refine moves_advance_bind ((hn _ _).bind fun _ _ => ?_)
  exact moves_expect_bind (by decide) nofun fun _ => moves_pure

/-- Only numbers may be bad and still be taken. -/
theorem moves_starting {rule : PrefixRule} (hr : rule ≠ .integer) :
    (starting nested rule).Moves p .taken .taken := by
  cases rule with
  | identifier => exact moves_current_bind moves_pure
  | integer => exact absurd rfl hr
  | boolean => exact moves_current_bind moves_pure
  | unary => exact moves_unary hn
  | grouping => exact moves_grouping hn
  | conditional => exact moves_conditional hn hs
  | function => exact moves_function hn hs

omit hn hs in
theorem moves_integer (hk : p.current.kind = .integer) : integer.Moves p .fresh .taken := by
  apply moves_current_bind
  cases h : Text.readInt64? p.current.literal.toList with
  | some value => exact fun _ => .single (.take (by simp [Token.isBad, hk, h]))
  | none => exact fun _ => .single (.number hk h)

theorem moves_start : (start nested).Moves p .fresh .taken := by
  apply moves_current_bind
  cases hr : p.current.kind.prefixRule? with
  | some rule =>
    have hk := Kind.prefixRule?_eq_some_iff.1 hr
    by_cases hi : rule = .integer
    · subst hi
      exact moves_integer (List.mem_singleton.1 hk)
    · have hb : p.current.isBad = false := by
        refine Token.isBad_eq_false rfl ⟨?_, ?_⟩ <;> intro h <;> rw [h] at hr
        · cases hr
        · exact hi (Option.some.inj hr).symm
      exact fun n => .head (.take hb) (moves_starting hn hs hi n)
  | none =>
    dsimp only
    by_cases hi : p.current.kind = .illegal
    · rw [if_pos hi]
      exact moves_fail (.illegal hi)
    · rw [if_neg hi]
      exact moves_fail (.noPrefixRule hi hr)

/-! ## What continues an expression -/

omit hs in
theorem moves_argumentsWithin (fuel : Nat) :
    (argumentsWithin nested fuel).Moves p .taken .taken := by
  induction fuel generalizing p with
  | zero => exact moves_expect_bind (by decide) nofun fun _ => moves_pure
  | succ fuel ih =>
    apply moves_peek_bind
    by_cases hk : p.peek.kind = .comma
    · rw [if_pos hk]
      refine moves_onto_bind (Token.isBad_eq_false hk (by decide)) ?_
      refine moves_advance_bind ((hn _ _).bind fun _ _ => ?_)
      exact ih.bind fun _ _ => moves_pure
    · rw [if_neg hk]
      exact moves_expect_bind (by decide) nofun fun _ => moves_pure

omit hs in
theorem moves_arguments : (arguments nested).Moves p .taken .taken := by
  by_cases hk : p.peek.kind = .closeParen
  · refine moves_onto_bind (Token.isBad_eq_false hk (by decide)) ?_
    apply moves_current_bind
    rw [if_pos (show p.advance.current.kind = .closeParen from hk)]
    exact moves_pure
  · refine moves_advance_bind (moves_current_bind ?_)
    rw [if_neg (show p.advance.current.kind ≠ .closeParen from hk)]
    refine (hn _ _).bind fun _ _ => moves_get_bind ?_
    exact (moves_argumentsWithin hn _).bind fun _ _ => moves_pure

omit hs in
theorem moves_continuing (left : Expr) (power : Power) (rule : InfixRule) :
    (continuing nested left power rule).Moves p .taken .taken := by
  cases rule with
  | binary => exact moves_current_bind (moves_advance_bind ((hn _ _).bind fun _ _ => moves_pure))
  | call => exact moves_current_bind ((moves_arguments hn).bind fun _ _ => moves_pure)

omit hs in
theorem moves_continuedWithin (power : Power) (fuel : Nat) (left : Expr) :
    (continuedWithin nested power fuel left).Moves p .taken .taken := by
  induction fuel generalizing p left with
  | zero => exact moves_pure
  | succ fuel ih =>
    intro n
    by_cases hlt : power < p.peek.kind.power
    · have hsome : p.peek.kind.infixRule?.isSome = true :=
        Kind.isSome_infixRule?.2 (Nat.lt_of_le_of_lt (Nat.zero_le _) hlt)
      obtain ⟨rule, hrule⟩ := Option.isSome_iff_exists.1 hsome
      rw [continuedWithin_succ hlt hrule]
      refine (leads_onto (Token.isBad_of_infixRule? hrule)).trans ?_
      exact (moves_continuing hn left _ rule).bind (fun _ _ => ih _) n
    · rw [continuedWithin_of_not_lt hlt]
      exact .refl

theorem moves_expression (power : Power) : (expression nested power).Moves p .fresh .taken :=
  (moves_start hn hs).bind fun _ _ => moves_get_bind (moves_continuedWithin hn _ _ _)

end

end Rule

/-! ## The parser -/

namespace Parser

theorem moves_expressionWithin (room : Nat) (power : Power) (p : Parser) :
    (expressionWithin room power).Moves p .fresh .taken := by
  induction room generalizing power p with
  | zero => exact moves_fail .tooDeep
  | succ room ih =>
    exact moves_enclosed (Rule.moves_expression ih (steady_expressionWithin room) power)

theorem moves_loggedStatement (p : Parser) : loggedStatement.Moves p .fresh .taken := by
  refine (Rule.moves_statement (moves_expressionWithin _)).bind fun _ q => ?_
  exact fun _ => .single (.note _ _)

end Parser

/-- A parse is a run of the cursor up to the end of the source, which is a list of statements. -/
theorem exists_leads_of_parse (source : String) (file : Option String) (options : Options) :
    ∃ q, Leads ⟨.fresh, 1, .opened source file options⟩ ⟨.fresh, 1, q⟩ ∧
      q.current.kind = .eof ∧ (parse source file options).errors = q.errors := by
  obtain ⟨hleads, hend⟩ := leads_collectAll (.opened source file options) (· == .eof)
    Parser.steady_loggedStatement rfl Parser.moves_loggedStatement 0
  refine ⟨_, hleads, beq_iff_eq.1 hend, ?_⟩
  rw [parse_eq_collectAll]

/-- What every move keeps holds at the end of a parse, where all its errors are recorded. -/
theorem parse_keeps {source : String} {file : Option String} {options : Options}
    {I : Cursor → Prop} (hmove : ∀ {c d}, Move c d → I c → I d)
    (hstart : I ⟨.fresh, 1, .opened source file options⟩) :
    ∃ q, I ⟨.fresh, 1, q⟩ ∧ q.current.kind = .eof ∧
      (parse source file options).errors = q.errors := by
  obtain ⟨q, hleads, hend⟩ := exists_leads_of_parse source file options
  exact ⟨q, hleads.keeps hmove hstart, hend⟩

end ExprLang
