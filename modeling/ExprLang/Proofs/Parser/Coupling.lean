import ExprLang.Proofs.Parser.SpareFuel

/-!
# Two runs that may part

A `Coupling` says which parsers are `related`, so that they see the same two tokens, and which have
`parted`, after which nothing more is said about them. `Coupling.Lawful` has one clause for each
thing that a step can do, and one for the end of a statement, which alone depends on the options. A
step is `Coupled` if related parsers get the same result from it and stay related, or else part.
Steps made of coupled steps are coupled (`Lawful.bind`), so every rule is coupled over coupled nested
expressions, and with them the whole parser. Main statement (`Lawful.coupled_program`): so are all
statements up to the end of a source, if parsers also stay related when a statement is logged.
-/

set_option autoImplicit false

namespace ExprLang

open Step

/-- The fault says that a semicolon is missing. -/
def Fault.missesSemicolon : Fault → Bool
  | .unexpectedToken .semicolon _ _ => true
  | _ => false

theorem Fault.not_missesSemicolon {expected found : Kind} {token : String}
    (h : expected ≠ .semicolon) :
    (unexpectedToken expected found token).missesSemicolon = false := by
  cases expected <;> first | rfl | exact absurd rfl h

/-- Which parsers do the same, and which may do different things (module doc). -/
structure Coupling where
  related : Parser → Parser → Prop
  parted : Parser → Parser → Prop

namespace Coupling

variable {α β : Type}

section
variable (c : Coupling)

/-- How two runs of a step end. -/
def Agrees (r s : Option α × Parser) : Prop :=
  s.1 = r.1 ∧ c.related r.2 s.2 ∨ c.parted r.2 s.2

/-- What a coupling has to keep. -/
structure Lawful : Prop where
  current {p q : Parser} : c.related p q → q.current = p.current
  peek {p q : Parser} : c.related p q → q.peek = p.peek
  depth {p q : Parser} : c.related p q → q.depth = p.depth
  withDepth {p q : Parser} (n : Nat) :
    c.related p q → c.related { p with depth := n } { q with depth := n }
  recordAt {p q : Parser} {fault : Fault} (position : Position) :
    fault.missesSemicolon = false → c.related p q →
    c.related (p.recordAt fault position) (q.recordAt fault position)
  advance {p q : Parser} :
    c.related p q → c.related p.advance q.advance ∨ c.parted p.advance q.advance
  terminator {p q : Parser} : c.related p q → c.Agrees (Rule.terminator p) (Rule.terminator q)
  parted {p q p' q' : Parser} : c.parted p q → p.Precedes p' → q.Precedes q' → c.parted p' q'
  parted_leave {p q : Parser} : c.parted p q → c.parted p.leave q.leave

/-- The step does the same for related parsers, unless they part. -/
structure Coupled (m : Step α) : Prop where
  steady : m.Steady
  agrees {p q : Parser} : c.related p q → c.Agrees (m p) (m q)

end

variable {c : Coupling} {p q : Parser}

namespace Lawful

/-! ## Basic steps -/

theorem coupled_pure (a : α) : c.Coupled (pure a : Step α) :=
  ⟨steady_pure a, fun h => .inl ⟨rfl, h⟩⟩

variable (L : c.Lawful)
include L

theorem coupled_current : c.Coupled Step.current :=
  ⟨steady_current, fun h => .inl ⟨congrArg some (L.current h), h⟩⟩

theorem coupled_peek : c.Coupled Step.peek :=
  ⟨steady_peek, fun h => .inl ⟨congrArg some (L.peek h), h⟩⟩

theorem agrees_advance (h : c.related p q) : c.Agrees (Step.advance p) (Step.advance q) := by
  rcases L.advance h with h | h
  · exact .inl ⟨rfl, h⟩
  · exact .inr h

theorem coupled_advance : c.Coupled Step.advance := ⟨steady_advance, L.agrees_advance⟩

theorem coupled_skip (kind : Kind) : c.Coupled (update (Parser.skip kind)) := by
  refine ⟨steady_skip kind, fun {p q} h => ?_⟩
  rw [update, update, Parser.skip, Parser.skip, L.peek h]
  by_cases hk : p.peek.kind = kind
  · rw [if_pos hk, if_pos hk]
    exact L.agrees_advance h
  · rw [if_neg hk, if_neg hk]
    exact .inl ⟨rfl, h⟩

theorem related_record {fault : Fault} (hf : fault.missesSemicolon = false)
    (h : c.related p q) : c.related (p.record fault) (q.record fault) := by
  have hposition : q.position = p.position := by
    rw [Parser.position, L.current h, Parser.position]
  rw [Parser.record, Parser.record, hposition]
  exact L.recordAt _ hf h

theorem coupled_record {fault : Fault} (hf : fault.missesSemicolon = false) :
    c.Coupled (update (Parser.record fault)) :=
  ⟨steady_of_update fun p => Parser.precedes_recordAt fault p.position p,
    fun h => .inl ⟨rfl, L.related_record hf h⟩⟩

theorem coupled_fail {fault : Fault} (hf : fault.missesSemicolon = false) :
    c.Coupled (fail fault : Step α) :=
  ⟨steady_fail fault, fun h => .inl ⟨rfl, L.related_record hf h⟩⟩

theorem coupled_expect {kind : Kind} (hk : kind ≠ .semicolon) : c.Coupled (expect kind) := by
  refine ⟨steady_expect kind, fun {p q} h => ?_⟩
  rw [expect, expect, L.peek h]
  by_cases hp : p.peek.kind = kind
  · rw [if_pos hp, if_pos hp]
    exact L.agrees_advance h
  · rw [if_neg hp, if_neg hp]
    exact .inl ⟨rfl, L.recordAt _ (Fault.not_missesSemicolon hk) h⟩

theorem coupled_terminator : c.Coupled Rule.terminator := ⟨Rule.steady_terminator, L.terminator⟩

/-! ## Steps in sequence -/

theorem bind {m : Step α} {f : α → Step β} (hm : c.Coupled m) (hf : ∀ a, c.Coupled (f a)) :
    c.Coupled (m >>= f) := by
  have hmore := precedes_bind (m := m) fun a => (hf a).steady
  refine ⟨hm.steady.bind fun a => (hf a).steady, fun {p q} h => ?_⟩
  rcases hm.agrees h with ⟨hres, hnext⟩ | hparted
  · rw [bind_apply, bind_apply]
    generalize m p = r, m q = s at hres hnext
    obtain ⟨a, p'⟩ := r
    obtain ⟨b, q'⟩ := s
    have hres : b = a := hres
    subst hres
    cases b with
    | none => exact .inl ⟨rfl, hnext⟩
    | some a => exact (hf a).agrees hnext
  · exact .inr (L.parted hparted (hmore p) (hmore q))

omit L in
/-- A loop that runs for any number of rounds, and changes no more when all tokens are read. -/
theorem coupled_loop {m : Nat → Step α} (hm : ∀ n, c.Coupled (m n))
    (heq : ∀ (p : Parser) (n k : Nat), p.tokensLeft ≤ n → p.tokensLeft ≤ k → m n p = m k p) :
    c.Coupled (get >>= fun p => m p.tokensLeft) := by
  refine ⟨steady_get.bind fun p => (hm _).steady, fun {p q} h => ?_⟩
  have hboth := (hm (max p.tokensLeft q.tokensLeft)).agrees h
  rw [heq p _ p.tokensLeft (Nat.le_max_left _ _) (Nat.le_refl _),
    heq q _ q.tokensLeft (Nat.le_max_right _ _) (Nat.le_refl _)] at hboth
  exact hboth

theorem coupled_enclosed {step : Step α} (hs : c.Coupled step) : c.Coupled (enclosed step) := by
  refine ⟨steady_enclosed hs.steady, fun {p q} h => ?_⟩
  have hdepth := L.depth h
  by_cases hd : p.depth < maxNestingDepth
  · rw [enclosed_of_lt hd, enclosed_of_lt (by rwa [hdepth])]
    have hin : c.related p.deepen q.deepen := by
      rw [Parser.deepen, Parser.deepen, hdepth]
      exact L.withDepth _ h
    rcases hs.agrees hin with ⟨hres, hout⟩ | hparted
    · refine .inl ⟨hres, ?_⟩
      change c.related (step p.deepen).2.leave (step q.deepen).2.leave
      rw [Parser.leave, Parser.leave, L.depth hout]
      exact L.withDepth _ hout
    · exact .inr (L.parted_leave hparted)
  · rw [enclosed_of_not_lt hd, enclosed_of_not_lt (by rwa [hdepth])]
    exact .inl ⟨rfl, L.related_record rfl h⟩

theorem coupled_collectAll {stop : Kind → Bool} {step : Step α} (hs : c.Coupled step)
    (hstop : stop .eof = true) : c.Coupled (always (collectAll stop step)) := by
  refine ⟨steady_always (precedes_collectAll stop hs.steady), fun {p q} h => ?_⟩
  induction p using rounds_induction hs.steady hstop generalizing q with
  | stopped p hc =>
    rw [always, always, collectAll_of_stop hc, collectAll_of_stop (by rwa [L.current h])]
    exact .inl ⟨rfl, h⟩
  | round p hc ih =>
    have hcq : stop q.current.kind = false := by rwa [L.current h]
    have hp := collectAll_round hs.steady hstop hc
    have hq := collectAll_round hs.steady hstop hcq
    rw [always, always, hp, hq]
    have hmore (r : Option α × Parser) :
        r.2.advance.Precedes (collectAll stop step r.2.advance).2 :=
      precedes_collectAll stop hs.steady _
    rcases hs.agrees h with ⟨hres, hnext⟩ | hparted
    · rcases L.advance hnext with hin | hparted
      · rcases ih hin with ⟨hall, hend⟩ | hparted
        · have hall : (collectAll stop step (step q).2.advance).1 =
              (collectAll stop step (step p).2.advance).1 := Option.some.inj hall
          refine .inl ⟨?_, hend⟩
          dsimp only
          rw [hres, hall]
        · exact .inr hparted
      · exact .inr (L.parted hparted (hmore _) (hmore _))
    · have hround (r : Option α × Parser) := (Parser.precedes_advance r.2).trans (hmore r)
      exact .inr (L.parted hparted (hround _) (hround _))

/-! ## The rules -/

theorem coupled_identifier : c.Coupled Rule.identifier :=
  L.bind L.coupled_current fun _ => coupled_pure _

theorem coupled_integer : c.Coupled Rule.integer := by
  refine L.bind L.coupled_current fun token => ?_
  split
  · exact coupled_pure _
  · exact L.bind (L.coupled_record rfl) fun _ => coupled_pure _

theorem coupled_boolean : c.Coupled Rule.boolean :=
  L.bind L.coupled_current fun _ => coupled_pure _

theorem coupled_parametersWithin (n : Nat) : c.Coupled (Rule.parametersWithin n) := by
  induction n with
  | zero => exact L.bind (L.coupled_expect (by decide)) fun _ => coupled_pure _
  | succ n ih =>
    refine L.bind (L.coupled_expect (by decide)) fun _ => L.bind L.coupled_current fun name =>
      L.bind L.coupled_advance fun _ => L.bind L.coupled_current fun next => ?_
    split
    · exact L.bind ih fun _ => coupled_pure _
    · exact coupled_pure _
    · exact L.coupled_fail rfl

theorem coupled_parameters : c.Coupled Rule.parameters := by
  refine L.bind L.coupled_peek fun token => ?_
  split
  · exact L.bind L.coupled_advance fun _ => coupled_pure _
  · exact coupled_loop L.coupled_parametersWithin fun _ _ _ => Rule.parametersWithin_eq

section
variable {nested : Power → Step Expr} (hn : ∀ power, c.Coupled (nested power))
include hn

theorem coupled_binding : c.Coupled (Rule.binding nested) :=
  L.bind L.coupled_current fun _ => L.bind (L.coupled_expect (by decide)) fun _ =>
    L.bind L.coupled_current fun _ => L.bind (L.coupled_expect (by decide)) fun _ =>
      L.bind L.coupled_advance fun _ => L.bind (hn _) fun _ =>
        L.bind L.coupled_terminator fun _ => coupled_pure _

theorem coupled_result : c.Coupled (Rule.result nested) :=
  L.bind L.coupled_current fun _ => L.bind L.coupled_advance fun _ => L.bind (hn _) fun _ =>
    L.bind L.coupled_terminator fun _ => coupled_pure _

theorem coupled_expressionStatement : c.Coupled (Rule.expressionStatement nested) :=
  L.bind L.coupled_current fun _ => L.bind (hn _) fun _ => L.bind (L.coupled_skip _) fun _ =>
    coupled_pure _

theorem coupled_statement : c.Coupled (Rule.statement nested) := by
  refine L.bind L.coupled_current fun token => ?_
  split
  next rule _ =>
    cases rule with
    | binding => exact L.coupled_binding hn
    | result => exact L.coupled_result hn
  next => exact L.coupled_expressionStatement hn

omit hn in
theorem coupled_closeBlock : c.Coupled (update Rule.closeBlock) := by
  refine ⟨steady_of_update fun p => ?_, fun {p q} h => ?_⟩
  · unfold Rule.closeBlock
    split
    · exact Parser.precedes_recordAt _ _ p
    · exact .refl p
  · rw [update, update, Rule.closeBlock, Rule.closeBlock, L.current h]
    by_cases hk : p.current.kind = .eof
    · rw [if_pos hk, if_pos hk]
      exact .inl ⟨rfl, L.related_record rfl h⟩
    · rw [if_neg hk, if_neg hk]
      exact .inl ⟨rfl, h⟩

theorem coupled_block : c.Coupled (always (Rule.block nested)) := by
  have hbody : c.Coupled (always (collectAll Rule.endsBlock (Rule.statement nested))) :=
    L.coupled_collectAll (L.coupled_statement hn) rfl
  have hblock : always (Rule.block nested) = do
      let token ← Step.current
      Step.advance
      let statements ← always (collectAll Rule.endsBlock (Rule.statement nested))
      update Rule.closeBlock
      return .mk token statements := rfl
  rw [hblock]
  exact L.bind L.coupled_current fun _ => L.bind L.coupled_advance fun _ => L.bind hbody fun _ =>
    L.bind L.coupled_closeBlock fun _ => coupled_pure _

theorem coupled_alternative : c.Coupled (Rule.alternative nested) := by
  refine L.bind L.coupled_peek fun token => ?_
  split
  · exact L.bind L.coupled_advance fun _ => L.bind (L.coupled_expect (by decide)) fun _ =>
      L.bind (L.coupled_block hn) fun _ => coupled_pure _
  · exact coupled_pure _

theorem coupled_conditional : c.Coupled (Rule.conditional nested) :=
  L.bind L.coupled_current fun _ => L.bind (L.coupled_expect (by decide)) fun _ =>
    L.bind L.coupled_advance fun _ => L.bind (hn _) fun _ =>
      L.bind (L.coupled_expect (by decide)) fun _ => L.bind (L.coupled_expect (by decide)) fun _ =>
        L.bind (L.coupled_block hn) fun _ => L.bind (L.coupled_alternative hn) fun _ =>
          coupled_pure _

theorem coupled_function : c.Coupled (Rule.function nested) :=
  L.bind L.coupled_current fun _ => L.bind (L.coupled_expect (by decide)) fun _ =>
    L.bind L.coupled_parameters fun _ => L.bind (L.coupled_expect (by decide)) fun _ =>
      L.bind (L.coupled_block hn) fun _ => coupled_pure _

theorem coupled_starting (rule : PrefixRule) : c.Coupled (Rule.starting nested rule) := by
  cases rule with
  | identifier => exact L.coupled_identifier
  | integer => exact L.coupled_integer
  | boolean => exact L.coupled_boolean
  | unary =>
    exact L.bind L.coupled_current fun _ => L.bind L.coupled_advance fun _ => L.bind (hn _)
      fun _ => coupled_pure _
  | grouping =>
    exact L.bind L.coupled_advance fun _ => L.bind (hn _) fun _ =>
      L.bind (L.coupled_expect (by decide)) fun _ => coupled_pure _
  | conditional => exact L.coupled_conditional hn
  | function => exact L.coupled_function hn

theorem coupled_argumentsWithin (n : Nat) : c.Coupled (Rule.argumentsWithin nested n) := by
  induction n with
  | zero => exact L.bind (L.coupled_expect (by decide)) fun _ => coupled_pure _
  | succ n ih =>
    refine L.bind L.coupled_peek fun token => ?_
    split
    · exact L.bind L.coupled_advance fun _ => L.bind L.coupled_advance fun _ =>
        L.bind (hn _) fun _ => L.bind ih fun _ => coupled_pure _
    · exact L.bind (L.coupled_expect (by decide)) fun _ => coupled_pure _

theorem coupled_arguments : c.Coupled (Rule.arguments nested) := by
  refine L.bind L.coupled_advance fun _ => L.bind L.coupled_current fun token => ?_
  split
  · exact coupled_pure _
  · refine L.bind (hn _) fun first => coupled_loop (m := fun n => do
      return first :: (← Rule.argumentsWithin nested n)) (fun n => ?_) fun p n k hle hle' => ?_
    · exact L.bind (L.coupled_argumentsWithin hn n) fun _ => coupled_pure _
    · have hmore := Rule.argumentsWithin_eq (fun power => (hn power).steady) hle hle'
      exact bind_congr hmore fun _ _ _ => rfl

theorem coupled_continuing (left : Expr) (power : Power) (rule : InfixRule) :
    c.Coupled (Rule.continuing nested left power rule) := by
  cases rule with
  | binary =>
    exact L.bind L.coupled_current fun _ => L.bind L.coupled_advance fun _ => L.bind (hn _)
      fun _ => coupled_pure _
  | call =>
    exact L.bind L.coupled_current fun _ => L.bind (L.coupled_arguments hn) fun _ => coupled_pure _

theorem coupled_continuedWithin (power : Power) (n : Nat) (left : Expr) :
    c.Coupled (Rule.continuedWithin nested power n left) := by
  induction n generalizing left with
  | zero => exact coupled_pure _
  | succ n ih =>
    refine L.bind L.coupled_peek fun token => ?_
    split
    · refine L.bind L.coupled_peek fun _ => ?_
      split
      · exact coupled_pure _
      · exact L.bind L.coupled_advance fun _ => L.bind L.coupled_current fun _ =>
          L.bind (L.coupled_continuing hn _ _ _) fun _ => ih _
    · exact coupled_pure _

theorem coupled_start : c.Coupled (Rule.start nested) := by
  refine L.bind L.coupled_current fun token => ?_
  split
  · exact L.coupled_starting hn _
  · split
    · exact L.coupled_fail rfl
    · exact L.coupled_fail rfl

theorem coupled_expression (power : Power) : c.Coupled (Rule.expression nested power) :=
  L.bind (L.coupled_start hn) fun left =>
    coupled_loop (m := fun n => Rule.continuedWithin nested power n left)
      (fun n => L.coupled_continuedWithin hn power n left)
      fun _ _ _ => Rule.continuedWithin_eq fun power => (hn power).steady

end

/-! ## The parser -/

theorem coupled_expressionWithin (room : Nat) (power : Power) :
    c.Coupled (Parser.expressionWithin room power) := by
  induction room generalizing power with
  | zero => exact L.coupled_fail rfl
  | succ room ih => exact L.coupled_enclosed (L.coupled_expression ih power)

/-- The statements up to the end of a source, which are logged when they are complete. -/
theorem coupled_program (hnote : ∀ {p q : Parser} (event : Event), c.related p q →
    c.related (p.note event) (q.note event)) :
    c.Coupled (always (collectAll (· == .eof) Parser.loggedStatement)) := by
  have hupdate (s : Stmt) : c.Coupled (update (Parser.note (.completed s))) :=
    ⟨steady_of_update (Parser.precedes_note _), fun h => .inl ⟨rfl, hnote _ h⟩⟩
  have hlogged : c.Coupled Parser.loggedStatement :=
    L.bind (L.coupled_statement (L.coupled_expressionWithin _)) fun s =>
      L.bind (hupdate s) fun _ => coupled_pure _
  exact L.coupled_collectAll hlogged rfl

end Lawful

end Coupling

end ExprLang
