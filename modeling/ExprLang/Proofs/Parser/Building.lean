import ExprLang.Proofs.Parser.CleanRules
import ExprLang.Proofs.Parser.SpareFuel
import ExprLang.Proofs.Tree.Built

/-!
# What rules build

A rule builds its node from the tokens it stands on, and a table or an expected kind has led it
there: so whatever errors there are, every node is built from a token ahead of the kind it has to
be. `Step.Makes T` is partial correctness, where all tokens ahead keep having the property `T`.
Every rule makes trees that are built from such tokens if nested expressions are. Main statement
(`builtFrom_parse`): so is every program.
-/

set_option autoImplicit false

namespace ExprLang

/-- All tokens ahead have the property. -/
def Parser.Ahead (T : Token → Prop) (p : Parser) : Prop := ∀ t ∈ p.ahead, T t

/-- If the step gives something, that is as `Q` says, and all tokens ahead have the property. -/
def Step.Makes {α : Type} (T : Token → Prop) (m : Step α) (p : Parser) (Q : α → Parser → Prop) :
    Prop :=
  ∀ a q, m p = (some a, q) → q.Ahead T ∧ Q a q

variable {T : Token → Prop} {α β : Type} {p : Parser}

theorem Parser.Ahead.precedes {q : Parser} (h : p.Ahead T) (hpq : p.Precedes q) : q.Ahead T :=
  fun t ht => h t (hpq.ahead.subset ht)

theorem Parser.Ahead.advance (h : p.Ahead T) : p.advance.Ahead T := h.precedes (precedes_advance p)

theorem Parser.Ahead.current {kind : Kind} (h : p.Ahead T) (hk : p.current.kind = kind)
    (hne : kind ≠ .eof) : T p.current := by
  have hahead := ahead_of_current (hk ▸ hne)
  exact h _ (hahead ▸ List.mem_cons_self)

namespace Step

variable {Q : α → Parser → Prop} {R : β → Parser → Prop} {m : Step α} {f : α → Step β}

theorem makes_pure {a : α} (hp : p.Ahead T) (h : Q a p) : (pure a : Step α).Makes T p Q := by
  rintro b q hb
  cases hb
  exact ⟨hp, h⟩

theorem makes_fail {fault : Fault} : (fail fault : Step α).Makes T p Q := fun _ _ h => nomatch h

theorem makes_of_steady (hp : p.Ahead T) (hm : m.Steady) : m.Makes T p fun _ _ => True := by
  intro a q h
  have hprecedes := hm.precedes p
  rw [h] at hprecedes
  exact ⟨hp.precedes hprecedes, trivial⟩

theorem Makes.bind (hm : m.Makes T p Q) (hf : ∀ a q, q.Ahead T → Q a q → (f a).Makes T q R) :
    (m >>= f).Makes T p R := by
  intro b r hb
  rw [bind_apply] at hb
  split at hb
  next a q ha =>
    obtain ⟨hq, h⟩ := hm a q ha
    exact hf a q hq h b r hb
  next => cases hb

/-- The step in front makes nothing that matters. -/
theorem makes_after (hp : p.Ahead T) (hm : m.Steady)
    (hf : ∀ a q, q.Ahead T → (f a).Makes T q R) : (m >>= f).Makes T p R :=
  (makes_of_steady hp hm).bind fun a q hq _ => hf a q hq

theorem makes_current_bind {f : Token → Step β} (h : (f p.current).Makes T p R) :
    (current >>= f).Makes T p R := h

theorem makes_peek_bind {f : Token → Step β} (h : (f p.peek).Makes T p R) :
    (peek >>= f).Makes T p R := h

theorem makes_get_bind {f : Parser → Step β} (h : (f p).Makes T p R) :
    (get >>= f).Makes T p R := h

theorem makes_advance_bind {f : Unit → Step β} (h : (f ()).Makes T p.advance R) :
    (advance >>= f).Makes T p R := h

theorem makes_expect (hp : p.Ahead T) (kind : Kind) :
    (expect kind).Makes T p fun _ q => q.current.kind = kind := by
  intro a q h
  unfold expect at h
  split at h
  next hk =>
    cases h
    exact ⟨hp.advance, hk⟩
  next => cases h

theorem makes_enclosed (hp : p.Ahead T) {S : α → Prop}
    (h : ∀ {q}, q.Ahead T → m.Makes T q fun a _ => S a) :
    (enclosed m).Makes T p fun a _ => S a := by
  intro a q ha
  by_cases hd : p.depth < maxNestingDepth
  · rw [enclosed_of_lt hd] at ha
    obtain ⟨hres, rfl⟩ := Prod.mk.inj ha
    exact h (q := p.deepen) hp a (m p.deepen).2 (Prod.ext hres rfl)
  · rw [enclosed_of_not_lt hd] at ha
    cases ha

/-- All that is collected is as one step makes it. -/
theorem makes_collectAll (hp : p.Ahead T) (stop : Kind → Bool) (hm : m.Steady)
    (hstop : stop .eof = true) {S : α → Prop}
    (h : ∀ {q}, q.Ahead T → m.Makes T q fun a _ => S a) :
    ∀ a ∈ (collectAll stop m p).1, S a := by
  induction p using rounds_induction hm hstop with
  | stopped p hc =>
    rw [collectAll_of_stop hc]
    exact fun _ ha => absurd ha List.not_mem_nil
  | round p hc ih =>
    have hround := (hm.precedes p).trans (Parser.precedes_advance _)
    rw [collectAll_round hm hstop hc]
    intro a ha
    rcases List.mem_append.1 ha with hfirst | hmore
    · exact (h hp a (m p).2 (Prod.ext (Option.mem_toList.1 hfirst) rfl)).2
    · exact ih (hp.precedes hround) a hmore

end Step

open Step

namespace Rule

theorem builtFrom_ofToken (hp : p.Ahead T) (hk : p.current.kind = .identifier) :
    (Identifier.ofToken p.current).BuiltFrom T :=
  ⟨hp.current hk (by decide), hk, rfl⟩

theorem makes_identifier (hp : p.Ahead T) (hk : p.current.kind = .identifier) :
    identifier.Makes T p fun e _ => e.BuiltFrom T :=
  makes_current_bind (makes_pure hp (builtFrom_ofToken hp hk))

theorem makes_integer (hp : p.Ahead T) (hk : p.current.kind = .integer) :
    integer.Makes T p fun e _ => e.BuiltFrom T := by
  have ht := hp.current hk (by decide)
  rw [integer]
  refine makes_current_bind ?_
  cases hread : Text.readInt64? p.current.literal.toList with
  | some value =>
    refine makes_pure hp ⟨ht, hk, ?_⟩
    rw [Text.countedValue, hread, Option.getD_some]
  | none =>
    refine makes_after hp (steady_of_update fun q => Parser.precedes_recordAt _ q.position q)
      fun _ q hq => makes_pure hq ⟨ht, hk, ?_⟩
    rw [Text.countedValue, hread, Option.getD_none]

theorem makes_boolean (hp : p.Ahead T)
    (hk : p.current.kind = .trueKeyword ∨ p.current.kind = .falseKeyword) :
    boolean.Makes T p fun e _ => e.BuiltFrom T := by
  refine makes_current_bind (makes_pure hp ?_)
  rcases hk with hk | hk
  · exact ⟨hp.current hk (by decide), by rw [hk]; rfl⟩
  · exact ⟨hp.current hk (by decide), by rw [hk]; rfl⟩

theorem makes_parametersWithin (hp : p.Ahead T) (n : Nat) :
    (parametersWithin n).Makes T p fun names _ => ∀ x ∈ names, x.BuiltFrom T := by
  induction n generalizing p with
  | zero =>
    exact (makes_expect hp _).bind fun _ q hq _ =>
      makes_pure hq fun _ hx => absurd hx List.not_mem_nil
  | succ n ih =>
    refine (makes_expect hp _).bind fun _ q hq hk =>
      makes_current_bind (makes_advance_bind (makes_current_bind ?_))
    have hname := builtFrom_ofToken hq hk
    split
    · exact (ih hq.advance).bind fun names r hr h =>
        makes_pure hr (List.forall_mem_cons.2 ⟨hname, h⟩)
    · exact makes_pure hq.advance fun x hx => List.mem_singleton.1 hx ▸ hname
    · exact makes_fail

theorem makes_parameters (hp : p.Ahead T) :
    parameters.Makes T p fun names _ => ∀ x ∈ names, x.BuiltFrom T := by
  refine makes_peek_bind ?_
  split
  · exact makes_advance_bind (makes_pure hp.advance fun _ hx => absurd hx List.not_mem_nil)
  · exact makes_get_bind (makes_parametersWithin hp _)

section
variable {nested : Power → Step Expr}
  (hn : ∀ power {p : Parser}, p.Ahead T → (nested power).Makes T p fun e _ => e.BuiltFrom T)
include hn

theorem makes_binding (hp : p.Ahead T) (hk : p.current.kind = .letKeyword) :
    (binding nested).Makes T p fun s _ => s.BuiltFrom T := by
  have ht := hp.current hk (by decide)
  refine makes_current_bind ((makes_expect hp _).bind fun _ q hq hkq => makes_current_bind ?_)
  have hname := builtFrom_ofToken hq hkq
  exact (makes_expect hq _).bind fun _ r hr _ => makes_advance_bind <|
    (hn _ hr.advance).bind fun value u hu hvalue => makes_after hu steady_terminator
      fun _ v hv => makes_pure hv ⟨ht, hk, hname, hvalue⟩

theorem makes_result (hp : p.Ahead T) (hk : p.current.kind = .returnKeyword) :
    (result nested).Makes T p fun s _ => s.BuiltFrom T :=
  makes_current_bind <| makes_advance_bind <| (hn _ hp.advance).bind fun _ _ hq hvalue =>
    makes_after hq steady_terminator fun _ _ hr =>
      makes_pure hr ⟨hp.current hk (by decide), hk, hvalue⟩

theorem makes_expressionStatement (hp : p.Ahead T) :
    (expressionStatement nested).Makes T p fun s _ => s.BuiltFrom T :=
  makes_current_bind <| (hn _ hp).bind fun _ _ hq hvalue =>
    makes_after hq (steady_skip _) fun _ _ hr => makes_pure hr hvalue

theorem makes_statement (hp : p.Ahead T) :
    (statement nested).Makes T p fun s _ => s.BuiltFrom T := by
  refine makes_current_bind ?_
  split
  next rule hrule =>
    have hk : p.current.kind = .letKeyword ∧ rule = .binding ∨
        p.current.kind = .returnKeyword ∧ rule = .result := by
      cases hkind : p.current.kind <;> rw [hkind] at hrule <;> cases hrule <;> simp
    rcases hk with ⟨hk, rfl⟩ | ⟨hk, rfl⟩
    · exact makes_binding hn hp hk
    · exact makes_result hn hp hk
  next => exact makes_expressionStatement hn hp

theorem makes_unary (hp : p.Ahead T) (hk : p.current.kind ∈ Kind.unaryOperators) :
    (unary nested).Makes T p fun e _ => e.BuiltFrom T := by
  have hne : p.current.kind ≠ .eof := fun he => absurd (he ▸ hk) (by decide)
  exact makes_current_bind <| makes_advance_bind <| (hn _ hp.advance).bind fun _ _ hq hright =>
    makes_pure hq ⟨hp.current rfl hne, hk, rfl, hright⟩

theorem makes_grouping (hp : p.Ahead T) :
    (grouping nested).Makes T p fun e _ => e.BuiltFrom T :=
  makes_advance_bind <| (hn _ hp.advance).bind fun _ _ hq hinner => (makes_expect hq _).bind
    fun _ _ hr _ => makes_pure hr hinner

theorem makes_binary (hp : p.Ahead T) (hk : p.current.kind ∈ Kind.binaryOperators) {left : Expr}
    (hleft : left.BuiltFrom T) (power : Power) :
    (binary nested left power).Makes T p fun e _ => e.BuiltFrom T := by
  have hne : p.current.kind ≠ .eof := fun he => absurd (he ▸ hk) (by decide)
  exact makes_current_bind <| makes_advance_bind <| (hn _ hp.advance).bind fun _ _ hq hright =>
    makes_pure hq ⟨hp.current rfl hne, hk, rfl, hleft, hright⟩

theorem makes_argumentsWithin (hp : p.Ahead T) (n : Nat) :
    (argumentsWithin nested n).Makes T p fun es _ => BuiltFromEach T es := by
  induction n generalizing p with
  | zero => exact (makes_expect hp _).bind fun _ q hq _ => makes_pure hq trivial
  | succ n ih =>
    refine makes_peek_bind ?_
    split
    · exact makes_advance_bind <| makes_advance_bind <| (hn _ hp.advance.advance).bind
        fun _ _ hq he => (ih hq).bind fun _ _ hr hes => makes_pure hr ⟨he, hes⟩
    · exact (makes_expect hp _).bind fun _ _ hq _ => makes_pure hq trivial

theorem makes_arguments (hp : p.Ahead T) :
    (arguments nested).Makes T p fun es _ => BuiltFromEach T es := by
  refine makes_advance_bind (makes_current_bind ?_)
  split
  · exact makes_pure hp.advance trivial
  · exact (hn _ hp.advance).bind fun _ _ hq he => makes_get_bind <|
      (makes_argumentsWithin hn hq _).bind fun _ _ hr hes => makes_pure hr ⟨he, hes⟩

theorem makes_call (hp : p.Ahead T) (hk : p.current.kind = .openParen) {callee : Expr}
    (hcallee : callee.BuiltFrom T) :
    (call nested callee).Makes T p fun e _ => e.BuiltFrom T :=
  makes_current_bind <| (makes_arguments hn hp).bind fun _ _ hq hes =>
    makes_pure hq ⟨hp.current hk (by decide), hk, hcallee, hes⟩

theorem makes_continuing (hp : p.Ahead T) {left : Expr} (hleft : left.BuiltFrom T) (power : Power)
    {rule : InfixRule} (hrule : p.current.kind.infixRule? = some rule) :
    (continuing nested left power rule).Makes T p fun e _ => e.BuiltFrom T := by
  have hk : p.current.kind ∈ Kind.binaryOperators ∧ rule = .binary ∨
      p.current.kind = .openParen ∧ rule = .call := by
    cases hkind : p.current.kind <;> rw [hkind] at hrule <;> cases hrule <;> decide
  rcases hk with ⟨hk, rfl⟩ | ⟨hk, rfl⟩
  · exact makes_binary hn hp hk hleft power
  · exact makes_call hn hp hk hleft

theorem makes_continuedWithin (hp : p.Ahead T) (power : Power) (n : Nat) {left : Expr}
    (hleft : left.BuiltFrom T) :
    (continuedWithin nested power n left).Makes T p fun e _ => e.BuiltFrom T := by
  induction n generalizing p left with
  | zero => exact makes_pure hp hleft
  | succ n ih =>
    refine makes_peek_bind ?_
    split
    · refine makes_peek_bind ?_
      cases hrule : p.peek.kind.infixRule? with
      | none => exact makes_pure hp hleft
      | some rule =>
        exact makes_advance_bind <| makes_current_bind <|
          (makes_continuing hn hp.advance hleft _ hrule).bind fun _ _ hq he => ih hq he
    · exact makes_pure hp hleft

variable (hs : ∀ power, (nested power).Steady)
include hs

theorem makes_block (hp : p.Ahead T) (hk : p.current.kind = .openCurly) :
    (always (block nested)).Makes T p fun b _ => b.BuiltFrom T := by
  have hstatement := steady_statement hs
  have hall := makes_collectAll hp.advance endsBlock hstatement rfl (makes_statement hn)
  intro b q h
  obtain ⟨hq, -⟩ := makes_of_steady hp (steady_block hs) b q h
  refine ⟨hq, ?_⟩
  cases h
  exact ⟨hp.current hk (by decide), hk, builtFromBody_iff.2 hall⟩

theorem makes_alternative (hp : p.Ahead T) :
    (alternative nested).Makes T p fun b _ => BuiltFromElse T b := by
  refine makes_peek_bind ?_
  split
  · exact makes_advance_bind <| (makes_expect hp.advance _).bind fun _ _ hq hk =>
      (makes_block hn hs hq hk).bind fun _ _ hr hb => makes_pure hr hb
  · exact makes_pure hp trivial

theorem makes_conditional (hp : p.Ahead T) (hk : p.current.kind = .ifKeyword) :
    (conditional nested).Makes T p fun e _ => e.BuiltFrom T :=
  makes_current_bind <| (makes_expect hp _).bind fun _ _ hq _ => makes_advance_bind <|
    (hn _ hq.advance).bind fun _ _ hr hcondition => (makes_expect hr _).bind fun _ _ hu _ =>
      (makes_expect hu _).bind fun _ _ hv hkv => (makes_block hn hs hv hkv).bind
        fun _ _ hw hblock => (makes_alternative hn hs hw).bind fun _ _ hx helse =>
          makes_pure hx ⟨hp.current hk (by decide), hk, hcondition, hblock, helse⟩

theorem makes_function (hp : p.Ahead T) (hk : p.current.kind = .fnKeyword) :
    (function nested).Makes T p fun e _ => e.BuiltFrom T :=
  makes_current_bind <| (makes_expect hp _).bind fun _ _ hq _ => (makes_parameters hq).bind
    fun _ _ hr hnames => (makes_expect hr _).bind fun _ _ hu hku =>
      (makes_block hn hs hu hku).bind fun _ _ hv hbody =>
        makes_pure hv ⟨hp.current hk (by decide), hk, hnames, hbody⟩

theorem makes_start (hp : p.Ahead T) : (start nested).Makes T p fun e _ => e.BuiltFrom T := by
  refine makes_current_bind ?_
  cases hkind : p.current.kind.prefixRule? with
  | none =>
    dsimp only
    split <;> exact makes_fail
  | some rule =>
    cases hk : p.current.kind <;> rw [hk] at hkind <;> cases hkind
    · exact makes_identifier hp hk
    · exact makes_integer hp hk
    · exact makes_grouping hn hp
    · exact makes_unary hn hp (by rw [hk]; decide)
    · exact makes_unary hn hp (by rw [hk]; decide)
    · exact makes_function hn hs hp hk
    · exact makes_conditional hn hs hp hk
    · exact makes_boolean hp (.inl hk)
    · exact makes_boolean hp (.inr hk)

theorem makes_expression (hp : p.Ahead T) (power : Power) :
    (expression nested power).Makes T p fun e _ => e.BuiltFrom T :=
  (makes_start hn hs hp).bind fun _ _ hq hleft => makes_get_bind <|
    makes_continuedWithin hn hq power _ hleft

end

end Rule

/-! ## The parser -/

theorem Parser.makes_expressionWithin (room : Nat) (power : Power) {p : Parser} (hp : p.Ahead T) :
    (expressionWithin room power).Makes T p fun e _ => e.BuiltFrom T := by
  induction room generalizing power p with
  | zero => exact makes_fail
  | succ room ih =>
    exact makes_enclosed hp fun hq =>
      Rule.makes_expression (fun power _ hr => ih power hr) (steady_expressionWithin room) hq power

theorem Parser.makes_loggedStatement (hp : p.Ahead T) :
    loggedStatement.Makes T p fun s _ => s.BuiltFrom T :=
  (Rule.makes_statement (fun power _ hq => makes_expressionWithin _ power hq) hp).bind
    fun _ _ hq h => makes_after hq (steady_of_update (precedes_note _)) fun _ _ hr =>
      makes_pure hr h

theorem builtFrom_of_ahead {source : String} {file : Option String} {options : Options}
    (h : (Parser.opened source file options).Ahead T) :
    (parse source file options).program.BuiltFrom T := by
  rw [parse_eq_collectAll]
  exact builtFromBody_iff.2 <| makes_collectAll h _ Parser.steady_loggedStatement rfl
    Parser.makes_loggedStatement

/-- The program of a source is built from its tokens, which are spelled as they have to be. -/
theorem builtFrom_parse (source : String) (file : Option String) (options : Options) :
    (parse source file options).program.BuiltFrom fun t =>
      t ∈ (tokenize source file).dropLast ∧ (t.kind ≠ .illegal → t.isSpelled = true) :=
  builtFrom_of_ahead fun t ht => ⟨dropLast_tokenize source file options ▸ ht,
    Parser.spelled_opened source file options t ht⟩

end ExprLang
