import ExprLang.Proofs.Parser.SpareFuel
import ExprLang.Proofs.Tree.Relocation

/-!
# Two runs in lockstep

Parsers that see corresponding tokens do corresponding things. A `View` says what corresponds: how
a position of the first run is moved in the second one, which token streams are at corresponding
tokens (`here`), which see the same behind them as well (`sees`), and which records agree. Once the
first run has recorded that it is `lost`, nothing is said about the second. `View.Lawful` has one
clause for each thing that a step can do, and one for blocks, which look for a token of their own.
Two runs `Agree` if they give the same result, moved, and end at corresponding tokens. Main
statement (`View.Lawful.agrees_loggedStatement`): statements agree under every lawful view.

No step but a block looks behind a semicolon or a closing brace, so two runs may differ there: a view
has to relate only what is behind other tokens (`sees_of_here`).
-/

set_option autoImplicit false

namespace ExprLang

open Step

/-! ## Views -/

/-- The tokens that a step does not look behind. -/
def Kind.endsStatement (k : Kind) : Bool := k == .semicolon || k == .closeCurly

/-- The fault says that a closing brace is missing. -/
def Fault.missesBrace : Fault → Bool
  | .unexpectedToken .closeCurly _ _ => true
  | _ => false

theorem Fault.not_missesBrace {expected found : Kind} {token : String}
    (h : expected ≠ .closeCurly) : (unexpectedToken expected found token).missesBrace = false := by
  cases expected <;> first | rfl | exact absurd rfl h

/-- What corresponds in two runs (module doc). -/
structure View where
  move : Position → Position
  here : TokenStream → TokenStream → Prop
  sees : TokenStream → TokenStream → Prop
  recorded : List Diagnostic → List Diagnostic → Prop
  lost : List Diagnostic → Prop

namespace View

variable {α β α' β' : Type}

section
variable (v : View)

/-- The parsers are at streams that are related so, and otherwise in corresponding states. -/
structure At (near : TokenStream → TokenStream → Prop) (p q : Parser) : Prop where
  stream : near p.stream q.stream
  options : q.options = p.options
  depth : q.depth = p.depth
  recorded : v.recorded p.recorded q.recorded

/-- How two runs of a step end. -/
inductive Agrees (move : α → β) (near : TokenStream → TokenStream → Prop) :
    Option α × Parser → Option β × Parser → Prop
  | done {p q : Parser} {a : α} : v.At near p q → Agrees move near (some a, p) (some (move a), q)
  | failed {p q : Parser} : v.At v.here p q → Agrees move near (none, p) (none, q)
  | lost {r : Option α × Parser} {s : Option β × Parser} : v.lost r.2.recorded →
      Agrees move near r s

/-- What a view has to keep. -/
structure Lawful : Prop where
  here_of_sees {s t : TokenStream} : v.sees s t → v.here s t
  sees_of_here {s t : TokenStream} :
    v.here s t → s.current.kind.endsStatement = false → v.sees s t
  current {s t : TokenStream} : v.here s t → t.current = s.current.relocate v.move
  peek {s t : TokenStream} : v.sees s t → t.peek = s.peek.relocate v.move
  advance {s t : TokenStream} : v.sees s t → v.here s.advance t.advance
  record {ds es : List Diagnostic} {d : Diagnostic} : v.recorded ds es →
    d.fault.missesBrace = false → v.recorded (d :: ds) (d.relocate v.move :: es)
  lost {ds es : List Diagnostic} : ds <:+ es → v.lost ds → v.lost es
  block {nested : Power → Step Expr} {p q : Parser} : (∀ power, (nested power).Steady) →
    (∀ {p q : Parser}, v.At v.here p q →
      v.Agrees (Stmt.relocate v.move) v.here (Rule.statement nested p) (Rule.statement nested q)) →
    v.At v.sees p q → p.current.kind = .openCurly →
    v.Agrees (Block.relocate v.move) v.sees (always (Rule.block nested) p)
      (always (Rule.block nested) q)

end

variable {v : View} {near mid : TokenStream → TokenStream → Prop} {p q : Parser}

/-! ## Corresponding states -/

namespace At

theorem deepen (h : v.At near p q) : v.At near p.deepen q.deepen :=
  ⟨h.stream, h.options, congrArg (· + 1) h.depth, h.recorded⟩

theorem leave (h : v.At near p q) : v.At near p.leave q.leave :=
  ⟨h.stream, h.options, congrArg (· - 1) h.depth, h.recorded⟩

theorem note (h : v.At near p q) (e e' : Event) : v.At near (p.note e) (q.note e') :=
  ⟨h.stream, h.options, h.depth, h.recorded⟩

end At

theorem Agrees.pure {move : α → β} {a : α} {b : β} (h : v.At near p q) (hb : b = move a) :
    v.Agrees move near ((Pure.pure a : Step α) p) ((Pure.pure b : Step β) q) := by
  rw [hb]
  exact .done h

theorem Agrees.get_bind {move : α → β} {f : Parser → Step α} {f' : Parser → Step β}
    (h : v.Agrees move near (f p p) (f' q q)) :
    v.Agrees move near ((get >>= f) p) ((get >>= f') q) := h

namespace Lawful

variable (L : v.Lawful)
include L

theorem here (h : v.At v.sees p q) : v.At v.here p q :=
  ⟨L.here_of_sees h.stream, h.options, h.depth, h.recorded⟩

theorem sees (h : v.At v.here p q) (hk : p.current.kind.endsStatement = false) :
    v.At v.sees p q :=
  ⟨L.sees_of_here h.stream hk, h.options, h.depth, h.recorded⟩

theorem current_eq (h : v.At v.here p q) : q.current = p.current.relocate v.move :=
  L.current h.stream

theorem peek_eq (h : v.At v.sees p q) : q.peek = p.peek.relocate v.move := L.peek h.stream

theorem at_advance (h : v.At v.sees p q) : v.At v.here p.advance q.advance :=
  ⟨L.advance h.stream, h.options, h.depth, h.recorded⟩

theorem recordAt (h : v.At near p q) {fault : Fault} (hf : fault.missesBrace = false)
    (position : Position) :
    v.At near (p.recordAt fault position) (q.recordAt fault (v.move position)) :=
  ⟨h.stream, h.options, h.depth, @record v L _ _ ⟨fault, position⟩ h.recorded hf⟩

/-- What is recorded at the current tokens agrees, whatever else the streams agree on. -/
theorem record_current (h : v.At near p q) (hc : v.At v.here p q) {fault : Fault}
    (hf : fault.missesBrace = false) : v.At near (p.record fault) (q.record fault) := by
  have hq : q.position = v.move p.position := by
    rw [Parser.position, L.current_eq hc]
    rfl
  rw [Parser.record, Parser.record, hq]
  exact L.recordAt h hf _

/-! ## Basic steps -/

section
variable {move : α → β} {f : Token → Step α} {f' : Token → Step β}

theorem current_bind (h : v.At v.here p q)
    (hf : v.Agrees move near (f p.current p) (f' (p.current.relocate v.move) q)) :
    v.Agrees move near ((Step.current >>= f) p) ((Step.current >>= f') q) := by
  rw [← L.current_eq h] at hf
  exact hf

theorem peek_bind (h : v.At v.sees p q)
    (hf : v.Agrees move near (f p.peek p) (f' (p.peek.relocate v.move) q)) :
    v.Agrees move near ((Step.peek >>= f) p) ((Step.peek >>= f') q) := by
  rw [← L.peek_eq h] at hf
  exact hf

theorem agrees_fail (h : v.At v.here p q) {fault : Fault} (hf : fault.missesBrace = false) :
    v.Agrees move near ((fail fault : Step α) p) ((fail fault : Step β) q) := by
  rw [fail, fail]
  exact .failed (L.record_current h h hf)

variable {k : Unit → Step α} {k' : Unit → Step β}

theorem advance_bind (h : v.At v.sees p q)
    (hk : v.At v.here p.advance q.advance →
      v.Agrees move near (k () p.advance) (k' () q.advance)) :
    v.Agrees move near ((Step.advance >>= k) p) ((Step.advance >>= k') q) :=
  hk (L.at_advance h)

theorem expect_bind_here {kind : Kind} (h : v.At v.sees p q) (hne : kind ≠ .closeCurly)
    (hk : p.peek.kind = kind → v.At v.here p.advance q.advance →
      v.Agrees move near (k () p.advance) (k' () q.advance)) :
    v.Agrees move near ((expect kind >>= k) p) ((expect kind >>= k') q) := by
  have hpeek := L.peek_eq h
  by_cases hp : p.peek.kind = kind
  · have hq : q.peek.kind = kind := by rw [hpeek]; exact hp
    have hpe : expect kind p = (some (), p.advance) := if_pos hp
    have hqe : expect kind q = (some (), q.advance) := if_pos hq
    rw [bind_of_some hpe, bind_of_some hqe]
    exact hk hp (L.at_advance h)
  · have hq : ¬ q.peek.kind = kind := by rw [hpeek]; exact hp
    rw [bind_of_none (if_neg hp), bind_of_none (if_neg hq), hpeek]
    exact .failed (L.recordAt (L.here h) (Fault.not_missesBrace hne) _)

/-- Where the expected token ends no statement, the tokens behind it correspond as well. -/
theorem expect_bind {kind : Kind} (h : v.At v.sees p q) (hkind : kind.endsStatement = false)
    (hk : p.peek.kind = kind → v.At v.sees p.advance q.advance →
      v.Agrees move near (k () p.advance) (k' () q.advance)) :
    v.Agrees move near ((expect kind >>= k) p) ((expect kind >>= k') q) := by
  have hne : kind ≠ .closeCurly := by
    rintro rfl
    cases hkind
  refine L.expect_bind_here h hne fun hp h => hk hp (L.sees h ?_)
  rw [Parser.current_advance, hp, hkind]

theorem agrees_skip {kind : Kind} (h : v.At v.sees p q) :
    v.Agrees id v.here (update (Parser.skip kind) p) (update (Parser.skip kind) q) := by
  have hpeek := L.peek_eq h
  rw [update, update, Parser.skip, Parser.skip, hpeek]
  by_cases hp : p.peek.kind = kind
  · rw [if_pos hp, if_pos (show (p.peek.relocate v.move).kind = kind from hp)]
    exact .done (L.at_advance h)
  · rw [if_neg hp, if_neg (show ¬ (p.peek.relocate v.move).kind = kind from hp)]
    exact .done (L.here h)

end

/-! ## Steps in sequence -/

theorem bind {move : α → β} {ψ : α' → β'} {m : Step α} {m' : Step β} {f : α → Step α'}
    {f' : β → Step β'} (hm : v.Agrees move mid (m p) (m' q)) (hs : ∀ a, (f a).Steady)
    (hf : ∀ {a : α} {p q : Parser}, v.At mid p q → v.Agrees ψ near (f a p) (f' (move a) q)) :
    v.Agrees ψ near ((m >>= f) p) ((m' >>= f') q) := by
  rw [bind_apply, bind_apply]
  generalize m p = r, m' q = s at hm
  cases hm with
  | done h => exact hf h
  | failed h => exact .failed h
  | lost h =>
    -- what is recorded stays recorded
    refine .lost ?_
    rcases r with ⟨_ | a, p'⟩
    · exact h
    · exact L.lost ((hs a).precedes p').recorded h

/-! ## Words, numbers and terminators -/

theorem agrees_identifier (h : v.At v.sees p q) :
    v.Agrees (Expr.relocate v.move) v.sees (Rule.identifier p) (Rule.identifier q) := by
  rw [Rule.identifier]
  exact L.current_bind (L.here h) (.pure h rfl)

theorem agrees_integer (h : v.At v.sees p q) :
    v.Agrees (Expr.relocate v.move) v.sees (Rule.integer p) (Rule.integer q) := by
  rw [Rule.integer]
  refine L.current_bind (L.here h) ?_
  rw [Token.literal_relocate]
  cases Text.readInt64? p.current.literal.toList with
  | some value => exact .pure h rfl
  | none =>
    exact .pure (L.record_current h (L.here h) rfl) rfl

theorem agrees_boolean (h : v.At v.sees p q) :
    v.Agrees (Expr.relocate v.move) v.sees (Rule.boolean p) (Rule.boolean q) := by
  rw [Rule.boolean]
  exact L.current_bind (L.here h) (.pure h rfl)

theorem agrees_terminator (h : v.At v.sees p q) :
    v.Agrees id v.here (Rule.terminator p) (Rule.terminator q) := by
  have hp : Rule.terminator p = (if p.options.requireSemicolons then expect .semicolon
    else update (Parser.skip .semicolon)) p := rfl
  have hq : Rule.terminator q = (if p.options.requireSemicolons then expect .semicolon
    else update (Parser.skip .semicolon)) q := by rw [← h.options]; rfl
  rw [hp, hq]
  by_cases hr : p.options.requireSemicolons = true
  · rw [if_pos hr, ← Step.bind_pure (expect _)]
    exact L.expect_bind_here h (by decide) fun _ h => .pure h rfl
  · rw [if_neg hr]
    exact L.agrees_skip h

/-! ## Parameters -/

theorem agrees_parametersWithin (n : Nat) (h : v.At v.sees p q) :
    v.Agrees (List.map (Identifier.relocate v.move)) v.sees (Rule.parametersWithin n p)
      (Rule.parametersWithin n q) := by
  induction n generalizing p q with
  | zero => exact L.expect_bind h rfl fun _ h => .pure h rfl
  | succ n ih =>
    rw [Rule.parametersWithin]
    refine L.expect_bind h rfl fun _ h => L.current_bind (L.here h) ?_
    refine L.advance_bind h fun h => L.current_bind h ?_
    rw [Token.kind_relocate, Token.literal_relocate]
    have hs (hk : (p.advance.advance.current).kind.endsStatement = false) := L.sees h hk
    cases hk : p.advance.advance.current.kind with
    | comma =>
      refine L.bind (ih (hs (by rw [hk]; rfl))) (fun _ => steady_pure _) fun h => ?_
      exact .pure h rfl
    | closeParen => exact .pure (hs (by rw [hk]; rfl)) rfl
    | _ => exact L.agrees_fail h rfl

theorem agrees_parameters (h : v.At v.sees p q) :
    v.Agrees (List.map (Identifier.relocate v.move)) v.sees (Rule.parameters p)
      (Rule.parameters q) := by
  rw [Rule.parameters]
  refine L.peek_bind h ?_
  rw [Token.kind_relocate]
  by_cases hk : p.peek.kind = .closeParen
  · rw [if_pos hk]
    refine L.advance_bind h fun h => .pure (L.sees h ?_) rfl
    rw [Parser.current_advance, hk]
    rfl
  · rw [if_neg hk]
    have hmore := L.agrees_parametersWithin (max p.tokensLeft q.tokensLeft) h
    rw [← Rule.parametersWithin_eq (Nat.le_refl _) (Nat.le_max_left _ q.tokensLeft),
      ← Rule.parametersWithin_eq (Nat.le_refl _) (Nat.le_max_right p.tokensLeft _)] at hmore
    exact .get_bind hmore

/-! ## Rules with expressions inside -/

section
variable {nested : Power → Step Expr} (hn : ∀ power {p q : Parser}, v.At v.here p q →
  v.Agrees (Expr.relocate v.move) v.sees (nested power p) (nested power q))
include hn

theorem agrees_binding (h : v.At v.sees p q) :
    v.Agrees (Stmt.relocate v.move) v.here (Rule.binding nested p) (Rule.binding nested q) := by
  rw [Rule.binding]
  refine L.current_bind (L.here h) (L.expect_bind h rfl fun _ h => ?_)
  refine L.current_bind (L.here h) (L.expect_bind h rfl fun _ h => ?_)
  refine L.advance_bind h fun h => ?_
  refine L.bind (hn _ h) (fun _ => Rule.steady_terminator.bind fun _ => steady_pure _) fun h => ?_
  refine L.bind (L.agrees_terminator h) (fun _ => steady_pure _) fun h => ?_
  exact .pure h rfl

theorem agrees_result (h : v.At v.sees p q) :
    v.Agrees (Stmt.relocate v.move) v.here (Rule.result nested p) (Rule.result nested q) := by
  rw [Rule.result]
  refine L.current_bind (L.here h) (L.advance_bind h fun h => ?_)
  refine L.bind (hn _ h) (fun _ => Rule.steady_terminator.bind fun _ => steady_pure _) fun h => ?_
  refine L.bind (L.agrees_terminator h) (fun _ => steady_pure _) fun h => ?_
  exact .pure h rfl

theorem agrees_expressionStatement (h : v.At v.here p q) :
    v.Agrees (Stmt.relocate v.move) v.here (Rule.expressionStatement nested p)
      (Rule.expressionStatement nested q) := by
  rw [Rule.expressionStatement]
  refine L.current_bind h ?_
  refine L.bind (hn _ h) (fun _ => (steady_skip _).bind fun _ => steady_pure _) fun h => ?_
  refine L.bind (L.agrees_skip h) (fun _ => steady_pure _) fun h => ?_
  exact .pure h rfl

theorem agrees_statement (h : v.At v.here p q) :
    v.Agrees (Stmt.relocate v.move) v.here (Rule.statement nested p)
      (Rule.statement nested q) := by
  rw [Rule.statement]
  refine L.current_bind h ?_
  rw [Token.kind_relocate]
  cases hk : p.current.kind.statementRule? with
  | none => exact L.agrees_expressionStatement hn h
  | some rule =>
    have hsees : v.At v.sees p q := by
      refine L.sees h ?_
      revert hk
      cases p.current.kind <;> simp [Kind.statementRule?, Kind.endsStatement]
    cases rule with
    | binding => exact L.agrees_binding hn hsees
    | result => exact L.agrees_result hn hsees

theorem agrees_unary (h : v.At v.sees p q) :
    v.Agrees (Expr.relocate v.move) v.sees (Rule.unary nested p) (Rule.unary nested q) := by
  rw [Rule.unary]
  refine L.current_bind (L.here h) (L.advance_bind h fun h => ?_)
  refine L.bind (hn _ h) (fun _ => steady_pure _) fun h => ?_
  exact .pure h rfl

theorem agrees_grouping (h : v.At v.sees p q) :
    v.Agrees (Expr.relocate v.move) v.sees (Rule.grouping nested p) (Rule.grouping nested q) := by
  rw [Rule.grouping]
  refine L.advance_bind h fun h => ?_
  refine L.bind (hn _ h) (fun _ => (steady_expect _).bind fun _ => steady_pure _) fun h => ?_
  exact L.expect_bind h rfl fun _ h => .pure h rfl

theorem agrees_binary (left : Expr) (power : Power) (h : v.At v.sees p q) :
    v.Agrees (Expr.relocate v.move) v.sees (Rule.binary nested left power p)
      (Rule.binary nested (left.relocate v.move) power q) := by
  rw [Rule.binary, Rule.binary]
  refine L.current_bind (L.here h) (L.advance_bind h fun h => ?_)
  refine L.bind (hn _ h) (fun _ => steady_pure _) fun h => ?_
  exact .pure h rfl

variable (hs : ∀ power, (nested power).Steady)
include hs

theorem agrees_block (h : v.At v.sees p q) (hk : p.current.kind = .openCurly) :
    v.Agrees (Block.relocate v.move) v.sees (always (Rule.block nested) p)
      (always (Rule.block nested) q) :=
  L.block hs (L.agrees_statement hn) h hk

theorem agrees_alternative (h : v.At v.sees p q) :
    v.Agrees (Option.map (Block.relocate v.move)) v.sees (Rule.alternative nested p)
      (Rule.alternative nested q) := by
  rw [Rule.alternative]
  refine L.peek_bind h ?_
  rw [Token.kind_relocate]
  by_cases hk : p.peek.kind = .elseKeyword
  · rw [if_pos hk]
    refine L.advance_bind h fun h => ?_
    have h : v.At v.sees p.advance q.advance := L.sees h (by rw [Parser.current_advance, hk]; rfl)
    refine L.expect_bind h rfl fun hk h => ?_
    refine L.bind (L.agrees_block hn hs h hk) (fun _ => steady_pure _) fun h => ?_
    exact .pure h rfl
  · rw [if_neg hk]
    exact .pure h rfl

theorem agrees_conditional (h : v.At v.sees p q) :
    v.Agrees (Expr.relocate v.move) v.sees (Rule.conditional nested p)
      (Rule.conditional nested q) := by
  have hother := Rule.steady_alternative hs
  have hblock := Rule.steady_block hs
  rw [Rule.conditional]
  refine L.current_bind (L.here h) (L.expect_bind h rfl fun _ h => L.advance_bind h fun h => ?_)
  refine L.bind (hn _ h) (fun _ => (steady_expect _).bind fun _ => (steady_expect _).bind fun _ =>
    hblock.bind fun _ => hother.bind fun _ => steady_pure _) fun h => ?_
  refine L.expect_bind h rfl fun _ h => L.expect_bind h rfl fun hk h => ?_
  refine L.bind (L.agrees_block hn hs h hk) (fun _ => hother.bind fun _ => steady_pure _)
    fun h => ?_
  refine L.bind (L.agrees_alternative hn hs h) (fun _ => steady_pure _) fun h => ?_
  exact .pure h (Expr.relocate_conditional _ _ _ _ _).symm

theorem agrees_function (h : v.At v.sees p q) :
    v.Agrees (Expr.relocate v.move) v.sees (Rule.function nested p) (Rule.function nested q) := by
  have hblock := Rule.steady_block hs
  rw [Rule.function]
  refine L.current_bind (L.here h) (L.expect_bind h rfl fun _ h => ?_)
  refine L.bind (L.agrees_parameters h) (fun _ => (steady_expect _).bind fun _ =>
    hblock.bind fun _ => steady_pure _) fun h => ?_
  refine L.expect_bind h rfl fun hk h => ?_
  refine L.bind (L.agrees_block hn hs h hk) (fun _ => steady_pure _) fun h => ?_
  exact .pure h rfl

theorem agrees_starting (rule : PrefixRule) (h : v.At v.sees p q) :
    v.Agrees (Expr.relocate v.move) v.sees (Rule.starting nested rule p)
      (Rule.starting nested rule q) := by
  cases rule with
  | identifier => exact L.agrees_identifier h
  | integer => exact L.agrees_integer h
  | boolean => exact L.agrees_boolean h
  | unary => exact L.agrees_unary hn h
  | grouping => exact L.agrees_grouping hn h
  | conditional => exact L.agrees_conditional hn hs h
  | function => exact L.agrees_function hn hs h

theorem agrees_start (h : v.At v.here p q) :
    v.Agrees (Expr.relocate v.move) v.sees (Rule.start nested p) (Rule.start nested q) := by
  rw [Rule.start]
  refine L.current_bind h ?_
  rw [Token.kind_relocate, Token.literal_relocate]
  cases hk : p.current.kind.prefixRule? with
  | some rule =>
    refine L.agrees_starting hn hs rule (L.sees h ?_)
    revert hk
    cases p.current.kind <;> simp [Kind.prefixRule?, Kind.endsStatement]
  | none =>
    dsimp only
    by_cases hi : p.current.kind = .illegal
    · rw [if_pos hi]
      exact L.agrees_fail h rfl
    · rw [if_neg hi]
      exact L.agrees_fail h rfl

/-! ## What continues an expression -/

theorem agrees_argumentsWithin (n : Nat) (h : v.At v.sees p q) :
    v.Agrees (List.map (Expr.relocate v.move)) v.sees (Rule.argumentsWithin nested n p)
      (Rule.argumentsWithin nested n q) := by
  induction n generalizing p q with
  | zero => exact L.expect_bind h rfl fun _ h => .pure h rfl
  | succ n ih =>
    rw [Rule.argumentsWithin]
    refine L.peek_bind h ?_
    rw [Token.kind_relocate]
    by_cases hk : p.peek.kind = .comma
    · rw [if_pos hk]
      refine L.advance_bind h fun h => ?_
      have h : v.At v.sees p.advance q.advance := L.sees h (by rw [Parser.current_advance, hk]; rfl)
      refine L.advance_bind h fun h => ?_
      refine L.bind (hn _ h) (fun _ => (Rule.steady_argumentsWithin hs n).bind fun _ =>
        steady_pure _) fun h => ?_
      refine L.bind (ih h) (fun _ => steady_pure _) fun h => ?_
      exact .pure h rfl
    · rw [if_neg hk]
      exact L.expect_bind h rfl fun _ h => .pure h rfl

theorem agrees_arguments (h : v.At v.sees p q) :
    v.Agrees (List.map (Expr.relocate v.move)) v.sees (Rule.arguments nested p)
      (Rule.arguments nested q) := by
  rw [Rule.arguments]
  refine L.advance_bind h fun h => L.current_bind h ?_
  rw [Token.kind_relocate]
  by_cases hk : p.advance.current.kind = .closeParen
  · rw [if_pos hk]
    exact .pure (L.sees h (by rw [hk]; rfl)) rfl
  · rw [if_neg hk]
    refine L.bind (hn _ h) (fun _ => steady_get.bind fun _ =>
      (Rule.steady_argumentsWithin hs _).bind fun _ => steady_pure _) fun {first p q} h => ?_
    have hmore := L.agrees_argumentsWithin hn hs (max p.tokensLeft q.tokensLeft) h
    rw [← Rule.argumentsWithin_eq hs (Nat.le_refl _) (Nat.le_max_left _ q.tokensLeft),
      ← Rule.argumentsWithin_eq hs (Nat.le_refl _) (Nat.le_max_right p.tokensLeft _)] at hmore
    exact .get_bind (L.bind hmore (fun _ => steady_pure _) fun h => .pure h rfl)

theorem agrees_call (callee : Expr) (h : v.At v.sees p q) :
    v.Agrees (Expr.relocate v.move) v.sees (Rule.call nested callee p)
      (Rule.call nested (callee.relocate v.move) q) := by
  rw [Rule.call, Rule.call]
  refine L.current_bind (L.here h) ?_
  refine L.bind (L.agrees_arguments hn hs h) (fun _ => steady_pure _) fun h => ?_
  exact .pure h (Expr.relocate_call _ _ _ _).symm

theorem agrees_continuing (left : Expr) (power : Power) (rule : InfixRule)
    (h : v.At v.sees p q) :
    v.Agrees (Expr.relocate v.move) v.sees (Rule.continuing nested left power rule p)
      (Rule.continuing nested (left.relocate v.move) power rule q) := by
  cases rule with
  | binary => exact L.agrees_binary hn left power h
  | call => exact L.agrees_call hn hs left h

theorem agrees_continuedWithin (power : Power) (n : Nat) (left : Expr) (h : v.At v.sees p q) :
    v.Agrees (Expr.relocate v.move) v.sees (Rule.continuedWithin nested power n left p)
      (Rule.continuedWithin nested power n (left.relocate v.move) q) := by
  induction n generalizing left p q with
  | zero => exact .done h
  | succ n ih =>
    have hpeek : q.peek.kind = p.peek.kind := by rw [L.peek_eq h, Token.kind_relocate]
    by_cases hlt : power < p.peek.kind.power
    · have hsome : p.peek.kind.infixRule?.isSome = true :=
        Kind.isSome_infixRule?.2 (Nat.lt_of_le_of_lt (Nat.zero_le _) hlt)
      obtain ⟨rule, hrule⟩ := Option.isSome_iff_exists.1 hsome
      have hends : p.advance.current.kind.endsStatement = false := by
        rw [Parser.current_advance]
        revert hrule
        cases p.peek.kind <;> simp [Kind.infixRule?, Kind.endsStatement]
      rw [Rule.continuedWithin_succ hlt hrule,
        Rule.continuedWithin_succ (by rwa [hpeek]) (by rwa [hpeek]), hpeek]
      have h : v.At v.sees p.advance q.advance := L.sees (L.at_advance h) hends
      exact L.bind (L.agrees_continuing hn hs left _ rule h)
        (fun _ => Rule.steady_continuedWithin hs _ _ _) fun h => ih _ h
    · rw [Rule.continuedWithin_of_not_lt hlt, Rule.continuedWithin_of_not_lt (by rwa [hpeek])]
      exact .done h

theorem agrees_expression (power : Power) (h : v.At v.here p q) :
    v.Agrees (Expr.relocate v.move) v.sees (Rule.expression nested power p)
      (Rule.expression nested power q) := by
  rw [Rule.expression]
  refine L.bind (L.agrees_start hn hs h) (fun _ => steady_get.bind fun _ =>
    Rule.steady_continuedWithin hs _ _ _) fun {left p q} h => ?_
  have hmore := L.agrees_continuedWithin hn hs power (max p.tokensLeft q.tokensLeft) left h
  rw [← Rule.continuedWithin_eq hs (Nat.le_refl _) (Nat.le_max_left _ q.tokensLeft),
    ← Rule.continuedWithin_eq hs (Nat.le_refl _) (Nat.le_max_right p.tokensLeft _)] at hmore
  exact .get_bind hmore

end

/-! ## The parser -/

theorem agrees_enclosed {move : α → β} {step : Step α} {step' : Step β} (h : v.At v.here p q)
    (hs : v.At v.here p.deepen q.deepen →
      v.Agrees move near (step p.deepen) (step' q.deepen)) :
    v.Agrees move near (enclosed step p) (enclosed step' q) := by
  by_cases hd : p.depth < maxNestingDepth
  · rw [enclosed_of_lt hd, enclosed_of_lt (by rwa [h.depth])]
    have hr := hs h.deepen
    generalize step p.deepen = r, step' q.deepen = s at hr
    cases hr with
    | done h => exact .done h.leave
    | failed h => exact .failed h.leave
    | lost h => exact .lost h
  · rw [enclosed_of_not_lt hd, enclosed_of_not_lt (by rwa [h.depth])]
    exact L.agrees_fail h rfl

theorem agrees_expressionWithin (room : Nat) (power : Power) (h : v.At v.here p q) :
    v.Agrees (Expr.relocate v.move) v.sees (Parser.expressionWithin room power p)
      (Parser.expressionWithin room power q) := by
  induction room generalizing power p q with
  | zero => exact L.agrees_fail h rfl
  | succ room ih =>
    rw [Parser.expressionWithin]
    refine L.agrees_enclosed h fun h => ?_
    exact L.agrees_expression (fun power _ _ h => ih power h)
      (Parser.steady_expressionWithin room) power h

theorem agrees_loggedStatement (h : v.At v.here p q) :
    v.Agrees (Stmt.relocate v.move) v.here (Parser.loggedStatement p)
      (Parser.loggedStatement q) := by
  rw [Parser.loggedStatement]
  refine L.bind (L.agrees_statement (fun power _ _ h => L.agrees_expressionWithin _ power h) h)
    (fun _ => (steady_of_update fun p => Parser.precedes_note _ p).bind fun _ => steady_pure _)
    fun h => ?_
  exact .pure (h.note _ _) rfl

end Lawful

end View

end ExprLang
