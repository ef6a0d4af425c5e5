import ExprLang.Proofs.Parser.Cursor
import ExprLang.Proofs.Parser.Lockstep

/-!
# No silent failure

A step that fails has recorded why, as its last error, and that is neither a number that is out of
range nor a missing brace, since the parse goes on behind both. Unless the step comes to a block it
records nothing else but such numbers: a block is the only place inside a statement where the parse
goes on behind an error.

`Tally` counts what a run of the cursor has passed and recorded since it started, and each move
keeps it (`Tallied.move`). Main statement (`no_silent_failure`): every rule accounts for its
failures, at whatever token of whatever parser it starts.
-/

set_option autoImplicit false

namespace ExprLang

open Cursor

/-- A number is out of range. -/
def Fault.isNumber : Fault → Bool
  | invalidNumber _ => true
  | _ => false

/-- No block is opened among the tokens. -/
def Unbraced (tokens : List Token) : Prop := ∀ t ∈ tokens, t.kind ≠ .openCurly

/-- A run with this result, that came to the tokens `entered`, has to have added such errors. -/
structure Accounted {α : Type} (result : Option α) (entered : List Token)
    (added : List Diagnostic) : Prop where
  failure : result = none → ∃ before last, added = before ++ [last] ∧
    last.fault.isNumber = false ∧ last.fault.missesBrace = false
  unbraced_success : Unbraced entered → result.isSome = true →
    ∀ d ∈ added, d.fault.isNumber = true
  unbraced_failure : Unbraced entered → result = none → ∃ before last, added = before ++ [last] ∧
    (∀ d ∈ before, d.fault.isNumber = true) ∧ last.fault.isNumber = false

/--
From whatever parser the step is run, the errors that it adds account for its result. Both lists are
determined by where the step ends.
-/
def Step.Accounts {α : Type} (m : Step α) : Prop :=
  ∀ p, ∃ entered added, p.rest = entered ++ (m p).2.rest ∧
    (m p).2.errors = p.errors ++ added ∧ Accounted (m p).1 entered added

theorem Unbraced.left {front behind : List Token} (h : Unbraced (front ++ behind)) :
    Unbraced front :=
  fun t ht => h t (List.mem_append_left _ ht)

/-! ## Moves of the cursor -/

/-- The errors that are left if the one is taken away at which the cursor is stuck. -/
def Stage.passed (s : Stage) (added : List Diagnostic) : List Diagnostic :=
  match s with
  | .stuck => added.tail
  | .fresh | .taken => added

theorem Stage.passed_of_ne_stuck {s : Stage} (hs : s ≠ .stuck) (added : List Diagnostic) :
    s.passed added = added := by
  cases s with
  | stuck => exact absurd rfl hs
  | fresh | taken => rfl

/-- Since it was at `start` the cursor has passed `entered` and recorded `added`, newest first. -/
structure Tally (start : Parser) (c : Cursor) (entered : List Token) (added : List Diagnostic) :
    Prop where
  rest : start.rest = entered ++ c.parser.rest
  recorded : c.parser.recorded = added ++ start.recorded
  stuck : c.stage = .stuck → ∃ last before, added = last :: before ∧
    last.fault.isNumber = false ∧ last.fault.missesBrace = false
  lists : Unbraced entered → c.lists = 0
  numbers : Unbraced entered → ∀ d ∈ c.stage.passed added, d.fault.isNumber = true

/-- The cursor has come from `start`, and all that it recorded is accounted for. -/
def Tallied (start : Parser) (c : Cursor) : Prop := ∃ entered added, Tally start c entered added

namespace Tally

variable {start p : Parser} {s : Stage} {n : Nat} {entered : List Token}
  {added : List Diagnostic}

theorem rest_advance (h : Tally start ⟨s, n, p⟩ entered added) :
    start.rest = entered ++ p.rest.take 1 ++ p.advance.rest := by
  have hsplit : p.rest = p.rest.take 1 ++ p.advance.rest := by
    rw [show p.advance.rest = p.rest.drop 1 from List.drop_one.symm, List.take_append_drop]
  rw [List.append_assoc, ← hsplit]
  exact h.rest

theorem advance (h : Tally start ⟨.taken, n, p⟩ entered added) :
    Tally start ⟨.fresh, n, p.advance⟩ (entered ++ p.rest.take 1) added where
  rest := h.rest_advance
  recorded := h.recorded
  stuck := nofun
  lists hu := h.lists hu.left
  numbers hu := h.numbers hu.left

/-- Inside a block, there is nothing more to say about the errors. -/
theorem of_braced {q : Parser} (hrest : start.rest = entered ++ q.rest)
    (hrecorded : q.recorded = added ++ start.recorded) (hs : s ≠ .stuck)
    (hb : ¬ Unbraced entered) : Tally start ⟨s, n, q⟩ entered added :=
  ⟨hrest, hrecorded, fun h => absurd h hs, fun hu => absurd hu hb, fun hu => absurd hu hb⟩

theorem braced (h : Tally start ⟨s, n + 1, p⟩ entered added) : ¬ Unbraced entered :=
  fun hu => Nat.succ_ne_zero n (h.lists hu)

/-- Unless the cursor is stuck it gets stuck at any error. -/
theorem recordAt (h : Tally start ⟨s, n, p⟩ entered added) (hs : s ≠ .stuck) {fault : Fault}
    (hnumber : fault.isNumber = false) (hbrace : fault.missesBrace = false) (position : Position) :
    Tally start ⟨.stuck, n, p.recordAt fault position⟩ entered (⟨fault, position⟩ :: added) where
  rest := h.rest
  recorded := congrArg (List.cons _) h.recorded
  stuck _ := ⟨⟨fault, position⟩, added, rfl, hnumber, hbrace⟩
  lists := h.lists
  numbers hu := by
    have hall := h.numbers hu
    rw [Stage.passed_of_ne_stuck hs] at hall
    exact hall

theorem number (h : Tally start ⟨.fresh, n, p⟩ entered added) (token : String) :
    Tally start ⟨.taken, n, p.record (.invalidNumber token)⟩ entered
      (⟨.invalidNumber token, p.position⟩ :: added) where
  rest := h.rest
  recorded := congrArg (List.cons _) h.recorded
  stuck := nofun
  lists := h.lists
  numbers hu := List.forall_mem_cons.2 ⟨rfl, h.numbers hu⟩

/-- The brace in front of a block is entered with it. -/
theorem openBlock (h : Tally start ⟨.taken, n, p⟩ entered added) (hk : p.peek.kind = .openCurly) :
    Tally start ⟨.fresh, n + 1, p.advance.advance⟩
      (entered ++ p.rest.take 1 ++ p.advance.rest.take 1) added := by
  have hpeek : p.peek ∈ p.rest.take 1 := by
    rw [Parser.rest_of_peek (by simp [hk])]
    exact List.mem_cons_self
  -- two tokens are entered, the brace and the one behind it
  refine of_braced h.advance.rest_advance h.recorded nofun fun hu => ?_
  exact hu.left p.peek (List.mem_append_right _ hpeek) hk

end Tally

theorem tallied_self {start : Parser} {s : Stage} (hs : s ≠ .stuck) : Tallied start ⟨s, 0, start⟩ :=
  ⟨[], [], rfl, rfl, fun h => absurd h hs, fun _ => rfl, fun _ d hd => by
    rw [Stage.passed_of_ne_stuck hs] at hd
    cases hd⟩

theorem Tallied.move {start : Parser} {c d : Cursor} (h : c.Move d) (hc : Tallied start c) :
    Tallied start d := by
  obtain ⟨entered, added, ht⟩ := hc
  cases h with
  | note => exact ⟨_, _, ht.rest, ht.recorded, ht.stuck, ht.lists, ht.numbers⟩
  | advance => exact ⟨_, _, ht.advance⟩
  | take => exact ⟨_, _, ht.rest, ht.recorded, nofun, ht.lists, ht.numbers⟩
  | number => exact ⟨_, _, ht.number _⟩
  | reject hr =>
    refine ⟨_, _, ht.recordAt nofun ?_ ?_ _⟩ <;> cases hr <;> rfl
  | parameter => exact ⟨_, _, ht.advance.recordAt nofun rfl rfl _⟩
  | unexpected hk =>
    refine ⟨_, _, ht.recordAt nofun rfl (Fault.not_missesBrace ?_) _⟩
    intro hcurly
    rw [hcurly] at hk
    exact absurd hk (by decide)
  | openBlock hk => exact ⟨_, _, ht.openBlock hk⟩
  | closeBlock => exact ⟨_, _, .of_braced ht.rest ht.recorded nofun ht.braced⟩
  | unclosed =>
    exact ⟨_, _ :: added, .of_braced ht.rest (congrArg (List.cons _) ht.recorded) nofun ht.braced⟩
  | resume =>
    exact ⟨_, _, .of_braced ht.rest_advance ht.recorded nofun fun hu => ht.braced hu.left⟩

/-! ## Rules -/

theorem accounted_of_tally {α : Type} {start q : Parser} {result : Option α} {entered : List Token}
    {added : List Diagnostic} {n : Nat}
    (h : Tally start ⟨Stage.taken.orStuck result, n, q⟩ entered added) :
    Accounted result entered added.reverse := by
  refine ⟨fun hnone => ?_, fun hu hsome d hd => ?_, fun hu hnone => ?_⟩
  · subst hnone
    obtain ⟨last, before, rfl, hnumber, hbrace⟩ := h.stuck rfl
    exact ⟨before.reverse, last, List.reverse_cons, hnumber, hbrace⟩
  · obtain ⟨a, rfl⟩ := Option.isSome_iff_exists.1 hsome
    exact h.numbers hu d (List.mem_reverse.1 hd)
  · subst hnone
    obtain ⟨last, before, rfl, hnumber, -⟩ := h.stuck rfl
    exact ⟨before.reverse, last, List.reverse_cons,
      fun d hd => h.numbers hu d (List.mem_reverse.1 hd), hnumber⟩

theorem Step.accounts_of_moves {α : Type} {m : Step α} {s : Stage} (hs : s ≠ .stuck)
    (h : ∀ p, m.Moves p s .taken) : m.Accounts := by
  intro p
  obtain ⟨entered, added, ht⟩ := (h p 0).keeps (I := Tallied p) Tallied.move (tallied_self hs)
  refine ⟨entered, added.reverse, ht.rest, ?_, accounted_of_tally ht⟩
  unfold Parser.errors
  rw [ht.recorded, List.reverse_append]

/-- The rule for numbers never fails, also at a token that is no number. -/
theorem Rule.integer_apply (p : Parser) : integer p =
    match Text.readInt64? p.current.literal.toList with
    | some value => (some (.integer p.current value), p)
    | none => (some (.integer p.current 0), p.record (.invalidNumber p.current.literal)) := by
  unfold integer
  rw [Step.bind_apply]
  dsimp only [Step.current]
  cases Text.readInt64? p.current.literal.toList <;> rfl

theorem Rule.accounts_integer : integer.Accounts := by
  intro p
  rw [integer_apply]
  cases Text.readInt64? p.current.literal.toList with
  | some value =>
    refine ⟨[], [], rfl, (List.append_nil _).symm, nofun, fun _ _ d hd => ?_, nofun⟩
    cases hd
  | none =>
    refine ⟨[], [_], rfl, List.reverse_cons, nofun, fun _ _ => ?_, nofun⟩
    exact List.forall_mem_singleton.2 rfl

theorem PrefixRule.accounts_parse (rule : PrefixRule) : rule.parse.Accounts := by
  -- only the rule for numbers can record an error at a token that counts as taken
  by_cases hr : rule = .integer
  · subst hr
    exact Rule.accounts_integer
  · exact Step.accounts_of_moves (s := .taken) nofun fun p =>
      Rule.moves_starting (Parser.moves_expressionWithin _) (Parser.steady_expressionWithin _) hr

/-- Whatever a rule fails at, it records, and nothing else but numbers as long as no block comes. -/
theorem no_silent_failure :
    Parser.statement.Accounts ∧ (∀ rule : StatementRule, rule.parse.Accounts) ∧
      Parser.expressionStatement.Accounts ∧ (∀ power, (Parser.expression power).Accounts) ∧
      (∀ rule : PrefixRule, rule.parse.Accounts) ∧
      ∀ (rule : InfixRule) (left : Expr) (power : Power), (rule.parse left power).Accounts := by
  have hn : ∀ power p, (Parser.expression power).Moves p .fresh .taken :=
    Parser.moves_expressionWithin _
  refine ⟨?_, fun rule => ?_, ?_, fun power => ?_, PrefixRule.accounts_parse,
    fun rule left power => ?_⟩
  · exact Step.accounts_of_moves (s := .fresh) nofun fun _ => Rule.moves_statement hn
  · exact Step.accounts_of_moves (s := .taken) nofun fun _ => Rule.moves_keywordStatement hn rule
  · exact Step.accounts_of_moves (s := .fresh) nofun fun _ => Rule.moves_expressionStatement hn
  · exact Step.accounts_of_moves (s := .fresh) nofun (hn power)
  · exact Step.accounts_of_moves (s := .taken) nofun fun _ =>
      Rule.moves_continuing hn left power rule

/-- Behind a brace, a step can succeed although something else than a number is wrong. -/
example : (Parser.statement (.opened "fn() \x7b @ \x7d" none {})).1.isSome = true ∧
    (Parser.statement (.opened "fn() \x7b @ \x7d" none {})).2.errors =
      [⟨.illegalToken "@", ⟨7, "shell"⟩⟩] := by
  decide +kernel

end ExprLang
