import ExprLang.Proofs.Parser.Coupling
import ExprLang.Proofs.Parser.Termination
import ExprLang.Proofs.Token.Tiling

/-!
# The log as an account of the parse

A parser logs each error when it records it, and nothing else while it reads a statement
(`Parser.logged_statement`): this is kept by each thing that a step can do, which is shown by coupling
a run with itself. A statement of the program is logged when it is complete. So the log of a parse
consists of what its attempts at a statement have logged, one behind the other: the errors of an
attempt, and then its statement if there is one (`Parser.account`). Main statement: `log_of_parse`.
-/

set_option autoImplicit false

namespace ExprLang

open Step

/-! ## Rules log what they record -/

namespace Parser

/-- Since `start`, the parser has logged the errors that it has recorded, and nothing else. -/
def Logged (start p : Parser) : Prop :=
  ∃ added, p.recorded = added ++ start.recorded ∧
    p.journal = added.map Event.recorded ++ start.journal

variable {start p : Parser}

theorem logged_self (p : Parser) : p.Logged p := ⟨[], rfl, rfl⟩

theorem Logged.recordAt (h : start.Logged p) (fault : Fault) (position : Position) :
    start.Logged (p.recordAt fault position) := by
  obtain ⟨added, hrecorded, hjournal⟩ := h
  exact ⟨⟨fault, position⟩ :: added, congrArg _ hrecorded, congrArg _ hjournal⟩

theorem Logged.terminator (h : start.Logged p) : start.Logged (Rule.terminator p).2 := by
  have hp : Rule.terminator p = (if p.options.requireSemicolons then expect .semicolon
    else update (skip .semicolon)) p := rfl
  rw [hp]
  split
  · rw [expect]
    split
    · exact h
    · exact h.recordAt _ _
  · rw [update, skip]
    split <;> exact h

end Parser

/-- A run and itself, as long as it logs what it records. -/
def Coupling.ledger (start : Parser) : Coupling where
  related p q := q = p ∧ start.Logged p
  parted _ _ := False

theorem lawful_ledger (start : Parser) : (Coupling.ledger start).Lawful where
  current h := congrArg Parser.current h.1
  peek h := congrArg Parser.peek h.1
  depth h := congrArg Parser.depth h.1
  withDepth n h := ⟨congrArg (fun p => { p with depth := n }) h.1, h.2⟩
  recordAt position _ h := ⟨congrArg (Parser.recordAt _ position) h.1, h.2.recordAt _ _⟩
  advance h := .inl ⟨congrArg Parser.advance h.1, h.2⟩
  terminator h := .inl ⟨congrArg (fun p => (Rule.terminator p).1) h.1,
    congrArg (fun p => (Rule.terminator p).2) h.1, h.2.terminator⟩
  parted h _ _ := h
  parted_leave h := h

namespace Parser

theorem logged_statement (p : Parser) : p.Logged (statement p).2 := by
  have L := lawful_ledger p
  have hcoupled := L.coupled_statement (L.coupled_expressionWithin maxNestingDepth)
  rcases hcoupled.agrees ⟨rfl, logged_self p⟩ with ⟨-, -, hlogged⟩ | hparted
  · exact hlogged
  · exact hparted.elim

/-! ## Attempts at statements -/

/-- The errors that an attempt at a statement records. -/
def added (p : Parser) : List Diagnostic := (statement p).2.errors.drop p.errors.length

/-- What an attempt at a statement of the program logs. -/
def account (p : Parser) : List Event :=
  p.added.map Event.recorded ++ (statement p).1.toList.map Event.completed

theorem errors_log_statement (p : Parser) : (statement p).2.errors = p.errors ++ p.added ∧
    (statement p).2.log = p.log ++ p.added.map Event.recorded := by
  obtain ⟨newest, hrecorded, hjournal⟩ := logged_statement p
  have herrors : (statement p).2.errors = p.errors ++ newest.reverse := by
    rw [errors, hrecorded, List.reverse_append, errors]
  have hadded : p.added = newest.reverse := by rw [added, herrors, List.drop_left]
  refine ⟨hadded ▸ herrors, ?_⟩
  rw [log, hjournal, List.reverse_append, hadded, List.map_reverse, log]

theorem loggedStatement_apply (p : Parser) : loggedStatement p =
    match statement p with
    | (some s, q) => (some s, q.note (.completed s))
    | (none, q) => (none, q) := by
  rw [loggedStatement, bind_apply]
  rcases statement p with ⟨_ | s, q⟩ <;> rfl

theorem fst_loggedStatement (p : Parser) : (loggedStatement p).1 = (statement p).1 := by
  rw [loggedStatement_apply]
  rcases statement p with ⟨_ | s, q⟩ <;> rfl

theorem errors_loggedStatement (p : Parser) :
    (loggedStatement p).2.errors = p.errors ++ p.added := by
  rw [← (errors_log_statement p).1, loggedStatement_apply]
  rcases statement p with ⟨_ | s, q⟩ <;> rfl

theorem log_loggedStatement (p : Parser) : (loggedStatement p).2.log = p.log ++ p.account := by
  rw [account, ← List.append_assoc, ← (errors_log_statement p).2, loggedStatement_apply]
  rcases statement p with ⟨_ | s, q⟩
  · exact (List.append_nil _).symm
  · exact List.reverse_cons

section
variable {stop : Kind → Bool} (hstop : stop .eof = true)
include hstop

/-- All attempts together record what each of them adds, and log what each of them logs. -/
theorem errors_log_collectAll (p : Parser) :
    (collectAll stop loggedStatement p).2.errors =
        p.errors ++ (attempts stop loggedStatement p).flatMap added ∧
      (collectAll stop loggedStatement p).2.log =
        p.log ++ (attempts stop loggedStatement p).flatMap account := by
  have hs := steady_loggedStatement
  induction p using rounds_induction hs hstop with
  | stopped p hc =>
    rw [collectAll_of_stop hc, attempts_of_stop hc]
    exact ⟨(List.append_nil _).symm, (List.append_nil _).symm⟩
  | round p hc ih =>
    rw [collectAll_round hs hstop hc, attempts_round hs hstop hc, List.flatMap_cons,
      List.flatMap_cons, ← List.append_assoc, ← List.append_assoc, ← errors_loggedStatement,
      ← log_loggedStatement]
    exact ih

/-- In front of an attempt are the errors of the attempts before. -/
theorem errors_of_attempts {p q : Parser} {before after : List Parser}
    (h : attempts stop loggedStatement p = before ++ q :: after) :
    q.errors = p.errors ++ before.flatMap added := by
  have hs := steady_loggedStatement
  induction p using rounds_induction hs hstop generalizing before with
  | stopped p hc =>
    rw [attempts_of_stop hc] at h
    simp at h
  | round p hc ih =>
    rw [attempts_round hs hstop hc] at h
    cases before with
    | nil =>
      obtain ⟨rfl, -⟩ := List.cons.inj h
      exact (List.append_nil _).symm
    | cons r before =>
      obtain ⟨rfl, htail⟩ := List.cons.inj h
      rw [ih htail, List.flatMap_cons, ← List.append_assoc, ← errors_loggedStatement]
      rfl

end

end Parser

/-! ## Records -/

/-- An event as a log keeps it. -/
def Event.logRecord (e : Event) : Level × String := (e.level, e.message)

/-- The record of an error. -/
def Diagnostic.logRecord (d : Diagnostic) : Level × String :=
  (.debug, "parse error at " ++ toString d.position.offset ++ ": " ++ d.fault.message)

/-- The record of a statement. -/
def Stmt.logRecord (s : Stmt) : Level × String := (.trace, "parsed statement: " ++ s.render)

/-- Of records of one level, all are kept or none. -/
theorem filter_map_of_level {α : Type} {f : α → Level × String} (level kept : Level)
    (hf : ∀ a, (f a).1 = level) (xs : List α) :
    (xs.map f).filter (fun r => r.1 == kept) = if level = kept then xs.map f else [] := by
  split
  next h => exact List.filter_eq_self.2 (List.forall_mem_map.2 fun a _ => by simp [hf, h])
  next h => exact List.filter_eq_nil_iff.2 (List.forall_mem_map.2 fun a _ => by simp [hf, h])

/-- What attempts at statements log, as records. -/
def accounts (ps : List Parser) : List (Level × String) :=
  (ps.flatMap Parser.account).map Event.logRecord

section
variable (p : Parser) (ps qs : List Parser)

theorem accounts_append : accounts (ps ++ qs) = accounts ps ++ accounts qs := by
  rw [accounts, List.flatMap_append, List.map_append, accounts, accounts]

theorem accounts_cons : accounts (p :: ps) =
    p.added.map Diagnostic.logRecord ++ ((Parser.statement p).1.toList.map Stmt.logRecord ++
      accounts ps) := by
  rw [accounts, List.flatMap_cons, List.map_append, Parser.account, List.map_append, List.map_map,
    List.map_map, List.append_assoc, accounts]
  rfl

theorem filter_debug_accounts : (accounts ps).filter (fun r => r.1 == .debug) =
    (ps.flatMap Parser.added).map Diagnostic.logRecord := by
  induction ps with
  | nil => rfl
  | cons p ps ih =>
    rw [accounts_cons, List.filter_append, List.filter_append,
      filter_map_of_level .debug .debug fun _ => rfl,
      filter_map_of_level .trace .debug fun _ => rfl, ih, List.flatMap_cons, List.map_append]
    rfl

theorem filter_trace_accounts : (accounts ps).filter (fun r => r.1 == .trace) =
    (ps.filterMap fun p => (Parser.statement p).1).map Stmt.logRecord := by
  induction ps with
  | nil => rfl
  | cons p ps ih =>
    rw [accounts_cons, List.filter_append, List.filter_append,
      filter_map_of_level .debug .trace fun _ => rfl,
      filter_map_of_level .trace .trace fun _ => rfl, ih, List.filterMap_cons]
    cases (Parser.statement p).1 <;> rfl

end

section
variable (source : String) (file : Option String) (options : Options)

/-- The attempts of a parse at statements. -/
def parseAttempts : List Parser :=
  attempts (· == .eof) Parser.loggedStatement (.opened source file options)

theorem parse_attempts :
    (parse source file options).program.statements =
        (parseAttempts source file options).filterMap (fun p => (Parser.statement p).1) ∧
      (parse source file options).errors =
        (parseAttempts source file options).flatMap Parser.added := by
  have hstatements :
      (collectAll (· == .eof) Parser.loggedStatement (.opened source file options)).1 =
        (parseAttempts source file options).filterMap (fun p => (Parser.loggedStatement p).1) :=
    (collectAll_attempts Parser.steady_loggedStatement rfl _).1
  simp only [Parser.fst_loggedStatement] at hstatements
  rw [parse_eq_collectAll]
  exact ⟨hstatements, (Parser.errors_log_collectAll rfl _).1⟩

/-- Between the first and the last record are those of the attempts. -/
theorem map_logRecord_parseLog : (parseLog source file options).map Event.logRecord =
    (.debug, "parsing " ++ file.getD defaultFile) ::
      (accounts (parseAttempts source file options) ++
        [(.debug, "parsed " ++ toString (parse source file options).program.statements.length ++
          " statements with " ++ toString (parse source file options).errors.length ++
          " errors")]) := by
  have hlog : parseLog source file options =
      (collectAll (· == .eof) Parser.loggedStatement (.opened source file options)).2.log ++
        [.finished (parse source file options).program.statements.length
          (parse source file options).errors.length] := by
    rw [parse_eq_collectAll]
    exact List.reverse_cons
  have hcollect :
      (collectAll (· == .eof) Parser.loggedStatement (.opened source file options)).2.log =
        [.started (file.getD defaultFile)] ++
          (parseAttempts source file options).flatMap Parser.account := by
    rw [← TokenStream.file_ofSource source file]
    exact (Parser.errors_log_collectAll rfl _).2
  rw [hlog, hcollect, List.map_append, List.map_append]
  rfl

/--
The log of a parse names the source first and counts statements and errors last. In between are the
errors and the statements of the parse, each in order, and nothing else. The statements are those of
the attempts that succeed, and the errors of such an attempt stand in the log between the statement
before, with all that was recorded up to there, and its own one.
-/
theorem log_of_parse :
    ∃ middle, (parseLog source file options).map Event.logRecord =
        (.debug, "parsing " ++ file.getD defaultFile) ::
          (middle ++ [(.debug, "parsed " ++
            toString (parse source file options).program.statements.length ++
            " statements with " ++ toString (parse source file options).errors.length ++
            " errors")]) ∧
      (middle.filter fun r => r.1 == .debug) =
        (parse source file options).errors.map Diagnostic.logRecord ∧
      (middle.filter fun r => r.1 == .trace) =
        (parse source file options).program.statements.map Stmt.logRecord ∧
      (parse source file options).program.statements =
        (parseAttempts source file options).filterMap (fun p => (Parser.statement p).1) ∧
      ∀ before p after s, parseAttempts source file options = before ++ p :: after →
        (Parser.statement p).1 = some s →
        ∃ front added back,
          middle = front ++ (added.map Diagnostic.logRecord ++ s.logRecord :: back) ∧
          (Parser.statement p).2.errors = p.errors ++ added ∧
          (front.filter fun r => r.1 == .debug) = p.errors.map Diagnostic.logRecord ∧
          (front.filter fun r => r.1 == .trace) =
            (before.filterMap fun q => (Parser.statement q).1).map Stmt.logRecord := by
  obtain ⟨hstatements, herrors⟩ := parse_attempts source file options
  refine ⟨_, map_logRecord_parseLog source file options, ?_, ?_, hstatements,
    fun before p after s hattempts hs => ?_⟩
  · rw [filter_debug_accounts, herrors]
  · rw [filter_trace_accounts, hstatements]
  · have hfront : p.errors = before.flatMap Parser.added :=
      Parser.errors_of_attempts rfl hattempts
    have hmiddle : accounts (parseAttempts source file options) = accounts before ++
        (p.added.map Diagnostic.logRecord ++ s.logRecord :: accounts after) := by
      rw [hattempts, accounts_append, accounts_cons, hs]
      rfl
    exact ⟨accounts before, p.added, accounts after, hmiddle, (Parser.errors_log_statement p).1,
      by rw [hfront, filter_debug_accounts], filter_trace_accounts before⟩

end

end ExprLang
