import ExprLang.Proofs.Parser.SpareFuel
import ExprLang.Proofs.Token.Pulling

/-!
# Parsers under any operations

A parser that is driven from outside, by any of its operations in any order, also at tokens that
they are not meant for. Each operation `Reaches` a later state of the same reading
(`Operation.reaches`), so a run of operations does (`Operation.reaches_all`). Main statement
(`sees_operations`): what the parser sees is given by one number that never decreases, the number of
tokens in front of the cursor, and it is what a window on a lexer shows that has been moved on as
often.
-/

set_option autoImplicit false

namespace ExprLang

open Step

theorem tokenize_ne_nil (source : String) (file : Option String) : tokenize source file ≠ [] :=
  List.append_ne_nil_of_right_ne_nil _ (List.cons_ne_nil _ _)

/-- The token with number `i` of a source, where the last one comes again and again. -/
def tokenAt (source : String) (file : Option String) (i : Nat) : Token :=
  (tokenize source file).getD i ((tokenize source file).getLast (tokenize_ne_nil source file))

theorem tokenAt_eq_get (source : String) (file : Option String) (i : Nat) :
    tokenAt source file i = (TokenStream.ofSource source (file.getD defaultFile)).get i := by
  simp only [tokenAt, tokenize, TokenStream.toList, TokenStream.get, List.getLast_concat,
    List.getD_eq_getElem?_getD]
  generalize TokenStream.ofSource source (file.getD defaultFile) = s
  by_cases hi : i < s.ahead.length
  · rw [List.getElem?_append_left hi]
  · rw [List.getElem?_append_right (Nat.le_of_not_lt hi),
      List.getElem?_eq_none (Nat.le_of_not_lt hi)]
    cases i - s.ahead.length <;> rfl

namespace Parser

/-! ## What an operation can do -/

/-- `q` is a later state of the parser `p`, perhaps inside more or fewer open expressions. -/
structure Reaches (p q : Parser) : Prop where
  options : q.options = p.options
  final : q.stream.final = p.stream.final
  ahead : q.stream.ahead <:+ p.stream.ahead
  recorded : p.recorded <:+ q.recorded
  depth : p.depth ≤ maxNestingDepth → q.depth ≤ maxNestingDepth

variable {p q r : Parser}

theorem Precedes.reaches (h : p.Precedes q) : p.Reaches q :=
  ⟨h.options, h.final, h.ahead, h.recorded, fun hd => h.depth ▸ hd⟩

theorem Reaches.trans (h : p.Reaches q) (h' : q.Reaches r) : p.Reaches r where
  options := h'.options.trans h.options
  final := h'.final.trans h.final
  ahead := h'.ahead.trans h.ahead
  recorded := h.recorded.trans h'.recorded
  depth hd := h'.depth (h.depth hd)

theorem reaches_enter (p : Parser) : p.Reaches (enter p).2 := by
  unfold enter
  split
  next hd => exact ⟨rfl, rfl, List.suffix_refl _, List.suffix_refl _, fun _ => hd⟩
  next => exact (precedes_recordAt _ _ p).reaches

theorem reaches_leave (p : Parser) : p.Reaches p.leave :=
  ⟨rfl, rfl, List.suffix_refl _, List.suffix_refl _, fun hd => Nat.le_trans (Nat.sub_le _ _) hd⟩

/-- What can be asked of a parser from outside. -/
inductive Operation where
  | advance
  | expect (kind : Kind)
  | enter
  | leave
  | record (fault : Fault)
  | recordAt (fault : Fault) (position : Position)
  | program
  | block
  | statement
  | keywordStatement (rule : StatementRule)
  | expressionStatement
  | terminator
  | expression (power : Power)
  /-- An expression that counts as part of the one that is open. -/
  | openExpression (power : Power)
  | starting (rule : PrefixRule)
  | continuing (rule : InfixRule) (left : Expr) (power : Power)
  | parameters
  | arguments

namespace Operation

/-- The parser after an operation. -/
def run : Operation → Parser → Parser
  | advance, p => p.advance
  | expect kind, p => (Step.expect kind p).2
  | enter, p => (Step.enter p).2
  | leave, p => p.leave
  | record fault, p => p.record fault
  | recordAt fault position, p => p.recordAt fault position
  | program, p => p.program.2
  | block, p => p.block.2
  | statement, p => (Parser.statement p).2
  | keywordStatement rule, p => (rule.parse p).2
  | expressionStatement, p => (Parser.expressionStatement p).2
  | terminator, p => (Rule.terminator p).2
  | expression power, p => (Parser.expression power p).2
  | openExpression power, p => (Rule.expression Parser.expression power p).2
  | starting rule, p => (rule.parse p).2
  | continuing rule left power, p => (rule.parse left power p).2
  | parameters, p => (Rule.parameters p).2
  | arguments, p => (Rule.arguments Parser.expression p).2

/-- The parser after some operations, the first one first. -/
def runAll (ops : List Operation) (p : Parser) : Parser := ops.foldl (fun p op => op.run p) p

theorem reaches (op : Operation) (p : Parser) : p.Reaches (op.run p) := by
  have hn (power : Power) : (Parser.expression power).Steady := steady_expressionWithin _ _
  cases op with
  | enter => exact reaches_enter p
  | leave => exact reaches_leave p
  | program =>
    have hstart := precedes_note (.started p.stream.file) p
    have hall : (p.note (.started p.stream.file)).Precedes
        (collect (· == .eof) loggedStatement p.tokensLeft (p.note (.started p.stream.file))).2 :=
      precedes_collect steady_loggedStatement _ _
    exact ((hstart.trans hall).trans (precedes_note _ _)).reaches
  | advance => exact (precedes_advance p).reaches
  | expect kind => exact ((steady_expect kind).precedes p).reaches
  | record fault => exact (precedes_recordAt fault p.position p).reaches
  | recordAt fault position => exact (precedes_recordAt fault position p).reaches
  | block => exact (Rule.precedes_block hn p).reaches
  | statement => exact ((Rule.steady_statement hn).precedes p).reaches
  | keywordStatement rule => exact ((Rule.steady_keywordStatement hn rule).precedes p).reaches
  | expressionStatement => exact ((Rule.steady_expressionStatement hn).precedes p).reaches
  | terminator => exact (Rule.steady_terminator.precedes p).reaches
  | expression power => exact ((hn power).precedes p).reaches
  | openExpression power => exact ((Rule.steady_expression hn power).precedes p).reaches
  | starting rule => exact ((Rule.steady_starting hn rule).precedes p).reaches
  | continuing rule left power =>
    exact ((Rule.steady_continuing hn left power rule).precedes p).reaches
  | parameters => exact (Rule.steady_parameters.precedes p).reaches
  | arguments => exact ((Rule.steady_arguments hn).precedes p).reaches

theorem reaches_all (ops : List Operation) (p : Parser) : p.Reaches (runAll ops p) := by
  induction ops generalizing p with
  | nil => exact (Precedes.refl p).reaches
  | cons op ops ih => exact (op.reaches p).trans (ih _)

end Operation

/-! ## What a parser sees -/

variable {source : String} {file : Option String} {options : Options}

/-- The number of tokens of the source in front of the cursor. -/
def index (source : String) (file : Option String) (p : Parser) : Nat :=
  (tokenize source file).length - 1 - p.tokensLeft

/--
The parser sees the tokens with the numbers `i` and `i + 1`, and those from `i + 2` on are still to
be read, as in a window on the source that has been moved on by `i` tokens.
-/
structure Sees (source : String) (file : Option String) (i : Nat) (p : Parser) : Prop where
  current : p.current = tokenAt source file i
  peek : p.peek = tokenAt source file (i + 1)
  ahead (n : Nat) : (p.stream.advanceBy n).current = tokenAt source file (i + n)
  window : ∃ w, (Window.open? (.ofSource source file)).bind (Window.advanceBy? i) = some w ∧
    w.current = p.current ∧ w.peek = p.peek ∧
      ∀ n, (w.lexer.pull? n).map Prod.fst =
        some ((List.range n).map fun k => tokenAt source file (i + 2 + k))

/-- The stream of a later state is the source's stream behind the tokens that have been read. -/
theorem Reaches.stream (h : (Parser.ofSource source file options).Reaches p) :
    p.stream =
      (TokenStream.ofSource source (file.getD defaultFile)).advanceBy (p.index source file) := by
  have hlength : (tokenize source file).length - 1 =
      (TokenStream.ofSource source (file.getD defaultFile)).ahead.length := by
    simp [tokenize, TokenStream.toList]
  rw [index, hlength]
  exact TokenStream.eq_advanceBy_of_suffix h.ahead h.final

theorem Reaches.sees (h : (Parser.ofSource source file options).Reaches p) :
    p.Sees source file (p.index source file) := by
  have hstream := h.stream
  generalize p.index source file = i at hstream ⊢
  obtain ⟨w, hopen, hw⟩ := Window.shows_open? (Lexer.feeds_ofSource source file)
  obtain ⟨w', hmove, hw'⟩ := hw.advanceBy? i
  rw [← hstream] at hw'
  have hahead (n : Nat) : (p.stream.advanceBy n).current = tokenAt source file (i + n) := by
    rw [hstream, TokenStream.advanceBy_advanceBy, TokenStream.current_advanceBy, tokenAt_eq_get]
  refine ⟨hahead 0, hahead 1, hahead, w', by rw [hopen]; exact hmove, hw'.current, hw'.peek,
    fun n => ?_⟩
  obtain ⟨rest, hpull, -⟩ := hw'.lexer.pull? n
  rw [hpull, Option.map_some]
  refine congrArg some (List.map_congr_left fun k _ => ?_)
  rw [← TokenStream.current_advanceBy, TokenStream.advanceBy_advanceBy, hahead, Nat.add_assoc]

theorem Reaches.index_le (h : p.Reaches q) : p.index source file ≤ q.index source file :=
  Nat.sub_le_sub_left h.ahead.length_le _

/-- A token that is not the expected one is reported, and nothing else happens. -/
theorem expect_of_none {kind : Kind} (h : (expect kind p).1 = none) :
    (expect kind p).2.stream = p.stream ∧ (expect kind p).2.depth = p.depth ∧
      ∃ d, (expect kind p).2.errors = p.errors ++ [d] := by
  unfold expect at h ⊢
  split at h
  · cases h
  · rename_i hk
    rw [if_neg hk]
    exact ⟨rfl, rfl, _, List.reverse_cons⟩

end Parser

/--
After any operations on the parser of a source, what it sees is given by the number of tokens in
front of the cursor. No operation lowers that number, takes an error back, changes the options or
exceeds the bound on open expressions, and a token that is not the expected one is reported once.
-/
theorem sees_operations (source : String) (file : Option String) (options : Options)
    (ops : List Parser.Operation) (op : Parser.Operation) :
    let p := Parser.Operation.runAll ops (.ofSource source file options)
    p.Sees source file (p.index source file) ∧
      p.index source file ≤ (op.run p).index source file ∧
      p.errors <+: (op.run p).errors ∧ p.options = options ∧ p.depth ≤ maxNestingDepth ∧
      ∀ kind, (expect kind p).1 = none →
        (expect kind p).2.index source file = p.index source file ∧
          (expect kind p).2.depth = p.depth ∧
          ∃ d, (expect kind p).2.errors = p.errors ++ [d] := by
  intro p
  have hp : (Parser.ofSource source file options).Reaches p := Parser.Operation.reaches_all ops _
  have hop := op.reaches p
  refine ⟨hp.sees, hop.index_le, List.reverse_prefix.2 hop.recorded, hp.options,
    hp.depth (Nat.zero_le _), fun kind h => ?_⟩
  obtain ⟨hstream, hdepth, herrors⟩ := Parser.expect_of_none h
  exact ⟨by rw [Parser.index, Parser.index, Parser.tokensLeft, hstream]; rfl, hdepth, herrors⟩

/-- A rule at a token it is not meant for, an expression that stays open, and a missing token. -/
theorem sees_operations_conditional :
    let p := Parser.Operation.runAll [.starting .conditional, .enter, .advance]
      (.ofSource "f(x) 1" none ⟨false⟩)
    (expect .semicolon p).1 = none ∧ p.Sees "f(x) 1" none 4 ∧
      (expect .semicolon p).2.index "f(x) 1" none = 4 ∧ (expect .semicolon p).2.depth = 1 ∧
      ∃ d, (expect .semicolon p).2.errors = p.errors ++ [d] := by
  intro p
  have hnone : (expect .semicolon p).1 = none := by decide +kernel
  have hindex : p.index "f(x) 1" none = 4 := by decide +kernel
  have hdepth : p.depth = 1 := by decide +kernel
  obtain ⟨hsees, -, -, -, -, hexpect⟩ := sees_operations "f(x) 1" none ⟨false⟩
    [.starting .conditional, .enter, .advance] .program
  obtain ⟨hsame, hopen, herrors⟩ := hexpect .semicolon hnone
  exact ⟨hnone, hindex ▸ hsees, hsame.trans hindex, hopen.trans hdepth, herrors⟩

end ExprLang
