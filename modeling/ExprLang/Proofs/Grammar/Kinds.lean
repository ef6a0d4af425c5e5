import ExprLang.Proofs.Parser.CleanRules

/-!
# A grammar on kinds

A grammar of programs that looks at the kinds of tokens only. It knows no precedence, and since a
semicolon may be missing it does not say where a statement ends: in `a (b)` and `a - b` the second
half can be a statement of its own. What matters about a place behind an expression is whether a
reader who takes as much as it can stays inside the grammar. `Continues after ks`: `ks` goes on
with calls and operations and then with something that may come `after`; `Greedy after`: whatever
may come after and looks like a call or an operation is one, as far as the grammar goes. Main
statement (`greedy_following`): what follows an expression in a statement is greedy.
-/

set_option autoImplicit false

namespace ExprLang.Grammar

/-- The nonterminals. -/
inductive Phrase where
  | statements
  | statement
  | block
  | expression
  | operations
  | unary
  | calls
  | primary
  | arguments
  | moreArguments
  | parameters
  | moreParameters
  deriving DecidableEq, Repr

/-- The end of a statement: a semicolon, which may be missing if it is not required. -/
inductive Ending (required : Bool) : List Kind → Prop
  | semicolon : Ending required [.semicolon]
  | omitted : required = false → Ending required []

/-- The kinds `ks` can be derived from a nonterminal. -/
inductive Fits (strict : Bool) : Phrase → List Kind → Prop
  | noStatements : Fits strict .statements []
  | statements {ks ls : List Kind} : Fits strict .statement ks → Fits strict .statements ls →
      Fits strict .statements (ks ++ ls)
  | binding {ks ls : List Kind} : Fits strict .expression ks → Ending strict ls →
      Fits strict .statement (.letKeyword :: .identifier :: .assignment :: ks ++ ls)
  | result {ks ls : List Kind} : Fits strict .expression ks → Ending strict ls →
      Fits strict .statement (.returnKeyword :: ks ++ ls)
  | expressionStatement {ks ls : List Kind} : Fits strict .expression ks → Ending false ls →
      Fits strict .statement (ks ++ ls)
  | block {ks : List Kind} : Fits strict .statements ks →
      Fits strict .block (.openCurly :: ks ++ [.closeCurly])
  | expression {ks ls : List Kind} : Fits strict .unary ks → Fits strict .operations ls →
      Fits strict .expression (ks ++ ls)
  | noOperations : Fits strict .operations []
  | operations {op : Kind} {ks ls : List Kind} : op ∈ Kind.binaryOperators → Fits strict .unary ks →
      Fits strict .operations ls → Fits strict .operations (op :: ks ++ ls)
  | unary {op : Kind} {ks : List Kind} : op ∈ Kind.unaryOperators → Fits strict .unary ks →
      Fits strict .unary (op :: ks)
  | application {ks ls : List Kind} : Fits strict .primary ks → Fits strict .calls ls →
      Fits strict .unary (ks ++ ls)
  | noCalls : Fits strict .calls []
  | calls {ks ls : List Kind} : Fits strict .arguments ks → Fits strict .calls ls →
      Fits strict .calls (.openParen :: ks ++ .closeParen :: ls)
  | noArguments : Fits strict .arguments []
  | arguments {ks ls : List Kind} : Fits strict .expression ks → Fits strict .moreArguments ls →
      Fits strict .arguments (ks ++ ls)
  | noMoreArguments : Fits strict .moreArguments []
  | moreArguments {ks ls : List Kind} : Fits strict .expression ks →
      Fits strict .moreArguments ls → Fits strict .moreArguments (.comma :: ks ++ ls)
  | identifier : Fits strict .primary [.identifier]
  | integer : Fits strict .primary [.integer]
  | trueLiteral : Fits strict .primary [.trueKeyword]
  | falseLiteral : Fits strict .primary [.falseKeyword]
  | grouping {ks : List Kind} : Fits strict .expression ks →
      Fits strict .primary (.openParen :: ks ++ [.closeParen])
  | conditional {ks ls : List Kind} : Fits strict .expression ks → Fits strict .block ls →
      Fits strict .primary (.ifKeyword :: .openParen :: ks ++ .closeParen :: ls)
  | conditionalElse {ks ls ms : List Kind} : Fits strict .expression ks → Fits strict .block ls →
      Fits strict .block ms →
      Fits strict .primary
        (.ifKeyword :: .openParen :: ks ++ .closeParen :: ls ++ .elseKeyword :: ms)
  | function {ks ls : List Kind} : Fits strict .parameters ks → Fits strict .block ls →
      Fits strict .primary (.fnKeyword :: .openParen :: ks ++ .closeParen :: ls)
  | noParameters : Fits strict .parameters []
  | parameters {ks : List Kind} : Fits strict .moreParameters ks →
      Fits strict .parameters (.identifier :: ks)
  | noMoreParameters : Fits strict .moreParameters []
  | moreParameters {ks : List Kind} : Fits strict .moreParameters ks →
      Fits strict .moreParameters (.comma :: .identifier :: ks)

variable {strict : Bool} {ks ls : List Kind}

/-! ## How phrases start -/

/-- An expression starts with a token that has a rule for it. -/
theorem Fits.exists_prefixRule (h : Fits strict .unary ks) :
    ∃ k ls, ks = k :: ls ∧ k.prefixRule?.isSome = true := by
  cases h with
  | unary hop =>
    refine ⟨_, _, rfl, ?_⟩
    simp only [Kind.unaryOperators, List.mem_cons, List.not_mem_nil, or_false] at hop
    rcases hop with rfl | rfl <;> rfl
  | application hp => cases hp <;> exact ⟨_, _, rfl, rfl⟩

theorem Fits.exists_startsStatement (h : Fits strict .statement ks) :
    ∃ k ls, ks = k :: ls ∧ k.startsStatement = true := by
  cases h with
  | binding => exact ⟨_, _, rfl, rfl⟩
  | result => exact ⟨_, _, rfl, rfl⟩
  | expressionStatement he =>
    cases he with
    | expression hu =>
      obtain ⟨k, ls, rfl, hk⟩ := hu.exists_prefixRule
      exact ⟨k, _, rfl, by simp [Kind.startsStatement, hk]⟩

/-! ## What may come behind an expression -/

/-- Calls and operations, and then what may come `after`. -/
inductive Continues (strict : Bool) (after : List Kind → Prop) : List Kind → Prop
  | stop {ks : List Kind} : after ks → Continues strict after ks
  | call {ks ls : List Kind} : Fits strict .arguments ks → Continues strict after ls →
      Continues strict after (.openParen :: ks ++ .closeParen :: ls)
  | operation {op : Kind} {ks ls : List Kind} : op ∈ Kind.binaryOperators → Fits strict .unary ks →
      Continues strict after ls → Continues strict after (op :: ks ++ ls)

/-- What looks like a call or an operation, is one (module doc). -/
structure Greedy (strict : Bool) (after : List Kind → Prop) : Prop where
  merges {ks : List Kind} : after ks → (ks.headD .eof).power = .lowest ∨
    (∃ as ls, ks = .openParen :: as ++ .closeParen :: ls ∧ Fits strict .arguments as ∧
      Continues strict after ls) ∨
    (∃ op us ls, ks = op :: us ++ ls ∧ op ∈ Kind.binaryOperators ∧ Fits strict .unary us ∧
      Continues strict after ls)
  ne_else {ks : List Kind} : after ks → ks.headD .eof ≠ .elseKeyword

variable {after : List Kind → Prop}

theorem Continues.of_calls (h : Fits strict .calls ks) (hl : Continues strict after ls) :
    Continues strict after (ks ++ ls) := by
  generalize hp : Phrase.calls = phrase at h
  induction h with
  | noCalls => exact hl
  | calls ha _ _ ih => simpa using Continues.call ha (ih hp)
  | _ => cases hp

theorem Continues.of_operations (h : Fits strict .operations ks)
    (hl : Continues strict after ls) : Continues strict after (ks ++ ls) := by
  generalize hp : Phrase.operations = phrase at h
  induction h with
  | noOperations => exact hl
  | operations hop hu _ _ ih => simpa using Continues.operation hop hu (ih hp)
  | _ => cases hp

namespace Greedy

theorem continues_merges (hg : Greedy strict after) (h : Continues strict after ks)
    (hk : (ks.headD .eof).power ≠ .lowest) :
    (∃ as ls, ks = .openParen :: as ++ .closeParen :: ls ∧ Fits strict .arguments as ∧
      Continues strict after ls) ∨
    (∃ op us ls, ks = op :: us ++ ls ∧ op ∈ Kind.binaryOperators ∧ Fits strict .unary us ∧
      Continues strict after ls) := by
  cases h with
  | stop ha => exact (hg.merges ha).resolve_left hk
  | call ha hl => exact .inl ⟨_, _, rfl, ha, hl⟩
  | operation hop hu hl => exact .inr ⟨_, _, _, rfl, hop, hu, hl⟩

theorem continues_ne_else (hg : Greedy strict after) (h : Continues strict after ks) :
    ks.headD .eof ≠ .elseKeyword := by
  cases h with
  | stop ha => exact hg.ne_else ha
  | call => simp
  | operation hop => exact (Kind.power_of_mem_binaryOperators hop).2.1

/-- Where nothing can continue the expression, what comes behind it is what may come `after`. -/
theorem after_of_continues (h : Continues strict after ks)
    (hk : (ks.headD .eof).power = .lowest) : after ks := by
  cases h with
  | stop ha => exact ha
  | call => cases hk
  | operation hop => exact absurd hk (Kind.power_of_mem_binaryOperators hop).1

/-- Something that no token of a higher power starts is never merged. -/
theorem of_lowest (h : ∀ ks, after ks → (ks.headD .eof).power = .lowest)
    (he : ∀ ks, after ks → ks.headD .eof ≠ .elseKeyword) : Greedy strict after :=
  ⟨fun ha => .inl (h _ ha), fun ha => he _ ha⟩

end Greedy

/-- A new expression can be merged with the one in front of it, if it looks like that. -/
theorem Fits.merges {es : List Kind} (he : Fits strict .expression es) (hl : after ls) :
    ((es ++ ls).headD .eof).power = .lowest ∨
    (∃ as ms, es ++ ls = .openParen :: as ++ .closeParen :: ms ∧ Fits strict .arguments as ∧
      Continues strict after ms) ∨
    (∃ op us ms, es ++ ls = op :: us ++ ms ∧ op ∈ Kind.binaryOperators ∧ Fits strict .unary us ∧
      Continues strict after ms) := by
  cases he with
  | @expression us ops hu hops =>
    have hrest := Continues.of_operations hops (.stop hl)
    cases hu with
    | @unary op us hop hu =>
      simp only [Kind.unaryOperators, List.mem_cons, List.not_mem_nil, or_false] at hop
      rcases hop with rfl | rfl
      · exact .inl rfl
      · -- a sign becomes a binary minus
        exact .inr (.inr ⟨.dash, us, ops ++ ls, by simp, by decide, hu, hrest⟩)
    | @application ps cs hp hc =>
      have hcalls := Continues.of_calls hc hrest
      cases hp with
      | @grouping ks hk =>
        -- a group becomes a list of one argument
        refine .inr (.inl ⟨ks, cs ++ (ops ++ ls), by simp, ?_, hcalls⟩)
        simpa using Fits.arguments hk .noMoreArguments
      | _ => exact .inl rfl

/-- The end of a statement and the statements behind it, in front of `tail`. -/
def Following (strict required : Bool) (tail ks : List Kind) : Prop :=
  ∃ es ss, Ending required es ∧ Fits strict .statements ss ∧ ks = es ++ ss ++ tail

section
variable {required : Bool} {tail : List Kind} (htail : Rule.endsBlock (tail.headD .eof) = true)
include htail

theorem greedy_following : Greedy strict (Following strict required tail) := by
  obtain ⟨hlow, -, helse⟩ := Rule.power_of_endsBlock htail
  constructor
  · rintro ks ⟨es, ss, he, hs, rfl⟩
    cases he with
    | semicolon => exact .inl rfl
    | omitted hr =>
      subst hr
      cases hs with
      | noStatements => exact .inl hlow
      | @statements ks ls hk hl =>
        cases hk with
        | binding => exact .inl rfl
        | result => exact .inl rfl
        | @expressionStatement es ts he ht =>
          have hrest : Following strict false tail (ts ++ ls ++ tail) := ⟨ts, ls, ht, hl, rfl⟩
          simpa using he.merges hrest
  · rintro ks ⟨es, ss, he, hs, rfl⟩
    cases he with
    | semicolon => simp
    | omitted =>
      cases hs with
      | noStatements => exact helse
      | statements hk =>
        obtain ⟨k, ls, rfl, hstart⟩ := hk.exists_startsStatement
        intro he
        rw [show k = .elseKeyword from he] at hstart
        cases hstart

omit htail in
/-- Behind the end of a statement other statements come. -/
theorem Following.statements_of_ne (h : Following strict required tail ks)
    (hk : ks.headD .eof ≠ .semicolon) :
    required = false ∧ ∃ ss, Fits strict .statements ss ∧ ks = ss ++ tail := by
  obtain ⟨es, ss, he, hs, rfl⟩ := h
  cases he with
  | semicolon => exact absurd rfl hk
  | omitted hr => exact ⟨hr, ss, hs, rfl⟩

theorem Following.statements_of_eq (h : Following strict required tail (.semicolon :: ks)) :
    ∃ ss, Fits strict .statements ss ∧ ks = ss ++ tail := by
  obtain ⟨es, ss, he, hs, hks⟩ := h
  cases he with
  | semicolon => exact ⟨ss, hs, by simpa using hks⟩
  | omitted =>
    -- neither a statement nor what ends them starts with a semicolon
    cases hs with
    | noStatements =>
      have := (Rule.power_of_endsBlock htail).2.1
      rw [show tail = .semicolon :: ks by simpa using hks.symm] at this
      exact absurd rfl this
    | statements hs =>
      obtain ⟨k, ls, rfl, hk⟩ := hs.exists_startsStatement
      simp only [List.nil_append, List.cons_append, List.cons.injEq] at hks
      rw [← hks.1] at hk
      cases hk

end

end ExprLang.Grammar
