import ExprLang.Proofs.Grammar.Soundness
import ExprLang.Proofs.Tree.WellFormed

/-!
# Derived trees are well formed

Every production builds its node from the token that stands for it, so what is derived from tokens
that are spelled as their kinds say is a well-formed tree, and so is every program that is read
without errors (`isWellFormed_of_collected`).
-/

set_option autoImplicit false

namespace ExprLang.Grammar

open Step

/-- Stray characters apart, the tokens are spelled as their kinds say. -/
def Spelled (ts : List Token) : Prop := ∀ t ∈ ts, t.kind ≠ .illegal → t.isSpelled = true

theorem spelled_append {ts us : List Token} : Spelled (ts ++ us) ↔ Spelled ts ∧ Spelled us := by
  simp only [Spelled, List.mem_append, or_imp, forall_and]

theorem spelled_cons {t : Token} {ts : List Token} :
    Spelled (t :: ts) ↔ (t.kind ≠ .illegal → t.isSpelled = true) ∧ Spelled ts :=
  List.forall_mem_cons

theorem isProper_of_spelled {t : Token} {kinds : List Kind}
    (ht : t.kind ≠ .illegal → t.isSpelled = true) (hk : t.kind ∈ kinds)
    (hkinds : ∀ k ∈ kinds, k ≠ .illegal) : t.isProper kinds = true :=
  Token.isProper_iff.2 ⟨hk, ht (hkinds _ hk)⟩

theorem isProper_singleton_of_spelled {t : Token} {kind : Kind}
    (ht : t.kind ≠ .illegal → t.isSpelled = true) (hk : t.kind = kind) (hne : kind ≠ .illegal) :
    t.isProper [kind] = true :=
  isProper_of_spelled ht (List.mem_singleton.2 hk) (by simpa using hne)

theorem isWellFormed_ofToken {t : Token} (ht : t.kind ≠ .illegal → t.isSpelled = true)
    (hk : t.kind = .identifier) : (Identifier.ofToken t).isWellFormed = true := by
  have hproper := isProper_singleton_of_spelled ht hk (by decide)
  rw [Identifier.isWellFormed, Bool.and_eq_true]
  exact ⟨hproper, beq_self_eq_true t.literal⟩

theorem Level.mem_binaryOperators {level : Level} {kind : Kind} (h : kind ∈ level.operators) :
    kind ∈ Kind.binaryOperators := by
  revert h
  cases level <;> cases kind <;> decide

theorem Names.all_isWellFormed {ts : List Token} {names : List Identifier} (h : Names ts names)
    (hs : Spelled ts) : names.all Identifier.isWellFormed = true := by
  induction h with
  | @one t hk =>
    simp only [spelled_cons] at hs
    rw [List.all_cons, isWellFormed_ofToken hs.1 hk]
    rfl
  | @more t comma ts names hk _ _ ih =>
    simp only [spelled_cons] at hs
    rw [List.all_cons, isWellFormed_ofToken hs.1 hk, ih hs.2.2]
    rfl

theorem Parameters.all_isWellFormed {ts : List Token} {names : List Identifier}
    (h : Parameters ts names) (hs : Spelled ts) : names.all Identifier.isWellFormed = true := by
  cases h with
  | none => rfl
  | some h => exact h.all_isWellFormed hs

/-! ## Derivations -/

variable {strict : Bool}

mutual

theorem Expression.isWellFormed {level : Level} {ts : List Token} {e : Expr} :
    Expression strict level ts e → Spelled ts → e.isWellFormed = true
  | .binary hop hleft hright, hs => by
    simp only [spelled_append, spelled_cons] at hs
    have hproper := isProper_of_spelled hs.2.1 (Level.mem_binaryOperators hop) (by decide)
    have hl := hleft.isWellFormed hs.1
    have hr := hright.isWellFormed hs.2.2
    simp [Expr.isWellFormed, hproper, hl, hr]
  | .tighter h, hs => h.isWellFormed hs
  | .unary hop hright, hs => by
    rw [spelled_cons] at hs
    have hproper := isProper_of_spelled hs.1 (show _ ∈ Kind.unaryOperators from hop) (by decide)
    have hr := hright.isWellFormed hs.2
    simp [Expr.isWellFormed, hproper, hr]
  | .call hcallee hopening hargs _, hs => by
    simp only [List.append_assoc, List.cons_append, spelled_append, spelled_cons] at hs
    have hproper := isProper_singleton_of_spelled hs.2.1 hopening (by decide)
    have hc := hcallee.isWellFormed hs.1
    have ha := hargs.isWellFormedEach hs.2.2.1
    simp [Expr.isWellFormed, hproper, hc, ha]
  | .identifier hk, hs => isWellFormed_ofToken (spelled_cons.1 hs).1 hk
  | .integer hk hvalue, hs => by
    have hproper := isProper_singleton_of_spelled (spelled_cons.1 hs).1 hk (by decide)
    simp [Expr.isWellFormed, hproper, hvalue]
  | .trueLiteral hk, hs | .falseLiteral hk, hs =>
    isProper_singleton_of_spelled (spelled_cons.1 hs).1 hk (by decide)
  | .grouping _ h _, hs => by
    simp only [List.cons_append, spelled_append, spelled_cons] at hs
    exact h.isWellFormed hs.2.1
  | .conditional hk _ hcondition _ hconsequence halternative, hs => by
    simp only [List.append_assoc, List.cons_append, spelled_append, spelled_cons] at hs
    obtain ⟨ht, -, hts, -, hus, hvs⟩ := hs
    have hproper := isProper_singleton_of_spelled ht hk (by decide)
    have hc := hcondition.isWellFormed hts
    have hb := hconsequence.isWellFormed hus
    have ha := halternative.isWellFormedElse hvs
    simp [Expr.isWellFormed, hproper, hc, hb, ha]
  | .function hk _ hnames _ hbody, hs => by
    simp only [List.cons_append, spelled_append, spelled_cons] at hs
    obtain ⟨ht, -, hts, -, hus⟩ := hs
    have hproper := isProper_singleton_of_spelled ht hk (by decide)
    have hn := hnames.all_isWellFormed hts
    have hb := hbody.isWellFormed hus
    rw [Expr.isWellFormed, hproper, hn, hb]
    rfl

theorem Expressions.isWellFormedEach {ts : List Token} {es : List Expr} :
    Expressions strict ts es → Spelled ts → isWellFormedEach es = true
  | .one h, hs => by
    have he := h.isWellFormed hs
    simp [ExprLang.isWellFormedEach, he]
  | .more h _ h', hs => by
    simp only [spelled_append, spelled_cons] at hs
    have he := h.isWellFormed hs.1
    have hes := h'.isWellFormedEach hs.2.2
    simp [ExprLang.isWellFormedEach, he, hes]

theorem Arguments.isWellFormedEach {ts : List Token} {es : List Expr} :
    Arguments strict ts es → Spelled ts → isWellFormedEach es = true
  | .none, _ => rfl
  | .some h, hs => h.isWellFormedEach hs

theorem Alternative.isWellFormedElse {ts : List Token} {b : Option Block} :
    Alternative strict ts b → Spelled ts → isWellFormedElse b = true
  | .none, _ => rfl
  | .some _ h, hs => h.isWellFormed (spelled_cons.1 hs).2

theorem Braces.isWellFormed {ts : List Token} {b : Block} :
    Braces strict ts b → Spelled ts → b.isWellFormed = true
  | .mk hopening h _, hs => by
    simp only [List.cons_append, spelled_append, spelled_cons] at hs
    have hproper := isProper_singleton_of_spelled hs.1 hopening (by decide)
    have hss := h.isWellFormedBody hs.2.1
    simp [Block.isWellFormed, hproper, hss]

theorem Statements.isWellFormedBody {ts : List Token} {ss : List Stmt} :
    Statements strict ts ss → Spelled ts → isWellFormedBody ss = true
  | .nil, _ => rfl
  | .cons h h', hs => by
    rw [spelled_append] at hs
    have hw := h.isWellFormed hs.1
    have hws := h'.isWellFormedBody hs.2
    simp [ExprLang.isWellFormedBody, hw, hws]

theorem Statement.isWellFormed {ts : List Token} {s : Stmt} :
    Statement strict ts s → Spelled ts → s.isWellFormed = true
  | .binding hk hname _ h _, hs => by
    simp only [List.cons_append, spelled_append, spelled_cons] at hs
    obtain ⟨ht, hn, -, hts, -⟩ := hs
    have hproper := isProper_singleton_of_spelled ht hk (by decide)
    have hword := isWellFormed_ofToken hn hname
    have hv := h.isWellFormed hts
    simp [Stmt.isWellFormed, hproper, hword, hv]
  | .result hk h _, hs => by
    simp only [List.cons_append, spelled_append, spelled_cons] at hs
    have hproper := isProper_singleton_of_spelled hs.1 hk (by decide)
    have hv := h.isWellFormed hs.2.1
    simp [Stmt.isWellFormed, hproper, hv]
  | .expression h _, hs => h.isWellFormed (spelled_append.1 hs).1

end

/-! ## Programs -/

/-- The statements of a source without errors. -/
theorem isWellFormedBody_of_collected {source : String} {file : Option String} {options : Options}
    {ss : List Stmt} {q : Parser}
    (h : Collected (· == .eof) Parser.loggedStatement (.opened source file options) ss q) :
    isWellFormedBody ss = true := by
  have hspelled := Parser.spelled_opened source file options
  obtain ⟨ts, hts, hss⟩ := statements_of_collected Parser.steady_loggedStatement
    statement_of_loggedStatement hspelled rfl h
  refine hss.isWellFormedBody fun t ht => hspelled t ?_
  rw [hts]
  exact List.mem_append_left _ ht

end ExprLang.Grammar
