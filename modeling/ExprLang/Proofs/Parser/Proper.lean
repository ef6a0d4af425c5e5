import ExprLang.Proofs.Parser.Building
import ExprLang.Proofs.Tree.Node
import ExprLang.Tree.Equality

/-!
# What the nodes of a program say

The rules ask for nothing but kinds: which rule reads a token is up to its kind, and the kind says
how the lexer can have spelled it. So every node of a program has the token that its form asks for,
down to the spelling, and its other fields repeat what that token says (`Node.Proper`). Main
statement: `proper_of_contains`, for programs of sources with errors or without.
-/

set_option autoImplicit false

namespace ExprLang

/-- How the token is spelled, and its kind. -/
def Token.spelledKind (t : Token) : String × Kind := (t.literal, t.kind)

/-- The name is a run of letters that is no keyword. -/
structure Identifier.Proper (x : Identifier) : Prop where
  kind : x.token.kind = .identifier
  nonempty : x.token.literal.toList ≠ []
  letters : ∀ c ∈ x.token.literal.toList, c.isAlpha = true
  not_keyword : Kind.keyword? x.token.literal = none
  value : x.value = x.token.literal

namespace Node

/-- The prefix operators and how they are spelled. -/
def unarySpellings : List (String × Kind) := [("!", .not), ("-", .dash)]

/-- The infix operators and how they are spelled. -/
def binarySpellings : List (String × Kind) :=
  [("==", .equals), ("!=", .notEquals), ("<", .less), (">", .greater), ("+", .plus), ("-", .dash),
    ("*", .star), ("/", .slash)]

theorem unarySpellings_subset : unarySpellings ⊆ Kind.fixedSpellings := by decide +kernel

theorem binarySpellings_subset : binarySpellings ⊆ Kind.fixedSpellings := by decide +kernel

/--
The token of the node is one of those that its form asks for, and its other fields say the same.
For the token of an expression statement see the expression.
-/
def Proper : Node → Prop
  | name x => x.Proper
  | expression (.identifier x) => x.Proper
  | expression (.integer t _) =>
    t.kind = .integer ∧ t.literal.toList ≠ [] ∧ ∀ c ∈ t.literal.toList, c.isDigit = true
  | expression (.boolean t value) =>
    t.spelledKind = if value then ("true", .trueKeyword) else ("false", .falseKeyword)
  | expression (.unary t operator _) => t.spelledKind ∈ unarySpellings ∧ operator = t.literal
  | expression (.binary t _ operator _) => t.spelledKind ∈ binarySpellings ∧ operator = t.literal
  | expression (.conditional t _ _ _) => t.spelledKind = ("if", .ifKeyword)
  | expression (.call t _ _) => t.spelledKind = ("(", .openParen)
  | expression (.function t _ _) => t.spelledKind = ("fn", .fnKeyword)
  | block b => b.token.spelledKind = ("\x7b", .openCurly)
  | statement (.binding t _ _) => t.spelledKind = ("let", .letKeyword)
  | statement (.result t _) => t.spelledKind = ("return", .returnKeyword)
  | statement (.expression _ _) => True

end Node

/-! ## Kinds with one spelling -/

section
variable {t : Token} (ht : t.kind ≠ .illegal → t.isSpelled = true)
include ht

/-- The kind of a token says how it is spelled, if the vocabulary has only one spelling for it. -/
theorem Token.spelledKind_eq {entry : String × Kind} (hentry : entry ∈ Kind.fixedSpellings)
    (hk : t.kind = entry.2) : t.spelledKind = entry := by
  have hunique : ∀ a ∈ Kind.fixedSpellings, ∀ b ∈ Kind.fixedSpellings, a.2 = b.2 → a = b := by
    decide +kernel
  have hfixed : ∀ a ∈ Kind.fixedSpellings,
      a.2 ≠ .identifier ∧ a.2 ≠ .integer ∧ a.2 ≠ .illegal := by
    decide +kernel
  obtain ⟨hname, hnumber, hillegal⟩ := hfixed entry hentry
  rw [← hk] at hname hnumber hillegal
  have hspelled : t.isSpelled = true := ht hillegal
  have hmem : t.spelledKind ∈ Kind.fixedSpellings := by
    unfold isSpelled Kind.allowsSpelling at hspelled
    split at hspelled
    · exact absurd ‹_› hname
    · exact absurd ‹_› hnumber
    · exact List.contains_iff_mem.1 hspelled
  exact hunique _ hmem _ hentry hk

theorem Token.spelledKind_mem {entries : List (String × Kind)}
    (hentries : entries ⊆ Kind.fixedSpellings) (hk : t.kind ∈ entries.map Prod.snd) :
    t.spelledKind ∈ entries := by
  obtain ⟨entry, hmem, hkind⟩ := List.mem_map.1 hk
  exact Token.spelledKind_eq ht (hentries hmem) hkind.symm ▸ hmem

end

/-! ## Nodes -/

section
variable {T : Token → Prop} (hT : ∀ t, T t → t.kind ≠ .illegal → t.isSpelled = true)
include hT

theorem Identifier.BuiltFrom.proper {x : Identifier} (h : x.BuiltFrom T) : x.Proper := by
  have hs : x.token.isSpelled = true := hT _ h.token (by rw [h.kind]; decide)
  rw [Token.isSpelled, h.kind] at hs
  simp only [Kind.allowsSpelling, Text.isName, Bool.and_eq_true, Bool.not_eq_true',
    List.isEmpty_eq_false_iff, List.all_eq_true, Option.isNone_iff_eq_none] at hs
  exact ⟨h.kind, hs.1.1, hs.1.2, hs.2, h.value⟩

/-- A node that is built from tokens of the lexer is proper. -/
theorem Node.BuiltFrom.proper {n : Node} (h : n.BuiltFrom T) : n.Proper := by
  rcases n with x | e | ⟨t, ss⟩ | s
  · exact Identifier.BuiltFrom.proper hT h
  · cases e with
    | identifier x => exact Identifier.BuiltFrom.proper hT h
    | integer t value =>
      obtain ⟨ht, hk, -⟩ := h
      have hs : t.isSpelled = true := hT _ ht (by rw [hk]; decide)
      rw [Token.isSpelled, hk] at hs
      simp only [Kind.allowsSpelling, Text.isNumeral, Bool.and_eq_true, Bool.not_eq_true',
        List.isEmpty_eq_false_iff, List.all_eq_true] at hs
      exact ⟨hk, hs⟩
    | boolean t value =>
      cases value with
      | true =>
        change t.spelledKind = ("true", .trueKeyword)
        exact Token.spelledKind_eq (hT t h.1) (by decide +kernel) h.2
      | false =>
        change t.spelledKind = ("false", .falseKeyword)
        exact Token.spelledKind_eq (hT t h.1) (by decide +kernel) h.2
    | unary t operator right =>
      obtain ⟨ht, hk, hoperator, -⟩ := h
      exact ⟨Token.spelledKind_mem (hT t ht) unarySpellings_subset hk, hoperator⟩
    | binary t left operator right =>
      obtain ⟨ht, hk, hoperator, -⟩ := h
      exact ⟨Token.spelledKind_mem (hT t ht) binarySpellings_subset hk, hoperator⟩
    | conditional => exact Token.spelledKind_eq (hT _ h.1) (by decide +kernel) h.2.1
    | call => exact Token.spelledKind_eq (hT _ h.1) (by decide +kernel) h.2.1
    | function => exact Token.spelledKind_eq (hT _ h.1) (by decide +kernel) h.2.1
  · exact Token.spelledKind_eq (hT t h.1) (by decide +kernel) h.2.1
  · cases s with
    | binding => exact Token.spelledKind_eq (hT _ h.1) (by decide +kernel) h.2.1
    | result => exact Token.spelledKind_eq (hT _ h.1) (by decide +kernel) h.2.1
    | expression => trivial

end

/-- Every node of a program is proper, whatever errors its source has. -/
theorem proper_of_contains {source : String} {file : Option String} {options : Options} {n : Node}
    (h : (parse source file options).program.Contains n) : n.Proper :=
  Node.BuiltFrom.proper (fun _ ht => ht.2) ((builtFrom_parse source file options).node h)

/-- An operation among arguments, behind a binding that fails. -/
theorem proper_of_contains_recovered :
    let o := parse "let 1; f(!x)" none {}
    let t := Token.placed defaultFile
    let e := Expr.unary (t 9 .not "!") "!" (.identifier (.ofToken (t 10 .identifier "x")))
    o.errors ≠ [] ∧ o.program.Contains (.expression e) ∧ (Node.expression e).Proper := by
  intro o t e
  let f := Expr.identifier (.ofToken (t 7 .identifier "f"))
  let called := Expr.call (t 8 .openParen "(") f [e]
  have hs : Stmt.expression (t 7 .identifier "f") called ∈ o.program.statements := by
    decide +kernel
  have hcall : o.program.Contains (.expression called) :=
    .inside (.top hs) (List.mem_singleton_self _)
  have hargument : o.program.Contains (.expression e) :=
    hcall.inside (List.mem_cons_of_mem _ (List.mem_singleton_self _))
  exact ⟨by decide +kernel, hargument, proper_of_contains hargument⟩

end ExprLang
