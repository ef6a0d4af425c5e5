import ExprLang.Tree.Basic

/-!
# The tokens of a tree in reading order

The entries of a tree are the tokens of its nodes in the order in which they are read: an operation
between two operands or of a call behind what stands in front of it, and every other node in front
of its parts. The token of an expression statement is the first one of the statement and may belong
to one of the nodes inside of it, so it is an entry of another sort, which stands in front of those
of its expression.
-/

set_option autoImplicit false

namespace ExprLang

/-- A token in the listing of a tree. -/
inductive Entry where
  /-- The token of a node. -/
  | node (token : Token)
  /-- The token of an expression statement, in front of the entries of its expression. -/
  | begins (token : Token) (value : Expr)

/-- The token of a node, if it is one. -/
def Entry.node? : Entry → Option Token
  | node token => some token
  | begins .. => none

/-- The tokens of nodes among the entries. -/
def nodeTokens (es : List Entry) : List Token := es.filterMap Entry.node?

mutual

/-- The entries of an expression (module doc). -/
def Expr.entries : Expr → List Entry
  | .identifier name => [.node name.token]
  | .integer token _ | .boolean token _ => [.node token]
  | .unary token _ right => .node token :: right.entries
  | .binary token left _ right => left.entries ++ .node token :: right.entries
  | .conditional token condition consequence alternative =>
    .node token :: (condition.entries ++ (consequence.entries ++ entriesElse alternative))
  | .call token callee arguments => callee.entries ++ .node token :: entriesEach arguments
  | .function token parameters body =>
    .node token :: (parameters.map (fun name => .node name.token) ++ body.entries)

/-- The entries of a block. -/
def Block.entries : Block → List Entry
  | .mk token statements => .node token :: entriesBody statements

/-- The entries of a statement. -/
def Stmt.entries : Stmt → List Entry
  | .binding token name value => .node token :: .node name.token :: value.entries
  | .result token value => .node token :: value.entries
  | .expression token value => .begins token value :: value.entries

/-- The entries of several expressions. -/
def entriesEach : List Expr → List Entry
  | [] => []
  | e :: es => e.entries ++ entriesEach es

/-- The entries of several statements. -/
def entriesBody : List Stmt → List Entry
  | [] => []
  | s :: ss => s.entries ++ entriesBody ss

/-- The entries of the alternative of a conditional, if there is one. -/
def entriesElse : Option Block → List Entry
  | none => []
  | some block => block.entries

end

/-- The entries of a program. -/
def Program.entries (p : Program) : List Entry := entriesBody p.statements

/-- The tokens of the nodes of an expression, in reading order. -/
def Expr.listed (e : Expr) : List Token := nodeTokens e.entries

@[simp] theorem nodeTokens_node (t : Token) (es : List Entry) :
    nodeTokens (.node t :: es) = t :: nodeTokens es := rfl

@[simp] theorem nodeTokens_begins (t : Token) (e : Expr) (es : List Entry) :
    nodeTokens (.begins t e :: es) = nodeTokens es := rfl

@[simp] theorem nodeTokens_append (es fs : List Entry) :
    nodeTokens (es ++ fs) = nodeTokens es ++ nodeTokens fs := List.filterMap_append

/-- Every expression has a node. -/
theorem Expr.listed_ne_nil (e : Expr) : e.listed ≠ [] := by
  cases e <;> simp [Expr.listed, Expr.entries]

/-! ## Along a text -/

/--
The entries are met in this order between the tokens in front and those behind: a node uses up its
token, and the token of an expression statement stays, for what is listed of its expression.
-/
inductive Along : List Token → List Entry → List Token → Prop
  | done {ts : List Token} : Along ts [] ts
  | skip {t : Token} {ts us : List Token} {es : List Entry} : Along ts es us →
      Along (t :: ts) es us
  | node {t : Token} {ts us : List Token} {es : List Entry} : Along ts es us →
      Along (t :: ts) (.node t :: es) us
  | begins {t : Token} {ts us : List Token} {e : Expr} {es : List Entry} :
      e.listed.Sublist (t :: ts) → Along (t :: ts) es us → Along (t :: ts) (.begins t e :: es) us

namespace Along

variable {ts us vs : List Token} {es fs : List Entry}

theorem trans (h : Along ts es us) (h' : Along us fs vs) : Along ts (es ++ fs) vs := by
  induction h with
  | done => exact h'
  | skip _ ih => exact .skip (ih h')
  | node _ ih => exact .node (ih h')
  | begins hlisted _ ih => exact .begins hlisted (ih h')

theorem of_suffix (h : us <:+ ts) : Along ts [] us := by
  obtain ⟨gone, rfl⟩ := h
  induction gone with
  | nil => exact .done
  | cons t gone ih => exact .skip ih

/-- Tokens behind the last entry may be left out. -/
theorem then_suffix (h : Along ts es us) (hvs : vs <:+ us) : Along ts es vs :=
  List.append_nil es ▸ h.trans (of_suffix hvs)

theorem sublist (h : Along ts es us) : (nodeTokens es).Sublist ts := by
  induction h with
  | done => exact List.nil_sublist _
  | skip _ ih => exact ih.cons _
  | node _ ih => exact ih.cons_cons _
  | begins _ _ ih => exact ih

/-- The token of an expression statement is behind all that is listed in front of it. -/
theorem exists_begins {front behind : List Entry} {t : Token} {e : Expr}
    (h : Along ts (front ++ .begins t e :: behind) us) :
    ∃ gone rest, ts = gone ++ t :: rest ∧ (nodeTokens front).Sublist gone ∧
      e.listed.Sublist (t :: rest) := by
  generalize hes : front ++ .begins t e :: behind = es at h
  induction h generalizing front with
  | done => exact absurd hes (by simp)
  | @skip u _ _ _ _ ih =>
    obtain ⟨gone, rest, rfl, hgone, hrest⟩ := ih hes
    exact ⟨u :: gone, rest, rfl, hgone.cons u, hrest⟩
  | @node u _ _ _ _ ih =>
    cases front with
    | nil => cases hes
    | cons entry front =>
      cases hes
      obtain ⟨gone, rest, rfl, hgone, hrest⟩ := ih rfl
      exact ⟨u :: gone, rest, rfl, hgone.cons_cons u, hrest⟩
  | @begins u ts _ _ _ hlisted _ ih =>
    cases front with
    | nil =>
      cases hes
      exact ⟨[], ts, rfl, List.nil_sublist _, hlisted⟩
    | cons entry front =>
      cases hes
      rw [nodeTokens_begins]
      exact ih rfl

end Along

end ExprLang
