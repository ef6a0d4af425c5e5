import ExprLang.Proofs.Tree.WellFormed

/-!
# Trees built from tokens

`BuiltFrom T`: every node is built from a token that has the property `T` and is of a kind that the
node can be built from, and the other fields of the node are what the token says. A numeral that is
out of range says zero. As for well-formed trees, nothing is asked of the token of an expression
statement.
-/

set_option autoImplicit false

namespace ExprLang

/-- The value that a numeral counts as: its own, if that is a 64-bit integer. -/
def Text.countedValue (literal : String) : Int64 := (readInt64? literal.toList).getD 0

/-- The name is the spelling of a word with the property `T`. -/
structure Identifier.BuiltFrom (T : Token → Prop) (x : Identifier) : Prop where
  token : T x.token
  kind : x.token.kind = .identifier
  value : x.value = x.token.literal

mutual

/-- The nodes of the expression are built from tokens with the property `T` (module doc). -/
def Expr.BuiltFrom (T : Token → Prop) : Expr → Prop
  | .identifier name => name.BuiltFrom T
  | .integer token value =>
    T token ∧ token.kind = .integer ∧ value = Text.countedValue token.literal
  | .boolean token value => T token ∧ token.kind = if value then .trueKeyword else .falseKeyword
  | .unary token operator right =>
    T token ∧ token.kind ∈ Kind.unaryOperators ∧ operator = token.literal ∧ right.BuiltFrom T
  | .binary token left operator right =>
    T token ∧ token.kind ∈ Kind.binaryOperators ∧ operator = token.literal ∧
      left.BuiltFrom T ∧ right.BuiltFrom T
  | .conditional token condition consequence alternative =>
    T token ∧ token.kind = .ifKeyword ∧ condition.BuiltFrom T ∧ consequence.BuiltFrom T ∧
      BuiltFromElse T alternative
  | .call token callee arguments =>
    T token ∧ token.kind = .openParen ∧ callee.BuiltFrom T ∧ BuiltFromEach T arguments
  | .function token parameters body =>
    T token ∧ token.kind = .fnKeyword ∧ (∀ x ∈ parameters, x.BuiltFrom T) ∧ body.BuiltFrom T

/-- The nodes of the block are built from tokens with the property `T`. -/
def Block.BuiltFrom (T : Token → Prop) : Block → Prop
  | .mk token statements => T token ∧ token.kind = .openCurly ∧ BuiltFromBody T statements

/-- The nodes of the statement are built from tokens with the property `T`. -/
def Stmt.BuiltFrom (T : Token → Prop) : Stmt → Prop
  | .binding token name value =>
    T token ∧ token.kind = .letKeyword ∧ name.BuiltFrom T ∧ value.BuiltFrom T
  | .result token value => T token ∧ token.kind = .returnKeyword ∧ value.BuiltFrom T
  | .expression _ value => value.BuiltFrom T

/-- The nodes of the expressions are built from tokens with the property `T`. -/
def BuiltFromEach (T : Token → Prop) : List Expr → Prop
  | [] => True
  | e :: es => e.BuiltFrom T ∧ BuiltFromEach T es

/-- The nodes of the statements are built from tokens with the property `T`. -/
def BuiltFromBody (T : Token → Prop) : List Stmt → Prop
  | [] => True
  | s :: ss => s.BuiltFrom T ∧ BuiltFromBody T ss

/-- The nodes of the alternative, if there is one, are built from tokens with the property `T`. -/
def BuiltFromElse (T : Token → Prop) : Option Block → Prop
  | none => True
  | some block => block.BuiltFrom T

end

theorem builtFromEach_iff {T : Token → Prop} {es : List Expr} :
    BuiltFromEach T es ↔ ∀ e ∈ es, e.BuiltFrom T := by
  induction es with
  | nil => simp [BuiltFromEach]
  | cons e es ih => rw [BuiltFromEach, ih, List.forall_mem_cons]

theorem builtFromBody_iff {T : Token → Prop} {ss : List Stmt} :
    BuiltFromBody T ss ↔ ∀ s ∈ ss, s.BuiltFrom T := by
  induction ss with
  | nil => simp [BuiltFromBody]
  | cons s ss ih => rw [BuiltFromBody, ih, List.forall_mem_cons]

/-- The nodes of the program are built from tokens with the property `T` (module doc). -/
def Program.BuiltFrom (T : Token → Prop) (p : Program) : Prop := BuiltFromBody T p.statements

end ExprLang
