import ExprLang.Proofs.Token.Scanning
import ExprLang.Tree.Render

/-!
# Trees up to the places of their tokens

`mapTokens f g` changes the tokens of a tree, with `g` those of the expression statements, which
name no part of the tree that is not named by another token, and with `f` all others. `erased`
forgets the places of tokens, and the tokens of expression statements altogether. Main statement
(`Program.render_erased`): the canonical text depends on nothing that is forgotten.
-/

set_option autoImplicit false

namespace ExprLang

/-- The name with its token changed. -/
def Identifier.mapTokens (f : Token → Token) (x : Identifier) : Identifier := ⟨f x.token, x.value⟩

mutual

/-- The expression with its tokens changed. -/
def Expr.mapTokens (f g : Token → Token) : Expr → Expr
  | .identifier name => .identifier (name.mapTokens f)
  | .integer token value => .integer (f token) value
  | .boolean token value => .boolean (f token) value
  | .unary token operator right => .unary (f token) operator (right.mapTokens f g)
  | .binary token left operator right =>
    .binary (f token) (left.mapTokens f g) operator (right.mapTokens f g)
  | .conditional token condition consequence alternative =>
    .conditional (f token) (condition.mapTokens f g) (consequence.mapTokens f g)
      (mapTokensElse f g alternative)
  | .call token callee arguments =>
    .call (f token) (callee.mapTokens f g) (mapTokensEach f g arguments)
  | .function token parameters body =>
    .function (f token) (parameters.map (Identifier.mapTokens f)) (body.mapTokens f g)

/-- The block with its tokens changed. -/
def Block.mapTokens (f g : Token → Token) : Block → Block
  | .mk token statements => .mk (f token) (mapTokensBody f g statements)

/-- The statement with its tokens changed. -/
def Stmt.mapTokens (f g : Token → Token) : Stmt → Stmt
  | .binding token name value => .binding (f token) (name.mapTokens f) (value.mapTokens f g)
  | .result token value => .result (f token) (value.mapTokens f g)
  | .expression token value => .expression (g token) (value.mapTokens f g)

/-- The expressions with their tokens changed. -/
def mapTokensEach (f g : Token → Token) : List Expr → List Expr
  | [] => []
  | e :: es => e.mapTokens f g :: mapTokensEach f g es

/-- The statements with their tokens changed. -/
def mapTokensBody (f g : Token → Token) : List Stmt → List Stmt
  | [] => []
  | s :: ss => s.mapTokens f g :: mapTokensBody f g ss

/-- The alternative of a conditional with its tokens changed, if there is one. -/
def mapTokensElse (f g : Token → Token) : Option Block → Option Block
  | none => none
  | some block => some (block.mapTokens f g)

end

/-! ## Lists of trees -/

section
variable (f g : Token → Token)

theorem mapTokensEach_eq_map (es : List Expr) :
    mapTokensEach f g es = es.map (Expr.mapTokens f g) := by
  induction es with
  | nil => rfl
  | cons e es ih => rw [mapTokensEach, ih, List.map_cons]

theorem mapTokensBody_eq_map (ss : List Stmt) :
    mapTokensBody f g ss = ss.map (Stmt.mapTokens f g) := by
  induction ss with
  | nil => rfl
  | cons s ss ih => rw [mapTokensBody, ih, List.map_cons]

theorem mapTokensElse_eq_map (b : Option Block) :
    mapTokensElse f g b = b.map (Block.mapTokens f g) := by
  cases b <;> rfl

end

/-! ## The canonical text -/

/-- A change of tokens that no spelling shows. -/
def KeepsLiterals (f : Token → Token) : Prop := ∀ t, (f t).literal = t.literal

section
variable {f g : Token → Token}

mutual

theorem Expr.render_mapTokens (hf : KeepsLiterals f) :
    (e : Expr) → (e.mapTokens f g).render = e.render
  | .identifier _ => by simp only [Expr.mapTokens, Expr.render, Identifier.mapTokens]
  | .integer _ _ => by simp only [Expr.mapTokens, Expr.render, hf _]
  | .boolean _ _ => by simp only [Expr.mapTokens, Expr.render]
  | .unary _ _ r => by simp only [Expr.mapTokens, Expr.render, Expr.render_mapTokens hf r]
  | .binary _ l _ r => by
    simp only [Expr.mapTokens, Expr.render, Expr.render_mapTokens hf l, Expr.render_mapTokens hf r]
  | .conditional _ c b a => by
    simp only [Expr.mapTokens, Expr.render, Expr.render_mapTokens hf c, Block.render_mapTokens hf b,
      renderElse_mapTokens hf a]
  | .call _ c args => by
    simp only [Expr.mapTokens, Expr.render, Expr.render_mapTokens hf c,
      renderEach_mapTokens hf args]
  | .function _ ps b => by
    simp only [Expr.mapTokens, Expr.render, hf _, Block.render_mapTokens hf b, List.map_map]
    rfl

theorem Block.render_mapTokens (hf : KeepsLiterals f) :
    (b : Block) → (b.mapTokens f g).render = b.render
  | .mk _ ss => by simp only [Block.mapTokens, Block.render, renderBody_mapTokens hf ss]

theorem Stmt.render_mapTokens (hf : KeepsLiterals f) :
    (s : Stmt) → (s.mapTokens f g).render = s.render
  | .binding _ _ v => by
    simp only [Stmt.mapTokens, Stmt.render, hf _, Identifier.mapTokens, Expr.render_mapTokens hf v]
  | .result _ v => by simp only [Stmt.mapTokens, Stmt.render, hf _, Expr.render_mapTokens hf v]
  | .expression _ v => by simp only [Stmt.mapTokens, Stmt.render, Expr.render_mapTokens hf v]

theorem renderEach_mapTokens (hf : KeepsLiterals f) :
    (es : List Expr) → renderEach (mapTokensEach f g es) = renderEach es
  | [] => rfl
  | e :: es => by
    simp only [mapTokensEach, renderEach, Expr.render_mapTokens hf e, renderEach_mapTokens hf es]

theorem renderBody_mapTokens (hf : KeepsLiterals f) :
    (ss : List Stmt) → renderBody (mapTokensBody f g ss) = renderBody ss
  | [] => rfl
  | s :: ss => by
    simp only [mapTokensBody, renderBody, Stmt.render_mapTokens hf s, renderBody_mapTokens hf ss]

theorem renderElse_mapTokens (hf : KeepsLiterals f) :
    (b : Option Block) → renderElse (mapTokensElse f g b) = renderElse b
  | none => rfl
  | some b => by simp only [mapTokensElse, renderElse, Block.render_mapTokens hf b]

end

theorem renderLines_mapTokens (hf : KeepsLiterals f) (ss : List Stmt) :
    renderLines (mapTokensBody f g ss) = renderLines ss := by
  induction ss with
  | nil => rfl
  | cons s ss ih => simp only [mapTokensBody, renderLines, Stmt.render_mapTokens hf s, ih]

end

/-! ## Erasure -/

/-- The name without its place. -/
def Identifier.erased (x : Identifier) : Identifier := x.mapTokens Token.bare

theorem Identifier.value_eq {x y : Identifier} (h : x.erased = y.erased) : x.value = y.value := by
  rw [erased, erased, mapTokens, mapTokens, Identifier.mk.injEq] at h
  exact h.2

/-- The expression without the places of its tokens (module doc). -/
def Expr.erased (e : Expr) : Expr := e.mapTokens Token.bare fun _ => default

def Block.erased (b : Block) : Block := b.mapTokens Token.bare fun _ => default

def Stmt.erased (s : Stmt) : Stmt := s.mapTokens Token.bare fun _ => default

def erasedEach (es : List Expr) : List Expr := mapTokensEach Token.bare (fun _ => default) es

def erasedBody (ss : List Stmt) : List Stmt := mapTokensBody Token.bare (fun _ => default) ss

def erasedElse (b : Option Block) : Option Block := mapTokensElse Token.bare (fun _ => default) b

/-- The program without the places of its tokens (module doc). -/
def Program.erased (p : Program) : Program := ⟨erasedBody p.statements⟩

theorem Program.render_erased (p : Program) : p.erased.render = p.render :=
  renderLines_mapTokens (f := Token.bare) (fun _ => rfl) p.statements

end ExprLang
