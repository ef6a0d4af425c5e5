import ExprLang.Diagnostic.Report
import ExprLang.Proofs.Token.Concatenation
import ExprLang.Proofs.Tree.Erasure

/-!
# Trees and errors at other places

`relocate f` moves every token of a tree, and an error, to the place that `f` gives for its own. It
goes through a tree node by node, and moving nothing changes nothing (`Stmt.relocate_id`).
-/

set_option autoImplicit false

namespace ExprLang

/-- The name with its place moved. -/
def Identifier.relocate (f : Position → Position) (x : Identifier) : Identifier :=
  x.mapTokens (.relocate f)

/-- The expression with its places moved. -/
def Expr.relocate (f : Position → Position) (e : Expr) : Expr :=
  e.mapTokens (.relocate f) (.relocate f)

/-- The block with its places moved. -/
def Block.relocate (f : Position → Position) (b : Block) : Block :=
  b.mapTokens (.relocate f) (.relocate f)

/-- The statement with its places moved. -/
def Stmt.relocate (f : Position → Position) (s : Stmt) : Stmt :=
  s.mapTokens (.relocate f) (.relocate f)

/-- The error at another place. -/
def Diagnostic.relocate (f : Position → Position) (d : Diagnostic) : Diagnostic :=
  ⟨d.fault, f d.position⟩

section
variable (f : Position → Position) (t : Token)

theorem Expr.relocate_conditional (c : Expr) (b : Block) (a : Option Block) :
    (conditional t c b a).relocate f =
      .conditional (t.relocate f) (c.relocate f) (b.relocate f) (a.map (Block.relocate f)) := by
  rw [relocate, mapTokens, mapTokensElse_eq_map]
  rfl

theorem Expr.relocate_call (c : Expr) (es : List Expr) :
    (call t c es).relocate f =
      .call (t.relocate f) (c.relocate f) (es.map (Expr.relocate f)) := by
  rw [relocate, mapTokens, mapTokensEach_eq_map]
  rfl

theorem Block.relocate_mk (ss : List Stmt) :
    (mk t ss).relocate f = .mk (t.relocate f) (ss.map (Stmt.relocate f)) := by
  rw [relocate, mapTokens, mapTokensBody_eq_map]
  rfl

theorem Stmt.token_relocate (s : Stmt) : (s.relocate f).token = s.token.relocate f := by
  cases s <;> rfl

end

/-! ## One change after another -/

section
variable (f g f' g' : Token → Token)

mutual

theorem Expr.mapTokens_mapTokens :
    (e : Expr) → (e.mapTokens f g).mapTokens f' g' = e.mapTokens (f' ∘ f) (g' ∘ g)
  | .identifier _ => rfl
  | .integer _ _ => rfl
  | .boolean _ _ => rfl
  | .unary _ _ r => by
    simp only [Expr.mapTokens, Expr.mapTokens_mapTokens r, Function.comp_apply]
  | .binary _ l _ r => by
    simp only [Expr.mapTokens, Expr.mapTokens_mapTokens l, Expr.mapTokens_mapTokens r,
      Function.comp_apply]
  | .conditional _ c b a => by
    simp only [Expr.mapTokens, Expr.mapTokens_mapTokens c, Block.mapTokens_mapTokens b,
      mapTokensElse_mapTokensElse a, Function.comp_apply]
  | .call _ c es => by
    simp only [Expr.mapTokens, Expr.mapTokens_mapTokens c, mapTokensEach_mapTokensEach es,
      Function.comp_apply]
  | .function _ ps b => by
    simp only [Expr.mapTokens, Block.mapTokens_mapTokens b, Function.comp_apply, List.map_map]
    rfl

theorem Block.mapTokens_mapTokens :
    (b : Block) → (b.mapTokens f g).mapTokens f' g' = b.mapTokens (f' ∘ f) (g' ∘ g)
  | .mk _ ss => by
    simp only [Block.mapTokens, mapTokensBody_mapTokensBody ss, Function.comp_apply]

theorem Stmt.mapTokens_mapTokens :
    (s : Stmt) → (s.mapTokens f g).mapTokens f' g' = s.mapTokens (f' ∘ f) (g' ∘ g)
  | .binding _ _ e => by
    simp only [Stmt.mapTokens, Expr.mapTokens_mapTokens e, Function.comp_apply]
    rfl
  | .result _ e => by simp only [Stmt.mapTokens, Expr.mapTokens_mapTokens e, Function.comp_apply]
  | .expression _ e => by
    simp only [Stmt.mapTokens, Expr.mapTokens_mapTokens e, Function.comp_apply]

theorem mapTokensEach_mapTokensEach : (es : List Expr) →
    mapTokensEach f' g' (mapTokensEach f g es) = mapTokensEach (f' ∘ f) (g' ∘ g) es
  | [] => rfl
  | e :: es => by
    simp only [mapTokensEach, Expr.mapTokens_mapTokens e, mapTokensEach_mapTokensEach es]

theorem mapTokensBody_mapTokensBody : (ss : List Stmt) →
    mapTokensBody f' g' (mapTokensBody f g ss) = mapTokensBody (f' ∘ f) (g' ∘ g) ss
  | [] => rfl
  | s :: ss => by
    simp only [mapTokensBody, Stmt.mapTokens_mapTokens s, mapTokensBody_mapTokensBody ss]

theorem mapTokensElse_mapTokensElse : (b : Option Block) →
    mapTokensElse f' g' (mapTokensElse f g b) = mapTokensElse (f' ∘ f) (g' ∘ g) b
  | none => rfl
  | some b => by simp only [mapTokensElse, Block.mapTokens_mapTokens b]

end

end

/-! ## Moving nothing -/

theorem Identifier.mapTokens_id (x : Identifier) : x.mapTokens id = x := rfl

mutual

theorem Expr.mapTokens_id : (e : Expr) → e.mapTokens id id = e
  | .identifier _ => rfl
  | .integer _ _ => rfl
  | .boolean _ _ => rfl
  | .unary _ _ r => by rw [Expr.mapTokens, Expr.mapTokens_id r, id]
  | .binary _ l _ r => by rw [Expr.mapTokens, Expr.mapTokens_id l, Expr.mapTokens_id r, id]
  | .conditional _ c b a => by
    rw [Expr.mapTokens, Expr.mapTokens_id c, Block.mapTokens_id b, mapTokensElse_id a, id]
  | .call _ c es => by rw [Expr.mapTokens, Expr.mapTokens_id c, mapTokensEach_id es, id]
  | .function _ ps b => by
    rw [Expr.mapTokens, Block.mapTokens_id b, id]
    exact congrArg (fun ps => Expr.function _ ps b) (List.map_id ps)

theorem Block.mapTokens_id : (b : Block) → b.mapTokens id id = b
  | .mk _ ss => by rw [Block.mapTokens, mapTokensBody_id ss, id]

theorem Stmt.mapTokens_id : (s : Stmt) → s.mapTokens id id = s
  | .binding _ _ e => by rw [Stmt.mapTokens, Expr.mapTokens_id e, Identifier.mapTokens_id, id]
  | .result _ e => by rw [Stmt.mapTokens, Expr.mapTokens_id e, id]
  | .expression _ e => by rw [Stmt.mapTokens, Expr.mapTokens_id e, id]

theorem mapTokensEach_id : (es : List Expr) → mapTokensEach id id es = es
  | [] => rfl
  | e :: es => by rw [mapTokensEach, Expr.mapTokens_id e, mapTokensEach_id es]

theorem mapTokensBody_id : (ss : List Stmt) → mapTokensBody id id ss = ss
  | [] => rfl
  | s :: ss => by rw [mapTokensBody, Stmt.mapTokens_id s, mapTokensBody_id ss]

theorem mapTokensElse_id : (b : Option Block) → mapTokensElse id id b = b
  | none => rfl
  | some b => by rw [mapTokensElse, Block.mapTokens_id b]

end

theorem Stmt.relocate_id (s : Stmt) : s.relocate id = s := Stmt.mapTokens_id s

theorem Block.relocate_id (b : Block) : b.relocate id = b := Block.mapTokens_id b

end ExprLang
