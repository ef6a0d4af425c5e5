import ExprLang.Tree.Basic

/-!
# Equality of trees

Two trees are the same if they agree in every token, with its place in the source, and in every
field. `same` compares them node by node; it decides equality (`Expr.same_iff`), which gives the
`DecidableEq` instances.
-/

set_option autoImplicit false

namespace ExprLang

mutual

/-- Whether two expressions are equal. -/
def Expr.same : Expr → Expr → Bool
  | .identifier x, .identifier y => x == y
  | .integer t v, .integer u w => t == u && v == w
  | .boolean t v, .boolean u w => t == u && v == w
  | .unary t o r, .unary u p s => t == u && o == p && r.same s
  | .binary t l o r, .binary u m p s => t == u && l.same m && o == p && r.same s
  | .conditional t c b e, .conditional u d a f =>
    t == u && c.same d && b.same a && sameOption e f
  | .call t c args, .call u d brgs => t == u && c.same d && sameExprs args brgs
  | .function t ps b, .function u qs a => t == u && ps == qs && b.same a
  | _, _ => false

/-- Whether two blocks are equal. -/
def Block.same : Block → Block → Bool
  | .mk t ss, .mk u rs => t == u && sameStmts ss rs

/-- Whether two statements are equal. -/
def Stmt.same : Stmt → Stmt → Bool
  | .binding t x v, .binding u y w => t == u && x == y && v.same w
  | .result t v, .result u w => t == u && v.same w
  | .expression t v, .expression u w => t == u && v.same w
  | _, _ => false

/-- Whether two lists of expressions are equal. -/
def sameExprs : List Expr → List Expr → Bool
  | [], [] => true
  | a :: as, b :: bs => a.same b && sameExprs as bs
  | _, _ => false

/-- Whether two lists of statements are equal. -/
def sameStmts : List Stmt → List Stmt → Bool
  | [], [] => true
  | a :: as, b :: bs => a.same b && sameStmts as bs
  | _, _ => false

/-- Whether two optional blocks are equal. -/
def sameOption : Option Block → Option Block → Bool
  | none, none => true
  | some a, some b => a.same b
  | _, _ => false

end

mutual

theorem Expr.same_iff : (a b : Expr) → (a.same b = true ↔ a = b)
  | .identifier _, b | .integer _ _, b | .boolean _ _, b => by cases b <;> simp [Expr.same]
  | .unary _ _ r, b => by cases b <;> simp [Expr.same, Expr.same_iff r, and_assoc]
  | .binary _ l _ r, b => by
    cases b <;> simp [Expr.same, Expr.same_iff l, Expr.same_iff r, and_assoc]
  | .conditional _ c t e, b => by
    cases b <;> simp [Expr.same, Expr.same_iff c, Block.same_iff t, sameOption_iff e, and_assoc]
  | .call _ c args, b => by
    cases b <;> simp [Expr.same, Expr.same_iff c, sameExprs_iff args, and_assoc]
  | .function _ _ body, b => by cases b <;> simp [Expr.same, Block.same_iff body, and_assoc]

theorem Block.same_iff : (a b : Block) → (a.same b = true ↔ a = b)
  | .mk _ ss, b => by cases b; simp [Block.same, sameStmts_iff ss]

theorem Stmt.same_iff : (a b : Stmt) → (a.same b = true ↔ a = b)
  | .binding _ _ v, b | .result _ v, b | .expression _ v, b => by
    cases b <;> simp [Stmt.same, Expr.same_iff v, and_assoc]

theorem sameExprs_iff : (as bs : List Expr) → (sameExprs as bs = true ↔ as = bs)
  | [], bs => by cases bs <;> simp [sameExprs]
  | a :: as, bs => by cases bs <;> simp [sameExprs, Expr.same_iff a, sameExprs_iff as]

theorem sameStmts_iff : (as bs : List Stmt) → (sameStmts as bs = true ↔ as = bs)
  | [], bs => by cases bs <;> simp [sameStmts]
  | a :: as, bs => by cases bs <;> simp [sameStmts, Stmt.same_iff a, sameStmts_iff as]

theorem sameOption_iff : (a b : Option Block) → (sameOption a b = true ↔ a = b)
  | none, b => by cases b <;> simp [sameOption]
  | some a, b => by cases b <;> simp [sameOption, Block.same_iff a]

end

instance : DecidableEq Expr := fun a b => decidable_of_iff _ (Expr.same_iff a b)
instance : DecidableEq Block := fun a b => decidable_of_iff _ (Block.same_iff a b)
instance : DecidableEq Stmt := fun a b => decidable_of_iff _ (Stmt.same_iff a b)

deriving instance DecidableEq for Program

end ExprLang
