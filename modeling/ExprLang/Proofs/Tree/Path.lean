import ExprLang.Tree.Basic

/-!
# Paths in a tree

A path goes from an expression to one inside of it, through expressions that are directly inside one
another, and is labelled by the places that they have there. Most places are one level of nesting
further down. A left operand and the callee of a call stand in front of the token that their
operation is built from, and are at its own level. Main statement (`fitsInside_of_children`): what
is put together from parts that fit into the levels that are left to them fits as well.
-/

set_option autoImplicit false

namespace ExprLang

/-- The places of expressions inside of others. -/
inductive Edge where
  /-- The operand of a prefix operation. -/
  | operand
  | left
  | right
  | condition
  | callee
  | argument
  /-- The expression of a statement in a block of a conditional or function. -/
  | statement
  deriving DecidableEq, Repr

/-- Whether the place is a level further down (module doc). -/
def Edge.isDown : Edge → Bool
  | left | callee => false
  | _ => true

namespace Expr

/-- The expression `x` has this place directly inside `e`. -/
inductive Child : Expr → Edge → Expr → Prop
  | operand {t : Token} {op : String} {right : Expr} : Child (.unary t op right) .operand right
  | left {t : Token} {op : String} {left right : Expr} :
      Child (.binary t left op right) .left left
  | right {t : Token} {op : String} {left right : Expr} :
      Child (.binary t left op right) .right right
  | condition {t : Token} {c : Expr} {b : Block} {a : Option Block} :
      Child (.conditional t c b a) .condition c
  | consequence {t : Token} {c : Expr} {b : Block} {a : Option Block} {s : Stmt} :
      s ∈ b.statements → Child (.conditional t c b a) .statement s.value
  | alternative {t : Token} {c : Expr} {b a : Block} {s : Stmt} : s ∈ a.statements →
      Child (.conditional t c b (some a)) .statement s.value
  | callee {t : Token} {callee : Expr} {arguments : List Expr} :
      Child (.call t callee arguments) .callee callee
  | argument {t : Token} {callee x : Expr} {arguments : List Expr} : x ∈ arguments →
      Child (.call t callee arguments) .argument x
  | body {t : Token} {names : List Identifier} {b : Block} {s : Stmt} : s ∈ b.statements →
      Child (.function t names b) .statement s.value

/-- From an expression to one inside of it. -/
inductive Path : Expr → List Edge → Expr → Prop
  | here {e : Expr} : Path e [] e
  | step {e x y : Expr} {edge : Edge} {edges : List Edge} : e.Child edge x → Path x edges y →
      Path e (edge :: edges) y

theorem Path.append {e x y : Expr} {edges more : List Edge} (h : e.Path edges x)
    (h' : x.Path more y) : e.Path (edges ++ more) y := by
  induction h with
  | here => exact h'
  | step hx _ ih => exact .step hx (ih h')

/-! ## Levels -/

/-- Where `d` expressions are open around `e`, no path leads farther down than `limit`. -/
def FitsInside (limit d : Nat) (e : Expr) : Prop :=
  ∀ edges y, e.Path edges y → d + edges.countP Edge.isDown ≤ limit

variable {limit d : Nat} {e : Expr}

theorem FitsInside.mono {d' : Nat} (h : e.FitsInside limit d) (hd : d' ≤ d) :
    e.FitsInside limit d' :=
  fun edges y hy => Nat.le_trans (Nat.add_le_add_right hd _) (h edges y hy)

theorem fitsInside_of_children (hd : d ≤ limit)
    (hchild : ∀ edge x, e.Child edge x → x.FitsInside limit (d + if edge.isDown then 1 else 0)) :
    e.FitsInside limit d := by
  intro edges y h
  cases h with
  | here => exact hd
  | @step _ x _ edge edges hx hy =>
    have hfits := hchild edge x hx edges y hy
    rw [List.countP_cons]
    omega

end Expr

end ExprLang
