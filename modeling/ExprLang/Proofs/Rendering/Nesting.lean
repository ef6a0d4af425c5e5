import ExprLang.Proofs.Tree.Erasure

/-!
# What a canonical text is read back as

Two things can keep a tree from being read back from its canonical text. Every operation there is
in parentheses, so reading it may enter more levels of expressions than reading the source did:
`need` counts them. And an expression statement has no end of its own there, so a statement behind
it that starts with a parenthesis is read as a call of it; a tree is settled if there is no such
statement. A tree that is not settled loses a blank each time two of its statements become one
(`Rereads`).
-/

set_option autoImplicit false

namespace ExprLang

/-! ## Levels of nesting -/

mutual

/-- The number of expressions, each inside the one before, that its canonical text opens. -/
def Expr.need : Expr → Nat
  | .identifier _ | .integer _ _ | .boolean _ _ => 1
  | .unary _ _ right => 2 + right.need
  | .binary _ left _ right => max (1 + left.need) (2 + right.need)
  | .conditional _ condition consequence alternative =>
    1 + max condition.need (max consequence.need (needElse alternative))
  | .call _ callee arguments => max callee.need (1 + needEach arguments)
  | .function _ _ body => 1 + body.need

/-- The largest need of a block's statements. -/
def Block.need : Block → Nat
  | .mk _ statements => needBody statements

/-- The need of the statement's expression. -/
def Stmt.need : Stmt → Nat
  | .binding _ _ value | .result _ value | .expression _ value => value.need

/-- The largest need of several expressions. -/
def needEach : List Expr → Nat
  | [] => 0
  | e :: es => max e.need (needEach es)

/-- The largest need of several statements. -/
def needBody : List Stmt → Nat
  | [] => 0
  | s :: ss => max s.need (needBody ss)

/-- The need of the alternative of a conditional, if there is one. -/
def needElse : Option Block → Nat
  | none => 0
  | some block => block.need

end

theorem Expr.need_pos : (e : Expr) → 0 < e.need
  | .identifier _ | .integer _ _ | .boolean _ _ => by rw [need]; omega
  | .unary _ _ _ | .binary _ _ _ _ | .conditional _ _ _ _ | .function _ _ _ => by rw [need]; omega
  | .call _ f _ => by have := f.need_pos; rw [need]; omega

theorem needBody_le_iff {ss : List Stmt} {n : Nat} : needBody ss ≤ n ↔ ∀ s ∈ ss, s.need ≤ n := by
  induction ss with
  | nil => simp [needBody]
  | cons s ss ih => rw [needBody, Nat.max_le, List.forall_mem_cons, ih]

/-! ## Statements that run into one another -/

/-- Whether the statement is an expression by itself. -/
def Stmt.isExpression : Stmt → Bool
  | .expression .. => true
  | _ => false

/-- Whether the canonical text of the statement starts with a parenthesis. -/
def Stmt.startsParen (s : Stmt) : Bool := s.render.toList.head? == some '('

mutual

/-- Whether no statement in the blocks of the expression runs into the next one (module doc). -/
def Expr.isSettled : Expr → Bool
  | .identifier _ | .integer _ _ | .boolean _ _ => true
  | .unary _ _ right => right.isSettled
  | .binary _ left _ right => left.isSettled && right.isSettled
  | .conditional _ condition consequence alternative =>
    condition.isSettled && consequence.isSettled && isSettledElse alternative
  | .call _ callee arguments => callee.isSettled && isSettledEach arguments
  | .function _ _ body => body.isSettled

/-- Whether no statement of the block, or inside of one, runs into the next one. -/
def Block.isSettled : Block → Bool
  | .mk _ statements => isSettledBody statements

/-- Whether no statement inside the statement runs into the next one. -/
def Stmt.isSettled : Stmt → Bool
  | .binding _ _ value | .result _ value | .expression _ value => value.isSettled

/-- Whether all of the expressions are settled. -/
def isSettledEach : List Expr → Bool
  | [] => true
  | e :: es => e.isSettled && isSettledEach es

/-- Whether no statement of the list, or inside of one, runs into the next one. -/
def isSettledBody : List Stmt → Bool
  | [] => true
  | s :: ss =>
    s.isSettled && !(s.isExpression && ss.head?.any Stmt.startsParen) && isSettledBody ss

/-- Whether the alternative of a conditional is settled, if there is one. -/
def isSettledElse : Option Block → Bool
  | none => true
  | some block => block.isSettled

end

/-- Whether no statement of the program runs into the next one (module doc). -/
def Program.isSettled (p : Program) : Bool := isSettledBody p.statements

/-! ## Blanks -/

/-- The number of layout characters in a text. -/
def Text.blanks (text : String) : Nat := text.toList.countP isLayout

@[simp] theorem Text.blanks_append (s t : String) : blanks (s ++ t) = blanks s + blanks t := by
  simp [blanks]

/-- The blanks in the parts of canonical texts that all trees have in common. -/
@[simp] theorem Text.blanks_fixed :
    blanks "(" = 0 ∧ blanks ")" = 0 ∧ blanks "," = 0 ∧ blanks ";" = 0 ∧ blanks "\x7d" = 0 ∧
      blanks " " = 1 ∧ blanks ") " = 1 ∧ blanks "\x7b " = 1 ∧ blanks "if (" = 1 ∧
      blanks " = " = 2 ∧ blanks " else " = 2 :=
  ⟨rfl, rfl, rfl, rfl, rfl, rfl, rfl, rfl, rfl, rfl, rfl⟩

/-- Each statement has one blank behind it, in a block as in a program. -/
theorem blanks_renderLines (ss : List Stmt) :
    Text.blanks (renderLines ss) = Text.blanks (renderBody ss) := by
  induction ss with
  | nil => rfl
  | cons s ss ih =>
    simp only [renderLines, renderBody, Text.blanks_append, ih]
    rfl

/-! ## Reading back -/

/--
Either nothing ran into anything and `new` is `old`, or it did and some of the `m` blanks of the
old text are not among the `n` of the new one.
-/
def Rereads {α : Type} (settled : Bool) (old new : α) (m n : Nat) : Prop :=
  (settled = true ∧ new = old ∧ n = m) ∨ (settled = false ∧ n < m)

namespace Rereads

variable {α β γ : Type} {s t : Bool} {a a' : α} {b b' : β} {m m' n n' : Nat}

theorem same (a : α) (m : Nat) : Rereads true a a m m := .inl ⟨rfl, rfl, rfl⟩

theorem le (h : Rereads s a a' m m') : m' ≤ m := by
  rcases h with ⟨-, -, rfl⟩ | ⟨-, h⟩
  · exact Nat.le_refl _
  · exact Nat.le_of_lt h

theorem map (h : Rereads s a a' m m') (f : α → β) {k l l' : Nat} (hl : l = k + m)
    (hl' : l' = k + m') : Rereads s (f a) (f a') l l' := by
  rcases h with ⟨hs, ha, hm⟩ | ⟨hs, hm⟩
  · exact .inl ⟨hs, congrArg f ha, by omega⟩
  · exact .inr ⟨hs, by omega⟩

theorem map₂ (h : Rereads s a a' m m') (h' : Rereads t b b' n n') (f : α → β → γ) {k l l' : Nat}
    (hl : l = k + m + n) (hl' : l' = k + m' + n') :
    Rereads (s && t) (f a b) (f a' b') l l' := by
  have hle := h.le
  have hle' := h'.le
  rcases h with ⟨rfl, rfl, hm⟩ | ⟨rfl, hm⟩
  · rcases h' with ⟨rfl, rfl, hn⟩ | ⟨rfl, hn⟩
    · exact .inl ⟨rfl, rfl, by omega⟩
    · exact .inr ⟨rfl, by omega⟩
  · exact .inr ⟨Bool.false_and _, by omega⟩

end Rereads

theorem Text.blanks_commaSeparated_cons (text : String) (texts : List String) :
    blanks (commaSeparated (text :: texts)) = blanks text + blanks (commaSeparated texts) := by
  cases texts with
  | nil => rfl
  | cons next texts =>
    simp [commaSeparated]

/-- The expression `x` is what the canonical text of `e` is read as. -/
def Expr.Rereads (e x : Expr) : Prop :=
  ExprLang.Rereads e.isSettled e.erased x.erased (Text.blanks e.render) (Text.blanks x.render)

def Block.Rereads (b c : Block) : Prop :=
  ExprLang.Rereads b.isSettled b.erased c.erased (Text.blanks b.render) (Text.blanks c.render)

def Stmt.Rereads (s r : Stmt) : Prop :=
  ExprLang.Rereads s.isSettled s.erased r.erased (Text.blanks s.render) (Text.blanks r.render)

def RereadsEach (es xs : List Expr) : Prop :=
  Rereads (isSettledEach es) (erasedEach es) (erasedEach xs)
    (Text.blanks (commaSeparated (renderEach es))) (Text.blanks (commaSeparated (renderEach xs)))

def RereadsBody (ss rs : List Stmt) : Prop :=
  Rereads (isSettledBody ss) (erasedBody ss) (erasedBody rs)
    (Text.blanks (renderBody ss)) (Text.blanks (renderBody rs))

def RereadsElse (b c : Option Block) : Prop :=
  Rereads (isSettledElse b) (erasedElse b) (erasedElse c)
    (Text.blanks (renderElse b)) (Text.blanks (renderElse c))

/-! ## Reading back the parts of a tree -/

section
variable {t u : Token} (htu : u.bare = t.bare)
include htu

theorem Expr.Rereads.unary {op : String} {r x : Expr} (h : r.Rereads x) :
    (Expr.unary t op r).Rereads (.unary u op x) := by
  have hx : (Expr.unary u op x).erased = .unary t.bare op x.erased := by rw [← htu]; rfl
  rw [Expr.Rereads, hx]
  refine h.map (Expr.unary t.bare op) (k := Text.blanks op) ?_ ?_ <;>
    simp [render]

theorem Expr.Rereads.binary {op : String} {l r x y : Expr} (hl : l.Rereads x) (hr : r.Rereads y) :
    (Expr.binary t l op r).Rereads (.binary u x op y) := by
  have hx : (Expr.binary u x op y).erased = .binary t.bare x.erased op y.erased := by
    rw [← htu]; rfl
  rw [Expr.Rereads, hx]
  refine hl.map₂ hr (fun l r => Expr.binary t.bare l op r) (k := Text.blanks op) ?_ ?_ <;>
    simp [render] <;> omega

theorem Expr.Rereads.call {f x : Expr} {as xs : List Expr} (hf : f.Rereads x)
    (has : RereadsEach as xs) : (Expr.call t f as).Rereads (.call u x xs) := by
  have hx : (Expr.call u x xs).erased = .call t.bare x.erased (erasedEach xs) := by rw [← htu]; rfl
  rw [Expr.Rereads, hx]
  refine hf.map₂ has (Expr.call t.bare) (k := 0) ?_ ?_ <;>
    simp [render]

theorem Expr.Rereads.conditional {c x : Expr} {b y : Block} {a z : Option Block}
    (hc : c.Rereads x) (hb : b.Rereads y) (ha : RereadsElse a z) :
    (Expr.conditional t c b a).Rereads (.conditional u x y z) := by
  have hx : (Expr.conditional u x y z).erased =
      .conditional t.bare x.erased y.erased (erasedElse z) := by rw [← htu]; rfl
  rw [Expr.Rereads, hx]
  have hcb := hc.map₂ hb Prod.mk (k := 2) rfl rfl
  refine hcb.map₂ ha (fun p a => Expr.conditional t.bare p.1 p.2 a) (k := 0) ?_ ?_ <;>
    simp [render] <;> omega

theorem Expr.Rereads.function {ps qs : List Identifier} {b y : Block}
    (hps : qs.map Identifier.erased = ps.map Identifier.erased) (hb : b.Rereads y) :
    (Expr.function t ps b).Rereads (.function u qs y) := by
  have hx : (Expr.function u qs y).erased =
      .function t.bare (ps.map Identifier.erased) y.erased := by rw [← htu, ← hps]; rfl
  have hvalues : qs.map Identifier.value = ps.map Identifier.value := by
    have := congrArg (List.map Identifier.value) hps
    simpa [Function.comp_def, Identifier.erased, Identifier.mapTokens] using this
  have hliteral := (Token.bare_eq_iff.1 htu).2
  rw [Expr.Rereads, hx]
  refine hb.map (Expr.function t.bare (ps.map Identifier.erased)) (k := Text.blanks t.literal +
    Text.blanks (commaSeparated (ps.map Identifier.value)) + 1) ?_ ?_ <;>
    simp [render, hliteral, hvalues]

theorem Block.Rereads.mk {ss rs : List Stmt} (h : RereadsBody ss rs) :
    (Block.mk t ss).Rereads (.mk u rs) := by
  have hx : (Block.mk u rs).erased = .mk t.bare (erasedBody rs) := by rw [← htu]; rfl
  rw [Block.Rereads, hx]
  refine ExprLang.Rereads.map h (Block.mk t.bare) (k := 1) ?_ ?_ <;>
    simp [render]

theorem Stmt.Rereads.binding {n m : Identifier} (hn : m.erased = n.erased) {v x : Expr}
    (h : v.Rereads x) : (Stmt.binding t n v).Rereads (.binding u m x) := by
  have hx : (Stmt.binding u m x).erased = .binding t.bare n.erased x.erased := by
    rw [← htu, ← hn]; rfl
  have hvalue := Identifier.value_eq hn
  have hliteral := (Token.bare_eq_iff.1 htu).2
  rw [Stmt.Rereads, hx]
  refine h.map (Stmt.binding t.bare n.erased) (k := Text.blanks t.literal + Text.blanks n.value + 3)
    ?_ ?_ <;>
    simp [render, hliteral, hvalue] <;> omega

theorem Stmt.Rereads.result {v x : Expr} (h : v.Rereads x) :
    (Stmt.result t v).Rereads (.result u x) := by
  have hx : (Stmt.result u x).erased = .result t.bare x.erased := by rw [← htu]; rfl
  have hliteral := (Token.bare_eq_iff.1 htu).2
  rw [Stmt.Rereads, hx]
  refine h.map (Stmt.result t.bare) (k := Text.blanks t.literal + 1) ?_ ?_ <;>
    simp [render, hliteral]

end

theorem Stmt.Rereads.expression {t u : Token} {v x : Expr} (h : v.Rereads x) :
    (Stmt.expression t v).Rereads (.expression u x) := by
  rw [Stmt.Rereads]
  refine h.map (Stmt.expression default) (k := 0) ?_ ?_ <;> simp [render]

theorem rereadsEach_nil : RereadsEach [] [] := .same _ _

theorem RereadsEach.cons {e x : Expr} {es xs : List Expr} (h : e.Rereads x)
    (hs : RereadsEach es xs) : RereadsEach (e :: es) (x :: xs) := by
  refine ExprLang.Rereads.map₂ h hs List.cons (k := 0) ?_ ?_ <;>
    simp [renderEach, Text.blanks_commaSeparated_cons]

theorem rereadsElse_none : RereadsElse none none := .same _ _

theorem RereadsElse.some {b c : Block} (h : b.Rereads c) : RereadsElse (some b) (some c) := by
  refine ExprLang.Rereads.map h Option.some (k := 2) ?_ ?_ <;>
    simp [renderElse]

theorem rereadsBody_nil : RereadsBody [] [] := .same _ _

/-- A statement that the next one does not run into. -/
theorem RereadsBody.cons {s r : Stmt} {ss rs : List Stmt} (h : s.Rereads r)
    (hs : RereadsBody ss rs) (hapart : (s.isExpression && ss.head?.any Stmt.startsParen) = false) :
    RereadsBody (s :: ss) (r :: rs) := by
  have hset : isSettledBody (s :: ss) = (s.isSettled && isSettledBody ss) := by
    rw [isSettledBody, hapart, Bool.not_false, Bool.and_true]
  rw [RereadsBody, hset]
  refine ExprLang.Rereads.map₂ h hs List.cons (k := 1) ?_ ?_ <;>
    simp [renderBody] <;> omega

/-- A statement that later ones run into, which are not `ss` any more. -/
theorem RereadsBody.merged {s r : Stmt} {ss rs : List Stmt}
    (hapart : (s.isExpression && ss.head?.any Stmt.startsParen) = true)
    (hlt : Text.blanks r.render + Text.blanks (renderBody rs) <
      Text.blanks s.render + Text.blanks (renderBody ss)) :
    RereadsBody (s :: ss) (r :: rs) := by
  refine .inr ⟨?_, ?_⟩
  · rw [isSettledBody, hapart, Bool.not_true, Bool.and_false, Bool.false_and]
  · simp [renderBody]
    omega

end ExprLang
