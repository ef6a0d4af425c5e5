import ExprLang.Parser.State

/-!
# Steps of a parser

A step changes the parser and may fail. A failure ends the construct that is being parsed but
undoes nothing: the cursor stays where it is, and what was recorded stays recorded.
-/

set_option autoImplicit false

namespace ExprLang

/-- A change of a parser that may fail. -/
def Step (α : Type) : Type := Parser → Option α × Parser

namespace Step

variable {α β : Type}

instance : Monad Step where
  pure a := fun p => (some a, p)
  bind m f := fun p => match m p with
    | (some a, q) => f a q
    | (none, q) => (none, q)

theorem pure_apply (a : α) (p : Parser) : (pure a : Step α) p = (some a, p) := rfl

theorem bind_apply (m : Step α) (f : α → Step β) (p : Parser) :
    (m >>= f) p = match m p with
      | (some a, q) => f a q
      | (none, q) => (none, q) := rfl

theorem bind_of_some {m : Step α} {f : α → Step β} {p q : Parser} {a : α}
    (h : m p = (some a, q)) : (m >>= f) p = f a q := by
  rw [bind_apply, h]

theorem bind_of_none {m : Step α} {f : α → Step β} {p q : Parser} (h : m p = (none, q)) :
    (m >>= f) p = (none, q) := by
  rw [bind_apply, h]

theorem pure_bind (a : α) (f : α → Step β) : pure a >>= f = f a := rfl

theorem bind_pure (m : Step α) : m >>= pure = m := by
  funext p
  rw [bind_apply]
  rcases m p with ⟨_ | a, q⟩ <;> rfl

theorem bind_assoc {γ : Type} (m : Step α) (f : α → Step β) (g : β → Step γ) :
    m >>= f >>= g = m >>= fun a => f a >>= g := by
  funext p
  simp only [bind_apply]
  rcases m p with ⟨_ | a, q⟩ <;> rfl

instance : LawfulMonad Step := .mk' Step bind_pure pure_bind bind_assoc

/-! ## Basic steps -/

/-- The parser as it stands. -/
def get : Step Parser := fun p => (some p, p)

/-- The token under the cursor. -/
def current : Step Token := fun p => (some p.current, p)

/-- The token behind the current one. -/
def peek : Step Token := fun p => (some p.peek, p)

/-- A change that cannot fail. -/
def update (f : Parser → Parser) : Step Unit := fun p => (some (), f p)

/-- A change that cannot fail and has a result. -/
def always (f : Parser → α × Parser) : Step α := fun p => (some (f p).1, (f p).2)

/-- Moves the cursor to the next token. -/
def advance : Step Unit := update Parser.advance

/-- Fails with an error at the current token. -/
def fail (fault : Fault) : Step α := fun p => (none, p.record fault)

/-- Moves the cursor to the next token, which has to be of the given kind. -/
def expect (kind : Kind) : Step Unit := fun p =>
  if p.peek.kind = kind then (some (), p.advance)
  else (none, p.recordAt (.unexpectedToken kind p.peek.kind p.peek.literal) p.peek.span.start)

/-- Enters an expression, if not too many are open. -/
def enter : Step Unit := fun p =>
  if p.depth < maxNestingDepth then (some (), p.deepen)
  else (none, p.record (.nestingTooDeep maxNestingDepth))

/-- Runs a step inside an expression, and leaves the expression however the step ends. -/
def enclosed (step : Step α) : Step α := do
  enter
  fun p => ((step p).1, (step p).2.leave)

/--
Runs a step again and again, each time at the token behind the one where the last run ended, until
that is of a kind to stop at. The results of the runs that do not fail are kept.
-/
def collect (stop : Kind → Bool) (step : Step α) : Nat → Parser → List α × Parser
  | 0, p => ([], p)
  | fuel + 1, p =>
    if stop p.current.kind then ([], p)
    else
      let (result, q) := step p
      let (results, r) := collect stop step fuel q.advance
      (result.toList ++ results, r)

end Step

end ExprLang
