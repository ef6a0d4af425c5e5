import ExprLang.Token.Kind

/-!
# Binding powers

How strongly an operator holds its operands. A token that can follow an operand has the power of
the operation it starts, and every other token the lowest power, which no expression gives way to.
-/

set_option autoImplicit false

namespace ExprLang

/-- Binding powers, weakest first. -/
inductive Power where
  | lowest
  | equals
  | lessGreater
  | sum
  | product
  | prefixed
  | call
  deriving DecidableEq, Repr

namespace Power

/-- The place of a power in the order of strength. -/
def rank : Power → Nat
  | lowest => 0
  | equals => 1
  | lessGreater => 2
  | sum => 3
  | product => 4
  | prefixed => 5
  | call => 6

instance : LT Power := ⟨fun a b => a.rank < b.rank⟩
instance : LE Power := ⟨fun a b => a.rank ≤ b.rank⟩

instance (a b : Power) : Decidable (a < b) := inferInstanceAs (Decidable (a.rank < b.rank))
instance (a b : Power) : Decidable (a ≤ b) := inferInstanceAs (Decidable (a.rank ≤ b.rank))

/-- All powers, weakest first. -/
def all : List Power := [lowest, equals, lessGreater, sum, product, prefixed, call]

/-- The name of a power. -/
def name : Power → String
  | lowest => "Lowest"
  | equals => "Equals"
  | lessGreater => "LessGreater"
  | sum => "Sum"
  | product => "Product"
  | prefixed => "Prefix"
  | call => "Call"

/-- The power of a given name. -/
def ofName? (name : String) : Option Power := all.find? fun power => power.name == name

theorem lt_iff {a b : Power} : a < b ↔ a.rank < b.rank := Iff.rfl

theorem le_iff {a b : Power} : a ≤ b ↔ a.rank ≤ b.rank := Iff.rfl

theorem not_lt {a b : Power} : ¬ a < b ↔ b ≤ a := Nat.not_lt

theorem rank_injective {a b : Power} (h : a.rank = b.rank) : a = b := by
  cases a <;> cases b <;> first | rfl | cases h

theorem not_lt_lowest (a : Power) : ¬ a < lowest := Nat.not_lt_zero _

end Power

/-- The power of a token behind an operand. -/
def Kind.power : Kind → Power
  | .equals | .notEquals => .equals
  | .less | .greater => .lessGreater
  | .plus | .dash => .sum
  | .star | .slash => .product
  | .openParen => .call
  | _ => .lowest

end ExprLang
