import ExprLang.Parser.Power
import ExprLang.Text.Decimal
import ExprLang.Tree.Basic
import Mathlib.Data.List.TakeWhile

/-!
# Chains of operators

A chain is a first operand and then links, each an operator and the operand behind it. Its tree
splits it at the weakest operator, and of several weakest ones at the last: what stands in front of
it is the left operand and what stands behind it the right one (`chainTree`). Main statement
(`chainTree_append`): any split at such an operator is the one that the tree is made by.
-/

set_option autoImplicit false

namespace ExprLang

namespace Power

variable {a b c : Power}

theorem not_le : ¬ a ≤ b ↔ b < a := Nat.not_le

theorem lt_trans (h : a < b) (h' : b < c) : a < c := Nat.lt_trans h h'

theorem lt_of_lt_of_le (h : a < b) (h' : b ≤ c) : a < c := Nat.lt_of_lt_of_le h h'

theorem lt_of_le_of_lt (h : a ≤ b) (h' : b < c) : a < c := Nat.lt_of_le_of_lt h h'

end Power

/-- An operator and the operand behind it. -/
structure Link where
  operator : Token
  operand : Token
  deriving DecidableEq, Repr

namespace Link

/-- How strongly the operator binds. -/
def power (l : Link) : Power := l.operator.kind.power

/-- The two tokens of a link. -/
def tokens (l : Link) : List Token := [l.operator, l.operand]

/-- The links behind an operand up to the first one that is not stronger than `power`. -/
def taken (power : Power) (links : List Link) : List Link :=
  links.takeWhile fun l => decide (power < l.power)

/-- The links from the first one on that is not stronger than `power`. -/
def left (power : Power) (links : List Link) : List Link :=
  links.dropWhile fun l => decide (power < l.power)

end Link

/-! ## The weakest operator -/

/-- The last of the weakest links, with the links in front of it and those behind it. -/
def splitWeakest : List Link → Option (List Link × Link × List Link)
  | [] => none
  | l :: links =>
    match splitWeakest links with
    | none => some ([], l, [])
    | some (front, weakest, behind) =>
      if weakest.power ≤ l.power then some (l :: front, weakest, behind) else some ([], l, links)

/-- The links are split at the last of the weakest ones. -/
structure SplitsAt (links front : List Link) (weakest : Link) (behind : List Link) : Prop where
  eq_append : links = front ++ weakest :: behind
  front_le : ∀ l ∈ front, weakest.power ≤ l.power
  behind_lt : ∀ l ∈ behind, weakest.power < l.power

variable {links front behind : List Link} {weakest : Link}

theorem splitWeakest_eq_none_iff : splitWeakest links = none ↔ links = [] := by
  cases links with
  | nil => simp [splitWeakest]
  | cons l links =>
    simp only [splitWeakest, reduceCtorEq, iff_false]
    split
    · simp
    · split <;> simp

/-- The link that is split off is one of the weakest, and the last one. -/
theorem splitsAt_of_splitWeakest (h : splitWeakest links = some (front, weakest, behind)) :
    SplitsAt links front weakest behind := by
  induction links generalizing front weakest behind with
  | nil => cases h
  | cons l links ih =>
    rw [splitWeakest] at h
    split at h
    next hnone =>
      cases h
      rw [splitWeakest_eq_none_iff.1 hnone]
      exact ⟨rfl, List.forall_mem_nil _, List.forall_mem_nil _⟩
    next front' weakest' behind' hsome =>
      have hs := ih hsome
      split at h
      next hle =>
        cases h
        refine ⟨congrArg (l :: ·) hs.eq_append, ?_, hs.behind_lt⟩
        exact List.forall_mem_cons.2 ⟨hle, hs.front_le⟩
      next hlt =>
        cases h
        refine ⟨rfl, List.forall_mem_nil _, fun m hm => ?_⟩
        have hl : l.power < weakest'.power := Power.not_le.1 hlt
        rw [hs.eq_append] at hm
        rcases List.mem_append.1 hm with hm | hm
        · exact Power.lt_of_lt_of_le hl (hs.front_le m hm)
        · rcases List.mem_cons.1 hm with rfl | hm
          · exact hl
          · exact Power.lt_trans hl (hs.behind_lt m hm)

/-- There is only one such split. -/
theorem SplitsAt.unique {front' behind' : List Link} {weakest' : Link}
    (h : SplitsAt links front weakest behind) (h' : SplitsAt links front' weakest' behind') :
    front = front' ∧ weakest = weakest' ∧ behind = behind' := by
  have heq := h.eq_append.symm.trans h'.eq_append
  induction front generalizing front' links with
  | nil =>
    cases front' with
    | nil => exact ⟨rfl, List.cons.inj heq⟩
    | cons l front' =>
      -- the link that was split off in front is weaker than all behind it, and stronger than one
      obtain ⟨rfl, rfl⟩ := List.cons.inj heq
      have hlt := h.behind_lt weakest' (List.mem_append_right _ List.mem_cons_self)
      exact absurd (h'.front_le weakest List.mem_cons_self) (Power.not_le.2 hlt)
  | cons l front ih =>
    cases front' with
    | nil =>
      obtain ⟨rfl, rfl⟩ := List.cons.inj heq
      have hlt := h'.behind_lt weakest (List.mem_append_right _ List.mem_cons_self)
      exact absurd (h.front_le l List.mem_cons_self) (Power.not_le.2 hlt)
    | cons l' front' =>
      obtain ⟨rfl, htail⟩ := List.cons.inj heq
      have hinner : SplitsAt (front ++ weakest :: behind) front weakest behind :=
        ⟨rfl, (List.forall_mem_cons.1 h.front_le).2, h.behind_lt⟩
      have hinner' : SplitsAt (front ++ weakest :: behind) front' weakest' behind' :=
        ⟨htail, (List.forall_mem_cons.1 h'.front_le).2, h'.behind_lt⟩
      obtain ⟨rfl, hrest⟩ := ih hinner hinner' htail
      exact ⟨rfl, hrest⟩

theorem splitWeakest_eq_some_iff :
    splitWeakest links = some (front, weakest, behind) ↔ SplitsAt links front weakest behind := by
  refine ⟨splitsAt_of_splitWeakest, fun h => ?_⟩
  cases hs : splitWeakest links with
  | none =>
    have hnil := splitWeakest_eq_none_iff.1 hs
    exact absurd (hnil.symm.trans h.eq_append) (by simp)
  | some split =>
    obtain ⟨front', weakest', behind'⟩ := split
    obtain ⟨rfl, rfl, rfl⟩ := (splitsAt_of_splitWeakest hs).unique h
    rfl

/-! ## The tree -/

/-- An expression of one token: a word, a number, and otherwise a truth value. -/
def Token.leaf (t : Token) : Expr :=
  match t.kind with
  | .identifier => .identifier (.ofToken t)
  | .integer => .integer t (.ofNat (Text.decimalValue t.literal.toList))
  | _ => .boolean t (t.kind == .trueKeyword)

/-- The tree of a chain (module doc). -/
def chainTree (first : Token) (links : List Link) : Expr :=
  match _h : splitWeakest links with
  | none => first.leaf
  | some (front, weakest, behind) =>
    .binary weakest.operator (chainTree first front) weakest.operator.literal
      (chainTree weakest.operand behind)
termination_by links.length
decreasing_by
  all_goals
    have := congrArg List.length (splitsAt_of_splitWeakest _h).eq_append
    simp only [List.length_append, List.length_cons] at this
    omega

theorem chainTree_nil (first : Token) : chainTree first [] = first.leaf := by
  rw [chainTree]
  rfl

theorem SplitsAt.chainTree_eq (h : SplitsAt links front weakest behind) (first : Token) :
    chainTree first links = .binary weakest.operator (chainTree first front)
      weakest.operator.literal (chainTree weakest.operand behind) := by
  rw [chainTree]
  have hs := splitWeakest_eq_some_iff.2 h
  split
  next hnone => rw [hs] at hnone; cases hnone
  next hsome =>
    rw [hs] at hsome
    cases hsome
    rfl

/-- A chain is split at the last of its weakest operators. -/
theorem chainTree_append (first : Token) (hfront : ∀ l ∈ front, weakest.power ≤ l.power)
    (hbehind : ∀ l ∈ behind, weakest.power < l.power) :
    chainTree first (front ++ weakest :: behind) = .binary weakest.operator (chainTree first front)
      weakest.operator.literal (chainTree weakest.operand behind) :=
  SplitsAt.chainTree_eq ⟨rfl, hfront, hbehind⟩ first

/-! ## The operators that an expression takes -/

namespace Link

variable {power power' : Power}

theorem lt_of_mem_taken {l : Link} (h : l ∈ taken power links) : power < l.power :=
  of_decide_eq_true (List.mem_takeWhile_imp (p := fun l : Link => decide (power < l.power)) h)

theorem taken_append_left (power : Power) (links : List Link) :
    taken power links ++ left power links = links := List.takeWhile_append_dropWhile

theorem not_lt_of_head?_left {l : Link} (h : l ∈ (left power links).head?) : ¬ power < l.power := by
  have hne : left power links ≠ [] := by
    intro hnil
    rw [hnil] at h
    cases h
  have hhead := List.head?_dropWhile_not (fun l => decide (power < l.power)) links
  rw [left] at h
  rw [Option.mem_def.1 h] at hhead
  simpa using hhead

/-- What a weaker power takes begins with what a stronger one takes. -/
theorem taken_eq_append (h : power ≤ power') (links : List Link) :
    taken power links = taken power' links ++ taken power (left power' links) := by
  have hprefix : ∀ l ∈ taken power' links, decide (power < l.power) = true := fun l hl =>
    decide_eq_true (Power.lt_of_le_of_lt h (lt_of_mem_taken hl))
  have hsplit : taken power (taken power' links ++ left power' links) = _ :=
    List.takeWhile_append_of_pos hprefix
  rwa [taken_append_left] at hsplit

/-- Behind a link that is taken, first what is stronger than it is taken. -/
theorem taken_cons {l : Link} (h : power < l.power) (links : List Link) :
    taken power (l :: links) =
      (l :: taken l.power links) ++ taken power (left l.power links) := by
  have hle : power ≤ l.power := Nat.le_of_lt h
  rw [List.cons_append, ← taken_eq_append hle]
  exact List.takeWhile_cons_of_pos (decide_eq_true h)

theorem taken_cons_of_not_lt {l : Link} (h : ¬ power < l.power) (links : List Link) :
    taken power (l :: links) = [] :=
  List.takeWhile_cons_of_neg (by simpa using h)

/-- The link behind the ones that are taken is no stronger than any of the links before it. -/
theorem le_of_head?_left {l m : Link} (hfront : ∀ k ∈ front, l.power ≤ k.power)
    (hm : m ∈ (left l.power links).head?) {k : Link} (hk : k ∈ front ++ l :: taken l.power links) :
    m.power ≤ k.power := by
  have hle : m.power ≤ l.power := Power.not_lt.1 (not_lt_of_head?_left hm)
  rcases List.mem_append.1 hk with hk | hk
  · exact Nat.le_trans hle (hfront k hk)
  · rcases List.mem_cons.1 hk with rfl | hk
    · exact hle
    · exact Nat.le_of_lt (Power.lt_of_le_of_lt hle (lt_of_mem_taken hk))

theorem length_left_le (power : Power) (links : List Link) :
    (left power links).length ≤ links.length := (List.dropWhile_suffix _).length_le

end Link

end ExprLang
