import ExprLang.Proofs.Parser.CleanRules
import ExprLang.Proofs.Token.Pulling
import ExprLang.Proofs.Tree.Chain

/-!
# How chains are read

The loop behind an operand takes one operator after the other, and the operand behind an operator
takes the stronger ones that follow it. What comes of it is the tree that splits a chain at its
weakest operator (`chainTree`), and the number of expressions that are open at a time depends on the
powers that there are, not on the length of the chain. The loop keeps the invariant that the next
operator, if it is taken, is none that is stronger than one in front of it (`continued_chain`). Main
statement: `expression_chain`.
-/

set_option autoImplicit false

namespace ExprLang

open Step

/-! ## Operands -/

/-- A word, a number that is in range or a truth value. -/
inductive Token.IsOperand (t : Token) : Prop
  | identifier : t.kind = .identifier → IsOperand t
  | integer : t.kind = .integer → Text.isNumeral t.literal = true →
      Text.decimalValue t.literal.toList ≤ Text.maxInt64 → IsOperand t
  | boolean : t.kind ∈ PrefixRule.boolean.kinds → IsOperand t

/-- An operator between two operands, and an operand behind it. -/
structure Link.IsProper (l : Link) : Prop where
  operator : l.operator.kind ∈ Kind.binaryOperators
  operand : l.operand.IsOperand

namespace Parser

/-- The parser behind `n` more tokens. -/
def forward (n : Nat) (p : Parser) : Parser := { p with stream := p.stream.advanceBy n }

variable {p : Parser} {power : Power}

theorem forward_forward (m n : Nat) (p : Parser) : (p.forward m).forward n = p.forward (m + n) := by
  simp only [forward, TokenStream.advanceBy_advanceBy]

theorem leave_forward_deepen (n : Nat) (p : Parser) :
    (p.deepen.forward n).leave = p.forward n := rfl

theorem ahead_forward (n : Nat) (p : Parser) : (p.forward n).ahead = p.ahead.drop n :=
  TokenStream.ahead_advanceBy n p.stream

/-- The tokens ahead: an operand, then links, then what starts with no operator. -/
structure AtChain (p : Parser) (first : Token) (links : List Link) (tail : List Token) : Prop where
  ahead : p.ahead = first :: (links.flatMap Link.tokens ++ tail)
  first : first.IsOperand
  proper : ∀ l ∈ links, l.IsProper
  tail : ∀ t ∈ tail.head?, t.kind.power = .lowest

namespace AtChain

variable {first : Token} {links : List Link} {tail : List Token} {l : Link}

theorem current (h : p.AtChain first links tail) : p.current = first :=
  (current_of_ahead h.ahead).1

theorem power_peek_nil (h : p.AtChain first [] tail) : p.peek.kind.power = .lowest := by
  have hrest : p.advance.ahead = tail := (current_of_ahead h.ahead).2
  cases tail with
  | nil =>
    rw [← current_advance, kind_current_of_ahead_nil hrest]
    rfl
  | cons t ts =>
    rw [← current_advance, (current_of_ahead hrest).1]
    exact h.tail t rfl

theorem peek (h : p.AtChain first (l :: links) tail) : p.peek = l.operator := by
  have hrest : p.advance.ahead = l.operator :: l.operand :: (links.flatMap Link.tokens ++ tail) :=
    (current_of_ahead h.ahead).2
  exact (current_of_ahead hrest).1

theorem deepen (h : p.AtChain first links tail) : p.deepen.AtChain first links tail :=
  ⟨h.ahead, h.first, h.proper, h.tail⟩

/-- Two tokens further on there is the rest of the chain. -/
theorem forward (h : p.AtChain first (l :: links) tail) :
    (p.forward 2).AtChain l.operand links tail := by
  refine ⟨?_, (h.proper l List.mem_cons_self).operand, ?_, h.tail⟩
  · rw [ahead_forward, h.ahead]
    rfl
  · exact fun m hm => h.proper m (List.mem_cons_of_mem l hm)

/-- The cursor goes over some links of the chain. -/
theorem forward_append {front : List Link} (h : p.AtChain first (front ++ links) tail) :
    (p.forward (2 * front.length)).AtChain ((front.map Link.operand).getLast?.getD first) links
      tail := by
  induction front generalizing p first with
  | nil => exact h
  | cons l front ih =>
    have hnext := ih h.forward
    rw [forward_forward] at hnext
    have hlength : 2 * (l :: front).length = 2 + 2 * front.length := by
      rw [List.length_cons]
      omega
    rw [hlength, List.map_cons, List.getLast?_cons]
    exact hnext

end AtChain

end Parser

namespace Power

/-- The number of expressions that a chain behind an operator of this power opens. -/
def levels (power : Power) : Nat := max 1 (5 - power.rank)

theorem levels_le (power : Power) : power.levels ≤ 5 := by cases power <;> decide

theorem levels_pos (power : Power) : 0 < power.levels := by cases power <;> decide

/-- A stronger operator between two operands leaves one level less. -/
theorem levels_lt {power : Power} {op : Kind} (hop : op ∈ Kind.binaryOperators)
    (h : power < op.power) : op.power.levels < power.levels := by
  have hrank : op.power.rank ≤ 4 := by
    revert hop
    cases op <;> decide
  rw [lt_iff] at h
  simp only [levels]
  omega

end Power

namespace Rule

variable {nested : Power → Step Expr} {p : Parser} {t : Token}

/-- An operand is read as its leaf. -/
theorem clean_start_operand (h : p.current.IsOperand) :
    (start nested).Clean p p.current.leaf p := by
  refine clean_start_iff.2 ?_
  cases h with
  | identifier hk =>
    refine ⟨.identifier, List.mem_singleton.2 hk, clean_identifier_iff.2 ⟨?_, rfl⟩⟩
    rw [Token.leaf, hk]
  | integer hk hnum hrange =>
    have hread := Text.readInt64?_of_isNumeral hnum
    rw [if_pos hrange] at hread
    refine ⟨.integer, List.mem_singleton.2 hk, clean_integer_iff.2 ⟨_, hread, ?_, rfl⟩⟩
    rw [Token.leaf, hk]
  | boolean hk =>
    refine ⟨.boolean, hk, clean_boolean_iff.2 ⟨?_, rfl⟩⟩
    have hk' : p.current.kind = .trueKeyword ∨ p.current.kind = .falseKeyword := by
      simpa [PrefixRule.kinds] using hk
    rcases hk' with hk' | hk' <;> rw [Token.leaf, hk']

/-! ## The loop -/

section
variable {front links : List Link} {tail : List Token} {first last : Token} {power : Power}
  {depth : Nat} (hn : ∀ power, (nested power).Steady)
  (hoperand : ∀ (p : Parser) (l : Link) (links : List Link), p.depth = depth →
    p.AtChain l.operand links tail → l.operator.kind ∈ Kind.binaryOperators → power < l.power →
      (nested l.power).Clean p (chainTree l.operand (Link.taken l.power links))
        (p.forward (2 * (Link.taken l.power links).length)))
include hn hoperand

/-- A round reads the right operand with the operators that are stronger than the one before it. -/
theorem clean_continuing_chain {l : Link} (hd : p.depth = depth)
    (hp : p.AtChain last (l :: links) tail) (hlt : power < l.power)
    (hfront : ∀ m ∈ front, l.power ≤ m.power) :
    (continuing nested (chainTree first front) l.power .binary).Clean p.advance
      (chainTree first (front ++ l :: Link.taken l.power links))
      ((p.forward 2).forward (2 * (Link.taken l.power links).length)) := by
  have hop := (hp.proper l List.mem_cons_self).operator
  refine (clean_binary_iff hn).2 ⟨_, hoperand _ l links hd hp.forward hop hlt, ?_⟩
  rw [Parser.current_advance, hp.peek]
  exact chainTree_append first hfront fun m => Link.lt_of_mem_taken

/--
From the last operand of `front` on, the loop takes what is stronger than `power`. No operator of
`front` is weaker than the next one, if that is taken.
-/
theorem continued_chain (hd : p.depth = depth) (hp : p.AtChain last links tail)
    (hnext : ∀ l ∈ links.head?, power < l.power → ∀ m ∈ front, l.power ≤ m.power) :
    Continued nested power (chainTree first front) p
      (chainTree first (front ++ Link.taken power links))
      (p.forward (2 * (Link.taken power links).length)) := by
  induction hlen : links.length using Nat.strongRecOn generalizing p last front links with
  | _ n ih =>
    cases links with
    | nil =>
      have hlt : ¬ power < p.peek.kind.power := by
        rw [hp.power_peek_nil]
        exact Power.not_lt_lowest _
      rw [Link.taken, List.takeWhile_nil, List.append_nil]
      exact .stop hlt
    | cons l links =>
      have hpeek : p.peek.kind.power = l.power := by rw [hp.peek, Link.power]
      by_cases hlt : power < l.power
      · have hrule : p.peek.kind.infixRule? = some .binary := by
          rw [hp.peek]
          exact (Kind.power_of_mem_binaryOperators (hp.proper l List.mem_cons_self).operator).2.2
        have hround : (continuing nested (chainTree first front) p.peek.kind.power .binary).Clean
            p.advance (chainTree first (front ++ l :: Link.taken l.power links))
            ((p.forward 2).forward (2 * (Link.taken l.power links).length)) := by
          rw [hpeek]
          exact clean_continuing_chain hn hoperand hd hp hlt (hnext l rfl hlt)
        have hstronger : power < p.peek.kind.power := by rwa [hpeek]
        refine .extend hstronger hrule hround ?_
        -- the next operator is none that the right operand has taken
        have hbehind := ((Link.taken_append_left l.power links).symm ▸ hp.forward).forward_append
        have hfewer : (Link.left l.power links).length < n := by
          rw [← hlen]
          exact Nat.lt_succ_of_le (Link.length_left_le l.power links)
        have hrest : Continued nested power
            (chainTree first (front ++ l :: Link.taken l.power links)) _ _ _ :=
          ih _ hfewer (p := (p.forward 2).forward _) hd hbehind
            (fun m hm _ k => Link.le_of_head?_left (hnext l rfl hlt) hm) rfl
        have hlength : 2 + 2 * (Link.taken l.power links).length +
            2 * (Link.taken power (Link.left l.power links)).length =
              2 * (Link.taken power (l :: links)).length := by
          rw [Link.taken_cons hlt, List.length_append, List.length_cons]
          omega
        rw [Parser.forward_forward] at hrest ⊢
        rw [Parser.forward_forward, hlength, List.append_assoc, ← Link.taken_cons hlt] at hrest
        exact hrest
      · rw [Link.taken_cons_of_not_lt hlt, List.append_nil]
        exact .stop (by rwa [hpeek])

end

end Rule

/-! ## Expressions -/

namespace Parser

variable {p : Parser} {power : Power} {first : Token} {links : List Link} {tail : List Token}

/-- A chain is read with as many levels of nesting as there are powers above the given one. -/
theorem clean_expressionWithin_chain {room : Nat} (hroom : power.levels ≤ room)
    (hd : p.depth + power.levels ≤ maxNestingDepth) (hp : p.AtChain first links tail) :
    (expressionWithin room power).Clean p (chainTree first (Link.taken power links))
      (p.forward (2 * (Link.taken power links).length)) := by
  induction room generalizing p power first links with
  | zero => exact absurd hroom (Nat.not_le.2 power.levels_pos)
  | succ room ih =>
    have hpos := power.levels_pos
    have hstart : (Rule.start (expressionWithin room)).Clean p.deepen first.leaf p.deepen := by
      rw [← hp.deepen.current]
      exact Rule.clean_start_operand (hp.deepen.current ▸ hp.first)
    have hoperand : ∀ (q : Parser) (l : Link) (links : List Link), q.depth = p.depth + 1 →
        q.AtChain l.operand links tail → l.operator.kind ∈ Kind.binaryOperators → power < l.power →
          (expressionWithin room l.power).Clean q (chainTree l.operand (Link.taken l.power links))
            (q.forward (2 * (Link.taken l.power links).length)) := by
      intro q l links hq hchain hop hlt
      have hlevels : l.power.levels < power.levels := Power.levels_lt hop hlt
      exact ih (by omega) (by omega) hchain
    have hloop : Rule.Continued (expressionWithin room) power (chainTree first []) p.deepen _ _ :=
      Rule.continued_chain (steady_expressionWithin room) hoperand rfl hp.deepen fun _ _ _ =>
        List.forall_mem_nil _
    rw [chainTree_nil, List.nil_append] at hloop
    exact clean_expressionWithin_succ_iff.2
      ⟨by omega, _, _, _, hstart, hloop, (leave_forward_deepen _ p).symm⟩

end Parser

/--
At the first operand of a chain, at most five levels from the limit, an expression is read without
an error: the chain up to the first operator that is not stronger than `power`, split at its weakest
operators, with the cursor on the last operand. Its length is not limited.
-/
theorem expression_chain {p : Parser} {power : Power} {first : Token} {links : List Link}
    {tail : List Token} (hd : p.depth ≤ maxNestingDepth - 5) (hfirst : first.IsOperand)
    (hlinks : ∀ l ∈ links, l.IsProper) (htail : ∀ t ∈ tail.head?, t.kind.power = .lowest)
    (hahead : p.ahead = first :: (links.flatMap Link.tokens ++ tail)) :
    let taken := Link.taken power links
    let q := p.forward (2 * taken.length)
    Parser.expression power p = (some (chainTree first taken), q) ∧ q.errors = p.errors ∧
      q.current = (taken.map Link.operand).getLast?.getD first := by
  intro taken q
  have hp : p.AtChain first links tail := ⟨hahead, hfirst, hlinks, htail⟩
  have hlevels := power.levels_le
  have hmax : maxNestingDepth = 64 := rfl
  have hclean : (Parser.expressionWithin maxNestingDepth power).Clean p _ _ :=
    Parser.clean_expressionWithin_chain (by omega) (by omega) hp
  have hsplit := Link.taken_append_left power links
  exact ⟨hclean.1, rfl, (hsplit.symm ▸ hp).forward_append.current⟩

/-- A difference of a difference, in front of a comparison that is not taken. -/
theorem expression_chain_difference :
    let t := Token.placed defaultFile
    let p := Parser.opened "a-2*b-c<1" none {}
    Parser.expression .lessGreater p =
      (some (.binary (t 5 .dash "-")
        (.binary (t 1 .dash "-") (t 0 .identifier "a").leaf "-"
          (.binary (t 3 .star "*") (t 2 .integer "2").leaf "*" (t 4 .identifier "b").leaf))
        "-" (t 6 .identifier "c").leaf), p.forward 6) := by
  intro t p
  let minus : Link := ⟨t 1 .dash "-", t 2 .integer "2"⟩
  let times : Link := ⟨t 3 .star "*", t 4 .identifier "b"⟩
  let minus' : Link := ⟨t 5 .dash "-", t 6 .identifier "c"⟩
  let less : Link := ⟨t 7 .less "<", t 8 .integer "1"⟩
  have hlinks : ∀ l ∈ [minus, times, minus', less], l.IsProper := by
    rintro l (_ | ⟨_, _ | ⟨_, _ | ⟨_, _ | ⟨_, hl⟩⟩⟩⟩)
    · exact ⟨by decide, .integer rfl (by decide) (by decide)⟩
    · exact ⟨by decide, .identifier rfl⟩
    · exact ⟨by decide, .identifier rfl⟩
    · exact ⟨by decide, .integer rfl (by decide) (by decide)⟩
    · cases hl
  have htail : ∀ u ∈ ([] : List Token).head?, u.kind.power = .lowest := fun _ h => nomatch h
  have hahead : p.ahead = t 0 .identifier "a" ::
      ([minus, times, minus', less].flatMap Link.tokens ++ []) := by decide +kernel
  have hread := (@expression_chain p .lessGreater _ _ _ (by decide) (.identifier rfl) hlinks htail
    hahead).1
  have houter : chainTree (t 0 .identifier "a") ([minus, times] ++ minus' :: []) = _ :=
    chainTree_append _ (by decide) (by decide)
  have hinner : chainTree (t 0 .identifier "a") ([] ++ minus :: [times]) = _ :=
    chainTree_append _ (by decide) (by decide)
  have hright : chainTree minus.operand ([] ++ times :: []) = _ :=
    chainTree_append _ (by decide) (by decide)
  simp only [List.nil_append, chainTree_nil] at hinner houter hright
  rw [hright] at hinner
  rw [hinner] at houter
  exact hread.trans (congrArg (fun e => (some e, p.forward 6)) houter)

end ExprLang
