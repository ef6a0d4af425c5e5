import ExprLang.Proofs.Parser.Assembly
import ExprLang.Proofs.Parser.Chain
import ExprLang.Proofs.Parser.Origin
import ExprLang.Proofs.Rendering.Tokens
import ExprLang.Proofs.Tree.Path
import ExprLang.Tree.Equality

/-!
# How deep trees are

The parser counts the expressions that are open, and whatever has been read it is back at the count
that it started from. So where an expression is read inside of `d` others, no path in its tree leads
farther down than to the limit (`Assembly.Nested.levels`). Groupings take a level and leave no node,
which only makes trees flatter. Main statement: `countP_isDown_lt_of_path`, for all trees of a
program with errors or without. Nothing limits the other places, left operands and callees
(`exists_path_left_callee`).
-/

set_option autoImplicit false

namespace ExprLang

open Step

namespace Assembly

/-- From depth `d` the parser came back to it, and what was read on the way fits one level below. -/
structure Levels (d : Nat) (es : List Expr) (d' : Nat) : Prop where
  depth : d' = d
  fits : ∀ e ∈ es, e.FitsInside maxNestingDepth (d + 1)

namespace Levels

variable {d d' d'' : Nat} {e : Expr} {es fs : List Expr}

theorem nil (h : d' = d) : Levels d [] d' := ⟨h, List.forall_mem_nil _⟩

theorem append (h : Levels d es d') (h' : Levels d' fs d'') : Levels d (es ++ fs) d'' := by
  refine ⟨h'.depth.trans h.depth, fun e he => ?_⟩
  rcases List.mem_append.1 he with he | he
  · exact h.fits e he
  · exact h.depth ▸ h'.fits e he

theorem trans (h : Levels d es d') (hd : d'' = d') : Levels d es d'' :=
  ⟨hd.trans h.depth, h.fits⟩

theorem head (h : Levels d (e :: es) d') : e.FitsInside maxNestingDepth (d + 1) :=
  h.fits e List.mem_cons_self

end Levels

/-- The expressions of the statements. -/
def values (ss : List Stmt) : List Expr := ss.map Stmt.value

/-- The expressions of the statements of a block that may be missing. -/
def valuesElse (b : Option Block) : List Expr := b.elim [] fun block => values block.statements

end Assembly

namespace Rule

theorem NamesRead.depth {p q : Parser} {names : List Identifier} (h : NamesRead p names q) :
    q.depth = p.depth := by
  induction h with
  | last => rfl
  | more _ _ _ ih => exact ih

end Rule

namespace Assembly

theorem Names.depth {p q : Parser} {names : List Identifier} : Names p names q →
    q.depth = p.depth
  | .none _ => rfl
  | .some h => h.depth

/-! ## Nodes -/

section
variable {d : Nat} {t : Token} {op : String}

variable (hd : d ≤ maxNestingDepth)
include hd

theorem fitsInside_unary {right : Expr} (h : right.FitsInside maxNestingDepth (d + 1)) :
    (Expr.unary t op right).FitsInside maxNestingDepth d := by
  refine Expr.fitsInside_of_children hd fun edge x hx => ?_
  cases hx with
  | operand => exact h

theorem fitsInside_binary {left right : Expr} (hl : left.FitsInside maxNestingDepth d)
    (hr : right.FitsInside maxNestingDepth (d + 1)) :
    (Expr.binary t left op right).FitsInside maxNestingDepth d := by
  refine Expr.fitsInside_of_children hd fun edge x hx => ?_
  cases hx with
  | left => exact hl
  | right => exact hr

theorem fitsInside_conditional {condition : Expr} {b : Block} {a : Option Block} {d' : Nat}
    (hc : condition.FitsInside maxNestingDepth (d + 1))
    (hblocks : Levels d (values b.statements ++ valuesElse a) d') :
    (Expr.conditional t condition b a).FitsInside maxNestingDepth d := by
  refine Expr.fitsInside_of_children hd fun edge x hx => ?_
  cases hx with
  | condition => exact hc
  | consequence hs =>
    exact hblocks.fits _ (List.mem_append_left _ (List.mem_map_of_mem hs))
  | alternative hs =>
    exact hblocks.fits _ (List.mem_append_right _ (List.mem_map_of_mem hs))

theorem fitsInside_call {callee : Expr} {arguments : List Expr} {d' : Nat}
    (hc : callee.FitsInside maxNestingDepth d) (ha : Levels d arguments d') :
    (Expr.call t callee arguments).FitsInside maxNestingDepth d := by
  refine Expr.fitsInside_of_children hd fun edge x hx => ?_
  cases hx with
  | callee => exact hc
  | argument hx => exact ha.fits x hx

theorem fitsInside_function {names : List Identifier} {b : Block} {d' : Nat}
    (hb : Levels d (values b.statements) d') :
    (Expr.function t names b).FitsInside maxNestingDepth d := by
  refine Expr.fitsInside_of_children hd fun edge x hx => ?_
  cases hx with
  | body hs => exact hb.fits _ (List.mem_map_of_mem hs)

end

/-! ## One production after the other -/

mutual

theorem Inner.fits {p q : Parser} {e : Expr} (hd : p.depth ≤ maxNestingDepth) :
    Inner p e q → q.depth = p.depth ∧ e.FitsInside maxNestingDepth p.depth
  | .identifier _ | .boolean _ => ⟨rfl, Expr.fitsInside_of_children hd nofun⟩
  | .integer _ _ hdepth _ => ⟨hdepth, Expr.fitsInside_of_children hd nofun⟩
  | .unary _ hright => ⟨hright.levels.depth, fitsInside_unary hd hright.levels.head⟩
  | .grouping _ he _ => ⟨he.levels.depth, he.levels.head.mono (Nat.le_succ _)⟩
  | .conditional _ _ hcondition _ hconsequence halternative =>
    have hblocks := hconsequence.levels.append halternative.levels
    have hall := hcondition.levels.append hblocks
    ⟨hall.depth, fitsInside_conditional hd hcondition.levels.head
      (hcondition.levels.depth ▸ hblocks)⟩
  | .function _ _ hnames hbody =>
    ⟨hbody.levels.depth.trans hnames.depth, fitsInside_function hd (hnames.depth ▸ hbody.levels)⟩
  | .binary hleft _ hright =>
    have hl := hleft.fits hd
    ⟨hright.levels.depth.trans hl.1, fitsInside_binary hd hl.2 (hl.1 ▸ hright.levels.head)⟩
  | .call hcallee _ harguments =>
    have hc := hcallee.fits hd
    ⟨harguments.levels.depth.trans hc.1, fitsInside_call hd hc.2 (hc.1 ▸ harguments.levels)⟩

theorem Nested.levels {p q : Parser} {e : Expr} : Nested p e q → Levels p.depth [e] q.depth
  | .mk hdepth he => by
    have h := he.fits (p := p.deepen) hdepth
    refine ⟨?_, List.forall_mem_singleton.2 h.2⟩
    exact congrArg (· - 1) h.1

theorem Arguments.levels {p q : Parser} {es : List Expr} : Arguments p es q →
    Levels p.depth es q.depth
  | .none _ => .nil rfl
  | .some he hmore => he.levels.append hmore.levels

theorem More.levels {p q : Parser} {es : List Expr} : More p es q → Levels p.depth es q.depth
  | .close _ => .nil rfl
  | .more _ he hmore => he.levels.append hmore.levels

theorem Alternative.levels {p q : Parser} {b : Option Block} : Alternative p b q →
    Levels p.depth (valuesElse b) q.depth
  | .none => .nil rfl
  | .some _ hblock => hblock.levels

theorem Braces.levels {p q : Parser} {b : Block} : Braces p b q →
    Levels p.depth (values b.statements) q.depth
  | .mk _ hstatements => hstatements.levels.trans (Rule.precedes_closeBlock _).depth

theorem Statements.levels {p q : Parser} {ss : List Stmt} : Statements p ss q →
    Levels p.depth (values ss) q.depth
  | .nil => .nil rfl
  | .cons hs hss => hs.levels.append hss.levels
  | .failed hpast hss => (Levels.nil hpast.depth).append hss.levels

theorem Statement.levels {p q : Parser} {s : Stmt} : Statement p s q →
    Levels p.depth [s.value] q.depth
  | .binding _ _ _ hvalue hq => hvalue.levels.trans hq.depth
  | .result _ hvalue hq => hvalue.levels.trans hq.depth
  | .expression hvalue hq => hvalue.levels.trans hq.depth

end

end Assembly

/-! ## What is not limited -/

/-- An operator and a name, again and again. -/
def sums : Nat → List Token
  | 0 => []
  | m + 1 => .mark .plus "+" :: .mark .identifier "a" :: sums m

/-- Empty pairs of parentheses, and then sums. -/
def spine (m : Nat) : Nat → List Token
  | 0 => sums m
  | n + 1 => .mark .openParen "(" :: .mark .closeParen ")" :: spine m n

/-- The spellings of the tokens in a row. -/
def spelling (ts : List Token) : List Char := ts.flatMap fun t => t.literal.toList

theorem spells_name {ts : List Token} (h : Spells (spelling ts) ts) (hc : Apart (spelling ts)) :
    Spells (spelling (.mark .identifier "a" :: ts)) (.mark .identifier "a" :: ts) :=
  Spells.word (t := .mark .identifier "a") (by decide) (by decide) h hc

theorem spells_sums (m : Nat) :
    Spells (spelling (sums m)) (sums m) ∧ Apart (spelling (sums m)) := by
  induction m with
  | zero => exact ⟨.nil, nofun⟩
  | succ m ih =>
    refine ⟨.mark .plus "+" (by decide) (fun _ => rfl) (spells_name ih.1 ih.2), ?_⟩
    rintro c ⟨⟩
    rfl

theorem spells_spine (m n : Nat) :
    Spells (spelling (spine m n)) (spine m n) ∧ Apart (spelling (spine m n)) := by
  induction n with
  | zero => exact spells_sums m
  | succ n ih =>
    refine ⟨.mark .openParen "(" (by decide) (fun _ => rfl)
      (.mark .closeParen ")" (by decide) (fun _ => rfl) ih.1), ?_⟩
    rintro c ⟨⟩
    rfl

theorem Parser.peek_of_bare {p : Parser} {kind : Kind} {literal : String} {ts : List Token}
    (h : p.rest.map Token.bare = .mark kind literal :: ts) :
    p.peek.kind = kind ∧ p.advance.rest.map Token.bare = ts := by
  obtain ⟨t, rest, hrest, ht, hts⟩ := List.map_eq_cons_iff.1 h
  obtain ⟨hpeek, hadvance⟩ := current_of_ahead (p := p.advance) hrest
  rw [← current_advance, hpeek, hadvance]
  exact ⟨(Token.bare_eq_iff (t := .mark kind literal)).1 ht |>.1, hts⟩

theorem Parser.kind_peek_of_rest_nil {p : Parser} (h : p.rest = []) : p.peek.kind = .eof :=
  kind_current_of_ahead_nil (p := p.advance) h

namespace Rule

variable {nested : Power → Step Expr} (hn : ∀ power, (nested power).Steady)

/-- Names are read by themselves as operands of a sum. -/
def ReadsNames (nested : Power → Step Expr) (depth : Nat) : Prop :=
  ∀ p : Parser, p.depth = depth → p.current.kind = .identifier → ¬ Power.sum < p.peek.kind.power →
    (nested .sum).Clean p p.current.leaf p

variable {depth m n : Nat} {p : Parser} {left : Expr}

theorem not_sum_lt_of_sums (hp : p.rest.map Token.bare = sums m) :
    ¬ Power.sum < p.peek.kind.power := by
  cases m with
  | zero =>
    rw [Parser.kind_peek_of_rest_nil (List.map_eq_nil_iff.1 hp)]
    decide
  | succ m =>
    rw [(Parser.peek_of_bare hp).1]
    decide

variable (hnames : ReadsNames nested depth)
include hn hnames

theorem continued_sums (hd : p.depth = depth) (hp : p.rest.map Token.bare = sums m) :
    ∃ e q, Continued nested .lowest left p e q ∧ q.rest = [] ∧
      e.Path (List.replicate m .left) left := by
  induction m generalizing p left with
  | zero =>
    have hrest : p.rest = [] := List.map_eq_nil_iff.1 hp
    refine ⟨left, p, .stop ?_, hrest, .here⟩
    rw [Parser.kind_peek_of_rest_nil hrest]
    decide
  | succ m ih =>
    obtain ⟨hplus, hp⟩ := Parser.peek_of_bare hp
    obtain ⟨hname, hp⟩ := Parser.peek_of_bare hp
    have hright := hnames p.advance.advance hd hname (not_sum_lt_of_sums hp)
    have hround : (continuing nested left p.peek.kind.power .binary).Clean p.advance
        (.binary p.peek left p.peek.literal p.advance.peek.leaf) p.advance.advance := by
      rw [hplus]
      exact (clean_binary_iff hn).2 ⟨_, hright, rfl⟩
    obtain ⟨e, q, he, hq, hpath⟩ := ih (p := p.advance.advance) hd hp
    have hlt : Power.lowest < p.peek.kind.power := by
      rw [hplus]
      decide
    have hrule : p.peek.kind.infixRule? = some .binary := by rw [hplus]; rfl
    refine ⟨e, q, .extend hlt hrule hround he, hq, ?_⟩
    rw [List.replicate_succ']
    exact hpath.append (.step .left .here)

theorem continued_spine (hd : p.depth = depth) (hp : p.rest.map Token.bare = spine m n) :
    ∃ e q, Continued nested .lowest left p e q ∧ q.rest = [] ∧
      e.Path (List.replicate m .left ++ List.replicate n .callee) left := by
  induction n generalizing p left with
  | zero =>
    rw [List.replicate_zero, List.append_nil]
    exact continued_sums hn hnames hd hp
  | succ n ih =>
    obtain ⟨hopen, hp⟩ := Parser.peek_of_bare hp
    obtain ⟨hclose, hp⟩ := Parser.peek_of_bare hp
    have hround : (continuing nested left p.peek.kind.power .call).Clean p.advance
        (.call p.peek left []) p.advance.advance :=
      (clean_call_iff hn).2 ⟨[], (clean_arguments_iff hn).2 (.inl ⟨hclose, rfl, rfl⟩), rfl⟩
    obtain ⟨e, q, he, hq, hpath⟩ := ih (p := p.advance.advance) hd hp
    have hlt : Power.lowest < p.peek.kind.power := by
      rw [hopen]
      decide
    have hrule : p.peek.kind.infixRule? = some .call := by rw [hopen]; rfl
    refine ⟨e, q, .extend hlt hrule hround he, hq, ?_⟩
    rw [List.replicate_succ', ← List.append_assoc]
    exact hpath.append (.step .callee .here)

end Rule

theorem Parser.readsNames_expressionWithin {room depth : Nat} (hd : depth < maxNestingDepth) :
    Rule.ReadsNames (expressionWithin (room + 1)) depth := by
  rintro p rfl hk hpower
  refine clean_expressionWithin_succ_iff.2 ⟨hd, _, p.deepen, p.deepen, ?_, .stop hpower, rfl⟩
  exact Rule.clean_start_operand (p := p.deepen) (.identifier hk)

/-- A source of a single expression. -/
theorem parse_eq_of_clean_expression {source : String} {file : Option String} {options : Options}
    {e : Expr} {q : Parser} (hk : (Parser.opened source file options).current.kind = .identifier)
    (he : (Parser.expression .lowest).Clean (.opened source file options) e q)
    (hq : q.rest = []) : parse source file options =
      ⟨⟨[.expression (Parser.opened source file options).current e]⟩, []⟩ := by
  let s := Stmt.expression (Parser.opened source file options).current e
  let r := (q.skip .semicolon).note (.completed s)
  have hstatement : Parser.statement.Clean (.opened source file options) s (q.skip .semicolon) := by
    refine Rule.clean_statement_iff.2 (.inr (.inr ⟨by rw [hk]; rfl, ?_⟩))
    exact (Rule.clean_expressionStatement_iff (Parser.steady_expressionWithin _)).2
      ⟨e, q, he, rfl, rfl⟩
  have hlogged : Parser.loggedStatement.Clean (.opened source file options) s r :=
    Parser.clean_loggedStatement_iff.2 ⟨_, hstatement, rfl⟩
  have hprecedes : q.Precedes r := (Parser.precedes_skip _ q).trans (Parser.precedes_note _ _)
  have hend : r.advance.current.kind = .eof :=
    Parser.kind_current_of_ahead_nil (List.suffix_nil.1 (hq ▸ hprecedes.rest))
  refine parse_eq_iff.2 ⟨r.advance, .round ?_ hlogged (.done ?_)⟩
  · rw [hk]
    rfl
  · rw [hend]
    rfl

/-- However many left operands and callees there are, an expression of this shape is read. -/
theorem exists_path_left_callee (m n : Nat) (file : Option String) (options : Options) :
    ∃ source, (parse source file options).errors = [] ∧
      ∃ s ∈ (parse source file options).program.statements, ∃ x,
        s.value.Path (List.replicate m .left ++ List.replicate n .callee) x := by
  let source := String.ofList (spelling (.mark .identifier "a" :: spine m n))
  let p := Parser.opened source file options
  have hspells : Spells source.toList (.mark .identifier "a" :: spine m n) := by
    rw [String.toList_ofList]
    exact spells_name (spells_spine m n).1 (spells_spine m n).2
  have hahead : p.ahead.map Token.bare = .mark .identifier "a" :: spine m n :=
    bare_ahead_ofSource hspells
  obtain ⟨t, rest, hp, ht, hrest⟩ := List.map_eq_cons_iff.1 hahead
  obtain ⟨hcurrent, hprest⟩ := Parser.current_of_ahead hp
  have hk : p.current.kind = .identifier := by
    rw [hcurrent]
    exact ((Token.bare_eq_iff (t := .mark .identifier "a")).1 ht).1
  have hnames : Rule.ReadsNames (Parser.expressionWithin 63) 1 :=
    Parser.readsNames_expressionWithin (by decide)
  have hspine : p.deepen.rest.map Token.bare = spine m n := (congrArg _ hprest).trans hrest
  obtain ⟨e, q, he, hq, hpath⟩ : ∃ e q, Rule.Continued (Parser.expressionWithin 63) .lowest
      p.current.leaf p.deepen e q ∧ q.rest = [] ∧
        e.Path (List.replicate m .left ++ List.replicate n .callee) p.current.leaf :=
    Rule.continued_spine (Parser.steady_expressionWithin 63) hnames rfl hspine
  have hvalue : (Parser.expression .lowest).Clean p e q.leave := by
    refine Parser.clean_expressionWithin_succ_iff.2
      ⟨show 0 < maxNestingDepth by decide, _, p.deepen, q, ?_, he, rfl⟩
    exact Rule.clean_start_operand (p := p.deepen) (.identifier hk)
  have hparse : parse source file options = ⟨⟨[.expression p.current e]⟩, []⟩ :=
    parse_eq_of_clean_expression hk hvalue hq
  refine ⟨source, congrArg Outcome.errors hparse, .expression p.current e, ?_, _, hpath⟩
  rw [hparse]
  exact List.mem_singleton_self _

/--
No path in a tree of a program goes down more levels than the limit leaves, whatever errors the
source has; left operands and callees may follow one another without limit.
-/
theorem countP_isDown_lt_of_path (file : Option String) (options : Options) :
    (∀ source, ∀ s ∈ (parse source file options).program.statements, ∀ edges x,
      s.value.Path edges x → edges.countP Edge.isDown ≤ maxNestingDepth - 1) ∧
    ∀ m n, ∃ source, (parse source file options).errors = [] ∧
      ∃ s ∈ (parse source file options).program.statements, ∃ x,
        s.value.Path (List.replicate m .left ++ List.replicate n .callee) x := by
  refine ⟨fun source s hs edges x hpath => ?_,
    fun m n => exists_path_left_callee m n file options⟩
  obtain ⟨q, hq⟩ := exists_statements_of_parse source file options
  have hfits : 1 + edges.countP Edge.isDown ≤ maxNestingDepth :=
    hq.levels.fits _ (List.mem_map_of_mem hs) edges x hpath
  omega

/-- In front of a stray parenthesis, an operand in an argument in a block. -/
theorem countP_isDown_lt_of_path_stray :
    let o := parse "if (a) \x7b f(-b) \x7d )" none {}
    let t := Token.placed defaultFile
    o.errors ≠ [] ∧ ∃ s ∈ o.program.statements,
      s.value.Path [.statement, .argument, .operand] (t 12 .identifier "b").leaf ∧
        [Edge.statement, .argument, .operand].countP Edge.isDown ≤ maxNestingDepth - 1 := by
  intro o t
  let operand := Expr.unary (t 11 .dash "-") "-" (t 12 .identifier "b").leaf
  let called := Expr.call (t 10 .openParen "(") (t 9 .identifier "f").leaf [operand]
  let block := Block.mk (t 7 .openCurly "\x7b") [.expression (t 9 .identifier "f") called]
  let e := Expr.conditional (t 0 .ifKeyword "if") (t 4 .identifier "a").leaf block none
  have hs : Stmt.expression (t 0 .ifKeyword "if") e ∈ o.program.statements := by decide +kernel
  have hpath : e.Path [.statement, .argument, .operand] (t 12 .identifier "b").leaf :=
    .step (.consequence (List.mem_singleton_self _))
      (.step (.argument (List.mem_singleton_self _)) (.step .operand .here))
  exact ⟨by decide +kernel, _, hs, hpath,
    (countP_isDown_lt_of_path none {}).1 _ _ hs _ _ hpath⟩

end ExprLang
