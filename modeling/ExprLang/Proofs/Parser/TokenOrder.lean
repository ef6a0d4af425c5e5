import ExprLang.Proofs.Diagnostic.Description
import ExprLang.Proofs.Parser.Assembly
import ExprLang.Proofs.Parser.Origin
import ExprLang.Proofs.Tree.Entries

/-!
# The order of the tokens in trees

The cursor never goes back, and every production takes the token of its node where it is met in
reading order (`Assembly.Inner.along`). So no token of the source is used by two nodes, and the
nodes of a program, listed in reading order, stand in the order of the source, whatever statements
were passed over in between. Main statement: `pairwise_start_of_parse`.
-/

set_option autoImplicit false

namespace ExprLang

open Step

namespace Assembly

variable {p q : Parser} {es : List Entry} {us : List Token}

/-! ## Tokens in view -/

/-- The current token is that of a node. -/
theorem along_current (hk : p.current.kind ≠ .eof) (h : Along p.rest es us) :
    Along p.ahead (.node p.current :: es) us := by
  rw [Parser.ahead_of_current hk]
  exact .node h

theorem along_peek (hk : p.peek.kind ≠ .eof) (h : Along p.advance.rest es us) :
    Along p.rest (.node p.peek :: es) us := by
  rw [Parser.rest_of_peek hk]
  exact .node h

/-- The token behind the current one is that of no node. -/
theorem along_past (h : Along p.advance.rest es us) : Along p.rest es us :=
  (Along.of_suffix (List.tail_suffix p.rest)).trans h

/-- An expression statement keeps its first token, though the expression is read from there on. -/
theorem along_expression {e : Expr} (h : Along p.ahead e.entries us) :
    Along p.ahead (.begins p.current e :: e.entries) us := by
  have hlisted : e.listed.Sublist p.ahead := h.sublist
  have hne : p.ahead ≠ [] := fun hnil => e.listed_ne_nil (List.sublist_nil.1 (hnil ▸ hlisted))
  have hk : p.current.kind ≠ .eof := mt TokenStream.kind_current_eq_eof_iff.1 hne
  rw [Parser.ahead_of_current hk] at h hlisted ⊢
  exact .begins hlisted h

/-! ## Parameters -/

theorem along_namesRead {names : List Identifier} (h : Rule.NamesRead p names q) :
    Along p.rest (names.map fun name => .node name.token) q.rest := by
  induction h with
  | last hname _ =>
    exact along_peek (kind_ne_of_eq hname (by decide)) (along_past .done)
  | more hname _ _ ih =>
    exact along_peek (kind_ne_of_eq hname (by decide)) (along_past ih)

theorem Names.along {names : List Identifier} : Names p names q →
    Along p.rest (names.map fun name => .node name.token) q.rest
  | .none _ => along_past .done
  | .some h => along_namesRead h

/-! ## One production after the other -/

mutual

theorem Inner.along {p q : Parser} {e : Expr} : Inner p e q → Along p.ahead e.entries q.rest
  | .identifier hk => along_current (kind_ne_of_eq hk (by decide)) .done
  | .integer hk hstream _ _ => by
    have hrest : q.rest = p.rest := congrArg (·.ahead.tail) hstream
    rw [hrest]
    exact along_current (kind_ne_of_eq hk (by decide)) .done
  | .boolean hk => along_current (kind_ne_of_mem hk (by decide)) .done
  | .unary hk hright => along_current (kind_ne_of_mem hk (by decide)) hright.along
  | .grouping hk he _ => by
    rw [Parser.ahead_of_current (kind_ne_of_eq hk (by decide))]
    exact .skip (he.along.then_suffix (List.tail_suffix _))
  | .conditional hk _ hcondition _ hconsequence halternative => by
    have hblocks := hconsequence.along.trans halternative.along
    have hall := hcondition.along.trans (along_past hblocks)
    exact along_current (kind_ne_of_eq hk (by decide)) (along_past hall)
  | .function hk _ hnames hbody => by
    have hall := hnames.along.trans hbody.along
    exact along_current (kind_ne_of_eq hk (by decide)) (along_past hall)
  | .binary hleft hk hright =>
    hleft.along.trans (along_peek (kind_ne_of_mem hk (by decide)) hright.along)
  | .call hcallee hk harguments =>
    hcallee.along.trans (along_peek (kind_ne_of_eq hk (by decide)) harguments.along)

theorem Nested.along {p q : Parser} {e : Expr} : Nested p e q → Along p.ahead e.entries q.rest
  | .mk _ he => he.along

theorem Arguments.along {p q : Parser} {es : List Expr} : Arguments p es q →
    Along p.rest (entriesEach es) q.rest
  | .none _ => along_past .done
  | .some he hmore => he.along.trans hmore.along

theorem More.along {p q : Parser} {es : List Expr} : More p es q →
    Along p.rest (entriesEach es) q.rest
  | .close _ => along_past .done
  | .more _ he hmore => along_past (he.along.trans hmore.along)

theorem Alternative.along {p q : Parser} {b : Option Block} : Alternative p b q →
    Along p.rest (entriesElse b) q.rest
  | .none => .done
  | .some _ hblock => along_past hblock.along

theorem Braces.along {p q : Parser} {b : Block} : Braces p b q → Along p.ahead b.entries q.rest
  | .mk (q := r) hk hstatements => by
    have hrest : Along p.rest _ r.rest := hstatements.along.then_suffix (List.tail_suffix _)
    exact along_current (kind_ne_of_eq hk (by decide))
      (hrest.then_suffix (Rule.precedes_closeBlock r).rest)

theorem Statements.along {p q : Parser} {ss : List Stmt} : Statements p ss q →
    Along p.ahead (entriesBody ss) q.ahead
  | .nil => .done
  | .cons hs hss => hs.along.trans hss.along
  | .failed hpast hss =>
    (Along.of_suffix (hpast.trans (Parser.precedes_advance _)).ahead).trans hss.along

theorem Statement.along {p q : Parser} {s : Stmt} : Statement p s q →
    Along p.ahead s.entries q.rest
  | .binding hk hname _ hvalue hq => by
    have hrest := along_past (hvalue.along.then_suffix hq.rest)
    exact along_current (kind_ne_of_eq hk (by decide))
      (along_peek (kind_ne_of_eq hname (by decide)) hrest)
  | .result hk hvalue hq =>
    along_current (kind_ne_of_eq hk (by decide)) (hvalue.along.then_suffix hq.rest)
  | .expression hvalue hq => along_expression (hvalue.along.then_suffix hq.rest)

end

end Assembly

/-! ## Programs -/

/-- The nodes of a program are met along the tokens of its source. -/
theorem exists_along_of_parse (source : String) (file : Option String) (options : Options) :
    ∃ us, Along (tokenize source file).dropLast (parse source file options).program.entries us := by
  obtain ⟨q, hq⟩ := exists_statements_of_parse source file options
  rw [dropLast_tokenize source file options]
  exact ⟨_, hq.along⟩

/--
Listed in reading order, the tokens of the nodes of a program are tokens of the source, each behind
the one before. The token of an expression statement is behind all that is listed before, and not
behind the first token that is listed of its expression.
-/
theorem pairwise_start_of_parse {source : String} {file : Option String} {options : Options}
    (hlen : source.utf8ByteSize ≤ Position.maxOffset) :
    let es := (parse source file options).program.entries
    ((nodeTokens es).Pairwise fun t u => t.span.start.offset < u.span.start.offset) ∧
      (∀ t ∈ nodeTokens es, t ∈ tokenize source file) ∧
        ∀ front t e behind, es = front ++ .begins t e :: behind →
          (∀ u ∈ nodeTokens front, u.span.start.offset < t.span.start.offset) ∧
            ∃ u, e.listed.head? = some u ∧ t.span.start.offset ≤ u.span.start.offset := by
  intro es
  obtain ⟨us, halong⟩ := exists_along_of_parse source file options
  have hpairwise : (tokenize source file).dropLast.Pairwise fun t u =>
      t.span.start.offset < u.span.start.offset :=
    (pairwise_start_tokenize hlen).sublist (List.dropLast_sublist _)
  refine ⟨hpairwise.sublist halong.sublist, fun t ht => ?_, fun front t e behind hes => ?_⟩
  · exact List.dropLast_subset _ (halong.sublist.subset ht)
  · change Along _ es us at halong
    rw [hes] at halong
    obtain ⟨gone, rest, htokens, hgone, hlisted⟩ := halong.exists_begins
    rw [htokens] at hpairwise
    obtain ⟨-, hbehind, hfront⟩ := List.pairwise_append.1 hpairwise
    refine ⟨fun u hu => hfront u (hgone.subset hu) t List.mem_cons_self, ?_⟩
    obtain ⟨u, more, hu⟩ := List.exists_cons_of_ne_nil e.listed_ne_nil
    refine ⟨u, by rw [hu]; rfl, ?_⟩
    have hmem : u ∈ t :: rest := hlisted.subset (hu ▸ List.mem_cons_self)
    rcases List.mem_cons.1 hmem with rfl | hmem
    · exact Nat.le_refl _
    · exact Nat.le_of_lt ((List.pairwise_cons.1 hbehind).1 u hmem)

/-- A block whose first statement fails, in front of one that starts with a grouping. -/
theorem pairwise_start_of_parse_grouping :
    let source := "if (a) \x7b let 1; (b) + 2 \x7d"
    let o := parse source none {}
    let t := Token.placed defaultFile
    source.utf8ByteSize ≤ Position.maxOffset ∧ o.errors ≠ [] ∧
      (nodeTokens o.program.entries).Pairwise
        (fun t u => t.span.start.offset < u.span.start.offset) ∧
      nodeTokens o.program.entries = [t 0 .ifKeyword "if", t 4 .identifier "a",
        t 7 .openCurly "\x7b", t 13 .integer "1", t 17 .identifier "b", t 20 .plus "+",
        t 22 .integer "2"] := by
  intro source o t
  have hlen : source.utf8ByteSize ≤ Position.maxOffset := by decide +kernel
  exact ⟨hlen, by decide +kernel, (pairwise_start_of_parse hlen).1, by decide +kernel⟩

end ExprLang
