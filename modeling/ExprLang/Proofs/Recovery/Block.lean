import ExprLang.Proofs.Parser.Conditional
import ExprLang.Proofs.Parser.Origin
import ExprLang.Proofs.Recovery.Semicolon

/-!
# Errors in front of a closing brace

A block reads statements up to its closing brace. Behind a statement that fails it goes on at the
token after the one where the failure stopped, and that may have been the closing brace: then the
block does not see its end, and reads what is behind it. Main statement (`statements_behind_block`):
the statements behind a block are kept if its text alone is not told to miss a closing brace, and
only then.

The text of the block alone and the whole source share a segment up to the brace, so they do the
same up to there. In the one run nothing is behind the brace, so it tells which of the two happened.
-/

set_option autoImplicit false

namespace ExprLang

open Step

/-- A block of the source has no end. -/
def Outcome.missesBrace (o : Outcome) : Bool := o.errors.any fun e => e.fault.missesBrace

/-! ## Tokens -/

/-- The tokens around a block: of `if (x) {`, of the text in the block, and of `};`. -/
structure BlockTokens where
  header : List Token
  inside : List Token
  closing : Token
  semicolon : Token
  kind_header : header.map Token.kind =
    [.ifKeyword, .openParen, .identifier, .closeParen, .openCurly]
  kind_inside : ∀ t ∈ inside, t.kind ≠ .openCurly ∧ t.kind ≠ .closeCurly ∧ t.kind ≠ .eof
  kind_closing : closing.kind = .closeCurly
  kind_semicolon : semicolon.kind = .semicolon

theorem exists_blockTokens {w : String} {file : Option String}
    (hw : ∀ t ∈ tokenize w file, t.kind ≠ .openCurly ∧ t.kind ≠ .closeCurly) :
    ∃ B : BlockTokens,
      (tokenize ("if (x) \x7b " ++ w ++ " \x7d") file).dropLast =
        B.header ++ (B.inside ++ [B.closing]) ∧
      (tokenize ("if (x) \x7b " ++ w ++ " \x7d;") file).dropLast =
        B.header ++ (B.inside ++ [B.closing, B.semicolon]) := by
  let f : Position → Position := .shift ("if (x) \x7b " ++ w).utf8ByteSize
  let name := file.getD defaultFile
  let inside := (tokenize w file).dropLast.map (Token.relocate (.shift "if (x) \x7b ".utf8ByteSize))
  have hinside : ∀ t ∈ inside, t.kind ≠ .openCurly ∧ t.kind ≠ .closeCurly ∧ t.kind ≠ .eof := by
    intro t ht
    obtain ⟨u, hu, rfl⟩ := List.mem_map.1 ht
    obtain ⟨hopen, hclose⟩ := hw u ((List.dropLast_sublist _).subset hu)
    rw [dropLast_tokenize w file {}] at hu
    exact ⟨hopen, hclose, (Parser.opened w file {}).stream.ahead_ne_eof u hu⟩
  have hfront : (tokenize ("if (x) \x7b " ++ w) file).dropLast =
      (tokenize "if (x) \x7b " file).dropLast ++ inside := by
    refine dropLast_tokenize_append fun t ht _ _ => ?_
    have hbrace : (tokenize "if (x) \x7b " file).dropLast.getLast? =
        some (.placed name 7 .openCurly "\x7b") := rfl
    rw [hbrace] at ht
    obtain rfl := Option.some.inj ht
    rfl
  have hclose (close : String) (hblank : close.toList.head? = some ' ') :
      (tokenize ("if (x) \x7b " ++ w ++ close) file).dropLast =
        (tokenize "if (x) \x7b " file).dropLast ++
          (inside ++ (tokenize close file).dropLast.map (Token.relocate f)) := by
    rw [dropLast_tokenize_append, hfront, List.append_assoc]
    intro t _ c hc
    rw [hblank] at hc
    obtain rfl := Option.some.inj hc
    exact Kind.joins_blank _
  exact ⟨⟨_, inside, (Token.placed name 1 .closeCurly "\x7d").relocate f,
    (Token.placed name 2 .semicolon ";").relocate f, rfl, hinside, rfl, rfl⟩,
    hclose " \x7d" rfl, hclose " \x7d;" rfl⟩

/-! ## Statements of a block -/

namespace Parser

/-- The statements in the block of `if (x) {`, and the parser at the token where they end. -/
def body (p : Parser) : List Stmt × Parser :=
  collectAll Rule.endsBlock (Rule.statement inner) p.atBlock.advance

theorem block_atBlock (p : Parser) : Rule.block inner p.atBlock =
    (.mk p.atBlock.current p.body.1, Rule.closeBlock p.body.2) := rfl

variable {p : Parser} (h : p.StartsBlock) (hd : p.depth = 0)
include h

theorem collectAll_of_startsBlock :
    collectAll (· == .eof) loggedStatement p =
      ((loggedStatement p).1.toList ++
          (collectAll (· == .eof) loggedStatement (loggedStatement p).2.advance).1,
        (collectAll (· == .eof) loggedStatement (loggedStatement p).2.advance).2) := by
  refine collectAll_round steady_loggedStatement rfl ?_
  rw [h.keyword]
  rfl

include hd

/-- Where the block ends at its brace, the statement ends there, with its semicolon. -/
theorem collectAll_of_closed {closing : Token} {rest : List Token}
    (hclosing : closing.kind = .closeCurly) (hbody : p.body.2.ahead = closing :: rest)
    (hrest : ∀ t ∈ rest.head?, t.kind = .semicolon) :
    ∃ s r, collectAll (· == .eof) loggedStatement p =
        (s :: (collectAll (· == .eof) loggedStatement r).1,
          (collectAll (· == .eof) loggedStatement r).2) ∧
      r.ahead = rest.tail ∧ r.recorded = p.body.2.recorded ∧ p.Precedes r := by
  obtain ⟨hcurrent, hbehind⟩ := current_of_ahead hbody
  have hclose : Rule.closeBlock p.body.2 = p.body.2 := by
    refine if_neg ?_
    rw [hcurrent, hclosing]
    decide
  have hpeek : p.body.2.peek.kind = .semicolon ∨ rest = [] ∧ p.body.2.peek.kind = .eof := by
    cases rest with
    | nil => exact .inr ⟨rfl, kind_current_of_ahead_nil (p := p.body.2.advance) hbehind⟩
    | cons t ts =>
      have hp : p.body.2.peek = t := (current_of_ahead (p := p.body.2.advance) hbehind).1
      rw [hp]
      exact .inl (hrest t rfl)
  obtain ⟨s, hs⟩ : ∃ s, loggedStatement p =
      (some s, (p.body.2.leave.skip .semicolon).note (.completed s)) := by
    refine loggedStatement_of_closed h (by rw [hd]; decide) (by rw [block_atBlock, hclose]) ?_ ?_
    all_goals
      rcases hpeek with hk | ⟨-, hk⟩ <;> rw [hk] <;> decide
  refine ⟨s, (loggedStatement p).2.advance, ?_, ?_, ?_, ?_⟩
  · rw [collectAll_of_startsBlock h, hs]
    rfl
  · rw [hs]
    change (p.body.2.leave.skip .semicolon).rest = rest.tail
    have hleave : p.body.2.leave.peek = p.body.2.peek := rfl
    rcases hpeek with hk | ⟨rfl, hk⟩
    · rw [skip, hleave, if_pos hk]
      exact congrArg List.tail hbehind
    · rw [skip, hleave, if_neg (by rw [hk]; decide)]
      exact hbehind
  · rw [hs]
    exact recorded_skip _ _
  · exact (steady_loggedStatement.precedes p).trans (precedes_advance _)

/-- Where nothing is left at the end of the block, its brace is told to be missing. -/
theorem exists_missesBrace (hbody : p.body.2.ahead = []) :
    ∃ d ∈ (collectAll (· == .eof) loggedStatement p).2.recorded,
      d.fault.missesBrace = true := by
  have hclose : Rule.closeBlock p.body.2 = p.body.2.record (.unexpectedToken .closeCurly .eof
      p.body.2.current.literal) := if_pos (kind_current_of_ahead_nil hbody)
  have hblock := recorded_loggedStatement h (by rw [hd]; decide)
  rw [block_atBlock, hclose] at hblock
  have hrest := (precedes_collectAll (· == .eof) steady_loggedStatement
    (loggedStatement p).2.advance).recorded
  rw [collectAll_of_startsBlock h]
  exact ⟨_, (hblock.trans hrest).subset List.mem_cons_self, rfl⟩

/-- No statement but the first one is read in front of where the block ends. -/
theorem token_of_mem_collectAll {s : Stmt}
    (hs : s ∈ (collectAll (· == .eof) loggedStatement p).1) :
    s.token = p.current ∨ s.token ∈ p.body.2.ahead := by
  rw [collectAll_of_startsBlock h] at hs
  rcases List.mem_append.1 hs with hfirst | hmore
  · exact .inl (token_of_loggedStatement (Prod.ext (Option.mem_toList.1 hfirst) rfl))
  · have hblock := ahead_loggedStatement h (by rw [hd]; decide)
    have hclose : (Rule.closeBlock p.body.2).ahead = p.body.2.ahead := by
      rw [Rule.closeBlock]
      split <;> rfl
    rw [block_atBlock, hclose] at hblock
    have hrest : (loggedStatement p).2.advance.ahead <:+ (loggedStatement p).2.ahead :=
      List.tail_suffix _
    exact .inr ((hrest.trans hblock).subset (token_mem_ahead hmore))

end Parser

/-! ## The block alone and the whole source -/

namespace BlockTokens

variable {B : BlockTokens} {behind : List Token} {p q : Parser}

/-- The text of the block alone and a source that goes on share the tokens up to the brace. -/
def segment (B : BlockTokens) (behind : List Token) : Segment where
  last := B.closing
  behind := []
  behind' := B.semicolon :: behind
  blocks := false
  endsStatement_last := by rw [B.kind_closing]; rfl
  of_blocks h := nomatch h

/-- How the block ends in the text of its own and in the whole source. -/
inductive Ends (B : BlockTokens) (behind : List Token) (p q : Parser) : Prop
  | closed : p.body.2.ahead = [B.closing] → q.body.2.ahead = B.closing :: B.semicolon :: behind →
      (∀ d ∈ p.body.2.recorded, d.fault.missesBrace = false) → Ends B behind p q
  | missed : p.body.2.ahead = [] →
      (∀ t ts, behind = t :: ts → Rule.endsBlock t.kind = false → q.body.2.ahead <:+ ts) →
      Ends B behind p q

/-- Behind the brace, a block goes on until it finds another one. -/
theorem ahead_collectAll_behind {ts : List Token} {t : Token} {r : Parser}
    (hr : r.ahead = B.semicolon :: t :: ts) (ht : Rule.endsBlock t.kind = false) :
    (collectAll Rule.endsBlock (Rule.statement Parser.inner) r).2.ahead <:+ ts := by
  have hsteady := Rule.steady_statement (Parser.steady_expressionWithin (maxNestingDepth - 1))
  obtain ⟨hcurrent, hrest⟩ := Parser.current_of_ahead hr
  have hsemicolon : Rule.endsBlock r.current.kind = false := by
    rw [hcurrent, B.kind_semicolon]
    rfl
  have hround : (Rule.statement Parser.inner r).2.advance.ahead <:+ t :: ts := by
    rw [← hrest]
    exact (hsteady.precedes r).rest
  rw [collectAll_round hsteady rfl hsemicolon]
  rcases List.suffix_cons_iff.1 hround with hnext | hnext
  · obtain ⟨hcurrent, hrest⟩ := Parser.current_of_ahead hnext
    rw [← hrest]
    exact ahead_collectAll hsteady rfl (by rw [hcurrent, ht])
  · exact (precedes_collectAll Rule.endsBlock hsteady _).ahead.trans hnext

theorem ends (hp : p.ahead = B.header ++ (B.inside ++ [B.closing]))
    (hq : q.ahead = B.header ++ (B.inside ++ B.closing :: B.semicolon :: behind))
    (hoptions : q.options = p.options) (hdepth : q.depth = p.depth) (hp' : p.recorded = [])
    (hq' : q.recorded = []) : B.Ends behind p q := by
  let S := B.segment behind
  have hprest := (Parser.startsBlock_of_ahead hp B.kind_header).2
  have hqrest := (Parser.startsBlock_of_ahead hq B.kind_header).2
  have hstart : S.view.At S.view.here p.atBlock.advance q.atBlock.advance :=
    ⟨⟨B.inside, hprest, hqrest, fun _ t ht => (B.kind_inside t ht).1⟩, hoptions,
      congrArg (· + 1) hdepth, hq'.trans hp'.symm, by
        intro d hd
        rw [show p.atBlock.advance.recorded = [] from hp'] at hd
        cases hd⟩
  have hsteady := Rule.steady_statement (Parser.steady_expressionWithin (maxNestingDepth - 1))
  have hagrees {p q : Parser} (h : S.view.At S.view.here p q) :=
    S.lawful.agrees_statement (fun power _ _ h =>
      S.lawful.agrees_expressionWithin (maxNestingDepth - 1) power h) h
  cases Segment.ends Rule.endsBlock hsteady rfl hagrees hstart with
  | @inside ss p' q' hend hk hcp hcq =>
    obtain ⟨⟨inside, hin⟩, -, -, -, hclean⟩ := hend
    have hle : inside ++ [B.closing] <:+ B.inside ++ [B.closing] := by
      have hprecedes := precedes_collectAll Rule.endsBlock hsteady p.atBlock.advance
      rw [hcp] at hprecedes
      have hahead := hprecedes.ahead
      rwa [hin.first, show p.atBlock.advance.stream.ahead = _ from hprest] at hahead
    -- no token of the text in the block ends a block
    have hnil : inside = [] := by
      cases inside with
      | nil => rfl
      | cons t ts =>
        have ht : t ∈ B.inside := (List.suffix_append_self_iff.1 hle).subset List.mem_cons_self
        obtain ⟨-, hcurly, heof⟩ := B.kind_inside t ht
        rw [show p'.current = t from hin.current_first] at hk
        simp [Rule.endsBlock, hcurly, heof] at hk
    subst hnil
    have hpbody : p.body = (ss, p') := hcp
    have hqbody : q.body = (ss, q') := hcq
    refine .closed ?_ ?_ ?_
    · rw [hpbody]
      exact hin.first
    · rw [hqbody]
      exact hin.second
    · rw [hpbody]
      exact hclean
  | @behind ss p' q' hpast _ _ hcp hcq =>
    have hpnil : p'.ahead = [] := hpast.stream.first
    have hstop : Rule.endsBlock p'.current.kind = true := by
      rw [Parser.kind_current_of_ahead_nil hpnil]
      rfl
    have hpbody : p.body.2 = (collectAll Rule.endsBlock (Rule.statement Parser.inner) p').2 := by
      rw [Parser.body, hcp]
    have hqbody : q.body.2 = (collectAll Rule.endsBlock (Rule.statement Parser.inner) q').2 := by
      rw [Parser.body, hcq]
    refine .missed ?_ fun t ts hbehind ht => ?_
    · rw [hpbody, collectAll_of_stop hstop]
      exact hpnil
    · rw [hqbody]
      have hq' : q'.ahead = B.semicolon :: behind := hpast.stream.second
      rw [hbehind] at hq'
      exact ahead_collectAll_behind hq' ht
  | lost hl => exact absurd hl.1 Bool.false_ne_true

/-- A token that the block goes past is that of no statement of the program. -/
theorem token_ne_of_missed {t : Token} {ts : List Token}
    (hq : q.ahead = B.header ++ (B.inside ++ B.closing :: B.semicolon :: t :: ts))
    (hdepth : q.depth = 0)
    (hdistinct : q.ahead.Pairwise fun t u => t.span.start.offset < u.span.start.offset)
    (hbody : q.body.2.ahead <:+ ts) {s : Stmt}
    (hs : s ∈ (collectAll (· == .eof) Parser.loggedStatement q).1) : s.token ≠ t := by
  have hstarts := (Parser.startsBlock_of_ahead hq B.kind_header).1
  obtain ⟨keyword, header, hheader, -⟩ := List.map_eq_cons_iff.1 B.kind_header
  rw [hheader, List.cons_append] at hq
  have hcurrent : q.current = keyword := (Parser.current_of_ahead hq).1
  have hsplit : q.ahead =
      (keyword :: (header ++ (B.inside ++ [B.closing, B.semicolon]))) ++ t :: ts := by
    rw [hq]
    simp
  rw [hsplit] at hdistinct
  obtain ⟨-, hbehind, hcross⟩ := List.pairwise_append.1 hdistinct
  rintro rfl
  rcases Parser.token_of_mem_collectAll hstarts hdepth hs with hk | hmem
  · have hlt := hcross keyword List.mem_cons_self s.token List.mem_cons_self
    rw [hk, hcurrent] at hlt
    exact Nat.lt_irrefl _ hlt
  · exact Nat.lt_irrefl _ ((List.pairwise_cons.1 hbehind).1 s.token (hbody.subset hmem))

end BlockTokens

/-! ## Sources -/

section
variable {source source' b : String} {file : Option String} {B : BlockTokens}
  {f : Position → Position} (options : Options)

theorem missesBrace_iff : (parse source file options).missesBrace = true ↔
    ∃ d ∈ (collectAll (· == .eof) Parser.loggedStatement
      (.opened source file options)).2.recorded, d.fault.missesBrace = true := by
  rw [Outcome.missesBrace, List.any_eq_true, parse_eq_collectAll]
  simp only [Parser.errors, List.mem_reverse]

/-- How the block ends in its own text decides whether what is behind it is kept. -/
theorem statements_of_blockTokens
    (hblock : (tokenize source file).dropLast = B.header ++ (B.inside ++ [B.closing]))
    (htokens : tokenize source' file = (B.header ++ (B.inside ++ [B.closing, B.semicolon])) ++
      (tokenize b file).map (Token.relocate f)) :
    ((parse source file options).missesBrace = false ∧
      ∃ s, (parse source' file options).program.statements =
        s :: (parse b file options).program.statements.map (Stmt.relocate f)) ∨
    ((parse source file options).missesBrace = true ∧ (source'.utf8ByteSize ≤ Position.maxOffset →
      ∀ t ts, (Parser.opened b file options).ahead = t :: ts → Rule.endsBlock t.kind = false →
        ∀ s ∈ (parse source' file options).program.statements, s.token ≠ t.relocate f)) := by
  have hp : (Parser.opened source file options).ahead =
      B.header ++ (B.inside ++ [B.closing]) := by
    rw [← dropLast_tokenize, hblock]
  obtain ⟨hahead, hfinal⟩ := opened_of_tokenize htokens options
  have hq : (Parser.opened source' file options).ahead =
      B.header ++ (B.inside ++ B.closing :: B.semicolon ::
        (Parser.opened b file options).ahead.map (Token.relocate f)) := by
    rw [hahead]
    simp
  have hpstarts := (Parser.startsBlock_of_ahead hp B.kind_header).1
  have hqstarts := (Parser.startsBlock_of_ahead hq B.kind_header).1
  cases B.ends hp hq rfl rfl rfl rfl with
  | closed hpbody hqbody hclean =>
    refine .inl ⟨?_, ?_⟩
    · obtain ⟨s, r, hcollect, hrest, hrecorded, -⟩ := Parser.collectAll_of_closed hpstarts rfl
        B.kind_closing hpbody fun _ ht => nomatch ht
      have hstop : (r.current.kind == .eof) = true :=
        beq_iff_eq.2 (Parser.kind_current_of_ahead_nil hrest)
      refine Bool.eq_false_iff.2 fun hm => ?_
      obtain ⟨d, hd, hm⟩ := (missesBrace_iff options).1 hm
      rw [hcollect, collectAll_of_stop hstop, hrecorded] at hd
      rw [hclean d hd] at hm
      cases hm
    · obtain ⟨s, r, hcollect, hrest, -, hprecedes⟩ := Parser.collectAll_of_closed hqstarts rfl
        B.kind_closing hqbody fun t ht => by
          obtain rfl := Option.some.inj ht
          exact B.kind_semicolon
      obtain ⟨hss, -⟩ := collectAll_elsewhere f hrest (hprecedes.final.trans hfinal)
        hprecedes.options hprecedes.depth
      refine ⟨s, ?_⟩
      rw [parse_eq_collectAll source', hcollect, hss]
  | missed hpbody hqbody =>
    refine .inr ⟨?_, fun hlen t ts hbehind ht s hs => ?_⟩
    · exact (missesBrace_iff options).2 (Parser.exists_missesBrace hpstarts rfl hpbody)
    · have hdistinct := (tiling_tokenize source' file).pairwise_start_lt
        (by rwa [Text.byteLength_toList])
      have hdistinct' := hdistinct.sublist (List.dropLast_sublist _)
      rw [dropLast_tokenize source' file options] at hdistinct'
      rw [hbehind, List.map_cons] at hq
      have hpast := hqbody (t.relocate f) (ts.map (Token.relocate f))
        (by rw [hbehind, List.map_cons]) ht
      rw [parse_eq_collectAll] at hs
      exact BlockTokens.token_ne_of_missed hq rfl hdistinct' hpast hs

/-- The statements behind a block are kept exactly if the block alone sees its brace. -/
theorem suffix_iff_of_blockTokens
    (hblock : (tokenize source file).dropLast = B.header ++ (B.inside ++ [B.closing]))
    (htokens : tokenize source' file = (B.header ++ (B.inside ++ [B.closing, B.semicolon])) ++
      (tokenize b file).map (Token.relocate f)) :
    ((parse source file options).missesBrace = false →
      ∃ s, (parse source' file options).program.statements =
        s :: (parse b file options).program.statements.map (Stmt.relocate f)) ∧
    ((parse b file options).errors = [] → source'.utf8ByteSize ≤ Position.maxOffset →
      ((parse b file options).program.statements.map (Stmt.relocate f) <:+
          (parse source' file options).program.statements ↔
        (parse source file options).missesBrace = false ∨
          (parse b file options).program.statements.map (Stmt.relocate f) = [])) := by
  rcases statements_of_blockTokens options hblock htokens with
    ⟨hclosed, s, hs⟩ | ⟨hmissed, hne⟩
  · refine ⟨fun _ => ⟨s, hs⟩, fun _ _ => ⟨fun _ => .inl hclosed, fun _ => ?_⟩⟩
    rw [hs]
    exact List.suffix_cons _ _
  · rw [hmissed]
    refine ⟨fun h => (nomatch h), fun hclean hlen => ⟨fun hkept => .inr ?_, fun h => ?_⟩⟩
    · cases hss : (parse b file options).program.statements with
      | nil => rfl
      | cons s ss =>
        -- the first statement behind the block is read at a token that the block went past
        obtain ⟨htoken, hstarts⟩ := head_of_errors_eq_nil hclean hss
        obtain ⟨-, -, heof, hends⟩ := Kind.startsStatement_ne hstarts
        have hmem : s.relocate f ∈ (parse source' file options).program.statements :=
          hkept.subset (List.mem_map_of_mem (hss ▸ List.mem_cons_self))
        have hahead := Parser.ahead_of_current heof
        refine absurd ?_ (hne hlen _ _ hahead hends _ hmem)
        rw [Stmt.token_relocate, htoken]
    · rw [h.resolve_left Bool.noConfusion]
      exact List.nil_suffix

end

/--
Whatever the text `w` in a block is, unless it has braces of its own: where the block alone is not
told to miss its brace, the statements behind it are read as in a source of their own; otherwise the
block swallows statements that should have been kept.
-/
theorem statements_behind_block {w : String} {file : Option String}
    (hw : ∀ t ∈ tokenize w file, t.kind ≠ .openCurly ∧ t.kind ≠ .closeCurly) (b : String)
    (options : Options) :
    let front := "if (x) \x7b " ++ w ++ " \x7d;"
    let block := parse ("if (x) \x7b " ++ w ++ " \x7d") file options
    let whole := parse (front ++ b) file options
    let behind := (parse b file options).program.statements.map
      (Stmt.relocate (.shift front.utf8ByteSize))
    (block.missesBrace = false → ∃ s, whole.program.statements = s :: behind) ∧
      ((parse b file options).errors = [] → (front ++ b).utf8ByteSize ≤ Position.maxOffset →
        (behind <:+ whole.program.statements ↔ block.missesBrace = false ∨ behind = [])) := by
  obtain ⟨B, hblock, hfront⟩ := exists_blockTokens hw
  generalize "if (x) \x7b " ++ w ++ " \x7d" = source at *
  generalize "if (x) \x7b " ++ w ++ " \x7d;" = front at *
  have hjoin (t : Token) (ht : (tokenize front file).dropLast.getLast? = some t) :
      ∀ c ∈ b.toList.head?, t.kind.joins c = false := by
    rw [hfront] at ht
    have hlast : B.semicolon = t := by simpa using ht
    rw [← hlast, B.kind_semicolon]
    exact fun _ _ => rfl
  have htokens := tokenize_append hjoin
  rw [hfront] at htokens
  exact suffix_iff_of_blockTokens options hblock htokens

/-- A failed `return` in a block takes the statement behind the block into it. -/
theorem statements_behind_block_return :
    (∀ t ∈ tokenize "return" none, t.kind ≠ .openCurly ∧ t.kind ≠ .closeCurly) ∧
      (parse "7" none {}).errors = [] ∧
      (parse "if (x) \x7b return \x7d" none {}).missesBrace = true ∧
      ¬ (parse "7" none {}).program.statements.map (Stmt.relocate (.shift 18)) <:+
        (parse "if (x) \x7b return \x7d;7" none {}).program.statements := by
  have hw : ∀ t ∈ tokenize "return" none, t.kind ≠ .openCurly ∧ t.kind ≠ .closeCurly := by
    decide +kernel
  have hclean : (parse "7" none {}).errors = [] := by decide +kernel
  have hmisses : (parse "if (x) \x7b return \x7d" none {}).missesBrace = true := by
    decide +kernel
  have hlength : (parse "7" none {}).program.statements.length = 1 := by decide +kernel
  refine ⟨hw, hclean, hmisses, fun hkept => ?_⟩
  obtain ⟨-, hiff⟩ := statements_behind_block hw "7" {}
  rcases (hiff hclean (by decide)).1 hkept with hclosed | hnil
  · exact nomatch hmisses.symm.trans hclosed
  · rw [List.map_eq_nil_iff.1 hnil] at hlength
    cases hlength

end ExprLang
