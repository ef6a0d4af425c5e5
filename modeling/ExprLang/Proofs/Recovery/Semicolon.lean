import ExprLang.Proofs.Parser.Elsewhere
import ExprLang.Proofs.Parser.Segment

/-!
# Semicolons are synchronisation points

Whatever is wrong in front of a semicolon, the parse goes on behind it as at the start of a source,
unless a block is still open there. Main statement (`parse_append_of_semicolon`): if a source ends
in a semicolon, and either has no errors or no opening brace, then the parse of a longer source
gives what the parses of its two parts give. The first part is a segment that the two sources share,
and what is behind it is the second part at other places.
-/

set_option autoImplicit false

namespace ExprLang

open Step

/-- A source whose tokens end in those of another one has them ahead. -/
theorem opened_of_tokenize {source b : String} {file : Option String} {front : List Token}
    {f : Position → Position}
    (h : tokenize source file = front ++ (tokenize b file).map (Token.relocate f))
    (options : Options) :
    (Parser.opened source file options).ahead =
        front ++ (Parser.opened b file options).ahead.map (Token.relocate f) ∧
      (Parser.opened source file options).stream.final =
        (Parser.opened b file options).stream.final.relocate f := by
  have htok (source : String) : tokenize source file = (Parser.opened source file options).ahead ++
      [(Parser.opened source file options).stream.final] := rfl
  rw [htok source, htok b, List.map_append, ← List.append_assoc] at h
  obtain ⟨hahead, hfinal⟩ := List.append_inj' h rfl
  exact ⟨hahead, List.head_eq_of_cons_eq hfinal⟩

section
variable {a b : String} {file : Option String} {options : Options} {f : Position → Position}

/-- A parse that is not lost at the end of its source goes on with what is behind. -/
theorem parse_append_of_segment {S : Segment} {inside : List Token} (hbehind : S.behind = [])
    (hbehind' : S.behind' = (Parser.opened b file options).ahead.map (Token.relocate f))
    (hfinal : (Parser.opened (a ++ b) file options).stream.final =
      (Parser.opened b file options).stream.final.relocate f)
    (hshares : S.Shares inside (Parser.opened a file options).stream
      (Parser.opened (a ++ b) file options).stream)
    (hlost : S.blocks = true → (parse a file options).errors = []) :
    parse (a ++ b) file options =
      ⟨⟨(parse a file options).program.statements ++
          (parse b file options).program.statements.map (Stmt.relocate f)⟩,
        (parse a file options).errors ++
          (parse b file options).errors.map (Diagnostic.relocate f)⟩ := by
  have hstart : S.view.At S.view.here (Parser.opened a file options)
      (Parser.opened (a ++ b) file options) :=
    ⟨⟨inside, hshares⟩, rfl, rfl, rfl, fun _ h => nomatch h⟩
  cases S.ends_program hstart with
  | inside hend hk _ _ => exact absurd (eq_of_beq hk) (Segment.current_ne_eof hend)
  | @behind ss p q hpast _ hq hcp hcq =>
    have hstop : (p.current.kind == .eof) = true := beq_iff_eq.2
      (Parser.kind_current_of_ahead_nil (hpast.stream.first.trans hbehind))
    have hahead : q.ahead = (Parser.opened b file options).ahead.map (Token.relocate f) :=
      hpast.stream.second.trans hbehind'
    have hrecorded : q.recorded = p.recorded := hpast.recorded.1
    have ha : parse a file options = ⟨⟨ss⟩, p.errors⟩ := by
      rw [parse_eq_collectAll, hcp, collectAll_of_stop hstop, List.append_nil]
    obtain ⟨hss, herrors⟩ :=
      collectAll_elsewhere f hahead (hq.final.trans hfinal) hq.options hq.depth
    rw [parse_eq_collectAll (a ++ b), hcq, hss, herrors, ha, Parser.errors, Parser.errors,
      hrecorded]
  | lost hl =>
    obtain ⟨hb, d, hd, -⟩ := hl
    have hnil := hlost hb
    rw [parse_eq_collectAll] at hnil
    rw [List.reverse_eq_nil_iff.1 hnil] at hd
    cases hd

/-- The tokens of a source go on where a semicolon is its last one. -/
theorem exists_shares (hlen : a.utf8ByteSize + b.utf8ByteSize ≤ Position.maxOffset)
    (hlast : (tokenize a file).dropLast.getLast?.map Token.kind = some .semicolon) :
    ∃ inside last, last.kind = .semicolon ∧ (tokenize a file).dropLast = inside ++ [last] ∧
      tokenize (a ++ b) file = (inside ++ [last]) ++
        (tokenize b file).map (Token.relocate (.add a.utf8ByteSize)) := by
  obtain ⟨last, hlast, hkind⟩ := Option.map_eq_some_iff.1 hlast
  have hjoin (t : Token) (ht : (tokenize a file).dropLast.getLast? = some t) :
      ∀ c ∈ b.toList.head?, t.kind.joins c = false := by
    rw [hlast] at ht
    obtain rfl := Option.some.inj ht
    rw [hkind]
    exact fun _ _ => rfl
  obtain ⟨inside, hinside⟩ := List.getLast?_eq_some_iff.1 hlast
  refine ⟨inside, last, hkind, hinside, ?_⟩
  rw [tokenize_append_of_le hjoin hlen, hinside]

end

/--
What is behind a semicolon is parsed as if it were a source of its own, if all is well in front of
the semicolon or no block is opened there.
-/
theorem parse_append_of_semicolon {a b : String} {file : Option String} {options : Options}
    (hlen : a.utf8ByteSize + b.utf8ByteSize ≤ Position.maxOffset)
    (hlast : (tokenize a file).dropLast.getLast?.map Token.kind = some .semicolon)
    (ha : (parse a file options).errors = [] ∨ ∀ t ∈ tokenize a file, t.kind ≠ .openCurly) :
    parse (a ++ b) file options =
      ⟨⟨(parse a file options).program.statements ++
          (parse b file options).program.statements.map (Stmt.relocate (.add a.utf8ByteSize))⟩,
        (parse a file options).errors ++
          (parse b file options).errors.map (Diagnostic.relocate (.add a.utf8ByteSize))⟩ := by
  obtain ⟨inside, last, hkind, hinside, htokens⟩ := exists_shares hlen hlast
  have hfirst : (Parser.opened a file options).ahead = inside ++ [last] := by
    rw [← dropLast_tokenize, hinside]
  obtain ⟨hahead, hfinal⟩ := opened_of_tokenize htokens options
  rw [List.append_assoc, List.singleton_append] at hahead
  have hends : last.kind.endsStatement = true := by rw [hkind]; rfl
  let behind := (Parser.opened b file options).ahead.map (Token.relocate (.add a.utf8ByteSize))
  rcases ha with herrors | hbraces
  · let S : Segment := ⟨last, [], behind, true, hends, fun _ => ⟨hkind, rfl⟩⟩
    have hshares : S.Shares inside (Parser.opened a file options).stream
        (Parser.opened (a ++ b) file options).stream := ⟨hfirst, hahead, fun h => nomatch h⟩
    exact parse_append_of_segment rfl rfl hfinal hshares fun _ => herrors
  · let S : Segment := ⟨last, [], behind, false, hends, fun h => nomatch h⟩
    have hshares : S.Shares inside (Parser.opened a file options).stream
        (Parser.opened (a ++ b) file options).stream := by
      refine ⟨hfirst, hahead, fun _ t ht => hbraces t ((List.dropLast_sublist _).subset ?_)⟩
      rw [hinside]
      exact List.mem_append_left _ ht
    exact parse_append_of_segment rfl rfl hfinal hshares fun h => nomatch h

/-- A binding without a name, a stray parenthesis and a stray character, and what is behind them. -/
theorem parse_append_of_semicolon_stray :
    ("let 5; ) @;".utf8ByteSize + " if (x) { y } )".utf8ByteSize ≤ Position.maxOffset ∧
      (tokenize "let 5; ) @;" none).dropLast.getLast?.map Token.kind = some .semicolon ∧
      (∀ t ∈ tokenize "let 5; ) @;" none, t.kind ≠ .openCurly)) ∧
    (parse "let 5; ) @;" none {}).errors.length = 4 ∧
    parse ("let 5; ) @;" ++ " if (x) { y } )") none {} =
      ⟨⟨(parse "let 5; ) @;" none {}).program.statements ++
          (parse " if (x) { y } )" none {}).program.statements.map (Stmt.relocate (.add 11))⟩,
        (parse "let 5; ) @;" none {}).errors ++
          (parse " if (x) { y } )" none {}).errors.map (Diagnostic.relocate (.add 11))⟩ := by
  have hlen : "let 5; ) @;".utf8ByteSize + " if (x) { y } )".utf8ByteSize ≤ Position.maxOffset := by
    decide
  have hlast : (tokenize "let 5; ) @;" none).dropLast.getLast?.map Token.kind =
      some .semicolon := by decide +kernel
  have hbraces : ∀ t ∈ tokenize "let 5; ) @;" none, t.kind ≠ .openCurly := by decide +kernel
  exact ⟨⟨hlen, hlast, hbraces⟩, by decide +kernel,
    parse_append_of_semicolon hlen hlast (.inr hbraces)⟩

end ExprLang
