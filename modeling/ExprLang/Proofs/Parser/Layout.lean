import ExprLang.Proofs.Diagnostic.Description
import ExprLang.Proofs.Parser.Elsewhere
import Mathlib.Data.List.Forall2

/-!
# Layout and the names of sources

What is parsed depends on the kinds and the spellings of the tokens, and not on where they stand.
The places of two sources need not correspond: behind the largest offset all places are the same.
So both sources are compared with a stream of the same tokens in which the place of a token is its
number (`TokenStream.numbered`), and each has the tokens of that stream at other places. Main
statement (`parse_of_bare_eq`): sources with the same tokens give the same program up to places, and
the same errors at the tokens of the same numbers.
-/

set_option autoImplicit false

namespace ExprLang

open Step

/-! ## Numbered tokens -/

/-- The token at a place that stands for its number. -/
def Token.numbered (n : Nat) (t : Token) : Token :=
  { t with span := ⟨⟨2 * n, ""⟩, ⟨2 * n + 1, ""⟩⟩ }

/-- The place in a list of tokens that a place of a numbered token stands for. -/
def Position.within (tokens : List Token) (p : Position) : Position :=
  let span := (tokens.getD (p.offset / 2) default).span
  if p.offset % 2 = 0 then span.start else span.stop

theorem Token.relocate_numbered {tokens : List Token} {n : Nat} {t : Token}
    (h : tokens[n]? = some t) : (t.numbered n).relocate (.within tokens) = t := by
  have hstart : 2 * n / 2 = n ∧ 2 * n % 2 = 0 := by omega
  have hstop : (2 * n + 1) / 2 = n ∧ (2 * n + 1) % 2 = 1 := by omega
  simp [relocate, numbered, Span.relocate, Position.within, hstart, hstop, List.getD, h]

namespace TokenStream

/-- The stream of the same tokens, each at a place that stands for its number. -/
def numbered (s : TokenStream) : TokenStream where
  ahead := s.ahead.mapIdx Token.numbered
  final := s.final.numbered s.ahead.length
  ahead_ne_eof t ht := by
    obtain ⟨i, hi, rfl⟩ := List.mem_mapIdx.1 ht
    show s.ahead[i].kind ≠ .eof
    exact s.ahead_ne_eof _ (List.getElem_mem hi)
  final_eq_eof := s.final_eq_eof

theorem elsewhere_numbered (s : TokenStream) : s.numbered.Elsewhere (.within s.toList) s where
  ahead := by
    refine List.ext_getElem (by simp [numbered]) fun i hi _ => ?_
    have htoken : s.toList[i]? = some s.ahead[i] := by
      rw [toList, List.getElem?_append_left hi, List.getElem?_eq_getElem hi]
    simp [numbered, Token.relocate_numbered htoken]
  final := by
    have htoken : s.toList[s.ahead.length]? = some s.final := by simp [toList]
    exact (Token.relocate_numbered htoken).symm

theorem ahead_numbered (s : TokenStream) :
    s.numbered.ahead = (s.ahead.map Token.bare).mapIdx Token.numbered :=
  List.ext_getElem (by simp [numbered]) fun i _ _ => by
    simp [numbered, Token.numbered, Token.bare]

theorem final_numbered (s : TokenStream) :
    s.numbered.final = s.final.bare.numbered (s.ahead.map Token.bare).length := by
  simp [numbered, Token.numbered, Token.bare]

/-- A numbered stream shows nothing of the places that its tokens had. -/
theorem numbered_eq {s t : TokenStream} (h : s.toList.map Token.bare = t.toList.map Token.bare) :
    s.numbered = t.numbered := by
  simp only [toList, List.map_append, List.map_cons, List.map_nil] at h
  obtain ⟨hahead, hfinal⟩ := List.append_inj' h rfl
  have hahead' : s.numbered.ahead = t.numbered.ahead := by
    rw [ahead_numbered, hahead, ahead_numbered]
  have hfinal' : s.numbered.final = t.numbered.final := by
    rw [final_numbered, hahead, List.head_eq_of_cons_eq hfinal, final_numbered]
  rw [mk.injEq]
  exact ⟨hahead', hfinal'⟩

theorem exists_of_mem_numbered {s : TokenStream} {t : Token} (h : t ∈ s.numbered.toList) :
    ∃ i < s.toList.length, t.span.start = ⟨2 * i, ""⟩ := by
  rcases List.mem_append.1 h with h | h
  · obtain ⟨i, hi, rfl⟩ := List.mem_mapIdx.1 h
    exact ⟨i, by simp [toList]; omega, rfl⟩
  · rw [List.mem_singleton.1 h]
    exact ⟨s.ahead.length, by simp [toList], rfl⟩

end TokenStream

/-! ## Errors stand at tokens -/

/-- All that is recorded stands at the start of one of the tokens, some of which are ahead. -/
structure Pointed (tokens : List Token) (p : Parser) : Prop where
  stream : p.stream.toList <:+ tokens
  recorded : ∀ d ∈ p.recorded, ∃ t ∈ tokens, d.position = t.span.start

namespace Pointed

variable {tokens : List Token} {p : Parser}

theorem advance (h : Pointed tokens p) : Pointed tokens p.advance :=
  ⟨p.stream.toList_advance_suffix.trans h.stream, h.recorded⟩

theorem recordAt (h : Pointed tokens p) {t : Token} (ht : t ∈ tokens) (fault : Fault) :
    Pointed tokens (p.recordAt fault t.span.start) :=
  ⟨h.stream, List.forall_mem_cons.2 ⟨⟨t, ht, rfl⟩, h.recorded⟩⟩

theorem record (h : Pointed tokens p) (fault : Fault) : Pointed tokens (p.record fault) :=
  h.recordAt (TokenStream.current_mem h.stream) fault

theorem move {c d : Cursor} (h : c.Move d) (hc : Pointed tokens c.parser) :
    Pointed tokens d.parser := by
  cases h with
  | note | take | closeBlock => exact ⟨hc.stream, hc.recorded⟩
  | advance | resume => exact hc.advance
  | openBlock => exact hc.advance.advance
  | number | reject | unclosed => exact hc.record _
  | parameter => exact hc.advance.record _
  | unexpected => exact hc.recordAt (TokenStream.current_mem hc.advance.stream) _

end Pointed

/-- The errors of a run over any stream stand at tokens of the stream. -/
theorem exists_token_of_mem_errors {stream : TokenStream} {options : Options} {d : Diagnostic}
    (h : d ∈ (collectAll (· == .eof) Parser.loggedStatement (.start stream options)).2.errors) :
    ∃ t ∈ stream.toList, d.position = t.span.start := by
  obtain ⟨hleads, -⟩ := leads_collectAll (.start stream options) (· == .eof)
    Parser.steady_loggedStatement rfl Parser.moves_loggedStatement 0
  have hstart : Pointed stream.toList (.start stream options) :=
    ⟨List.suffix_refl _, fun _ hd => absurd hd List.not_mem_nil⟩
  have hend := hleads.keeps (I := fun c => Pointed stream.toList c.parser) Pointed.move hstart
  exact hend.recorded d (List.mem_reverse.1 h)

/-! ## Sources with the same tokens -/

/-- The program with the places of its tokens left out. -/
def Program.unplaced (p : Program) : Program :=
  ⟨mapTokensBody Token.bare Token.bare p.statements⟩

theorem Program.render_unplaced (p : Program) : p.unplaced.render = p.render :=
  renderLines_mapTokens (f := Token.bare) (fun _ => rfl) p.statements

theorem unplaced_relocate (ss : List Stmt) (f : Position → Position) :
    mapTokensBody Token.bare Token.bare (ss.map (Stmt.relocate f)) =
      mapTokensBody Token.bare Token.bare ss := by
  have hbody : ss.map (Stmt.relocate f) = mapTokensBody (.relocate f) (.relocate f) ss :=
    (mapTokensBody_eq_map _ _ ss).symm
  rw [hbody, mapTokensBody_mapTokensBody]
  rfl

/-- A parse is that of the numbered stream, seen at the places of the source. -/
theorem parse_eq_numbered (source : String) (file : Option String) (options : Options) :
    let run := collectAll (· == .eof) Parser.loggedStatement
      (.start (TokenStream.ofSource source (file.getD defaultFile)).numbered options)
    (parse source file options).program.statements =
        run.1.map (Stmt.relocate (.within (tokenize source file))) ∧
      (parse source file options).errors =
        run.2.errors.map (Diagnostic.relocate (.within (tokenize source file))) := by
  intro run
  let v := View.elsewhere (.within (tokenize source file)) []
  have hstart : v.At v.here
      (.start (TokenStream.ofSource source (file.getD defaultFile)).numbered options)
      (.opened source file options) :=
    ⟨TokenStream.elsewhere_numbered _, rfl, rfl, rfl⟩
  obtain ⟨hss, hend⟩ := View.agrees_collectAll (· == .eof) TokenStream.Elsewhere.current_eq
    TokenStream.Elsewhere.advance (fun _ h => h) Parser.steady_loggedStatement rfl
    (View.lawful_elsewhere _ []).agrees_loggedStatement hstart
  have hrecorded : (collectAll (· == .eof) Parser.loggedStatement
      (.opened source file options)).2.recorded = run.2.recorded.map (Diagnostic.relocate _) ++ [] :=
    hend.recorded
  rw [parse_eq_collectAll]
  refine ⟨hss, ?_⟩
  rw [Parser.errors, Parser.errors, hrecorded, List.append_nil, List.map_reverse]

/-- The errors have the same fault, and stand at tokens of the same number. -/
def Diagnostic.Corresponds (tokens tokens' : List Token) (d e : Diagnostic) : Prop :=
  d.fault = e.fault ∧ ∃ (i : Nat) (t t' : Token), tokens[i]? = some t ∧ tokens'[i]? = some t' ∧
    d.position = t.span.start ∧ e.position = t'.span.start

theorem Position.exists_within {tokens : List Token} {i : Nat} (h : i < tokens.length) :
    ∃ t, tokens[i]? = some t ∧ within tokens ⟨2 * i, ""⟩ = t.span.start := by
  have hi : 2 * i / 2 = i ∧ 2 * i % 2 = 0 := by omega
  exact ⟨tokens[i], by simp [h], by simp [within, hi, List.getD, h]⟩

/--
Sources whose tokens have the same kinds and spellings give the same program up to places, with the
same canonical text, and the same errors at the tokens of the same numbers.
-/
theorem parse_of_bare_eq {a b : String} {file file' : Option String} (options : Options)
    (h : (tokenize a file).map Token.bare = (tokenize b file').map Token.bare) :
    (parse a file options).program.unplaced = (parse b file' options).program.unplaced ∧
      (parse a file options).program.render = (parse b file' options).program.render ∧
      List.Forall₂ (Diagnostic.Corresponds (tokenize a file) (tokenize b file'))
        (parse a file options).errors (parse b file' options).errors := by
  obtain ⟨hss, herrors⟩ := parse_eq_numbered a file options
  obtain ⟨hss', herrors'⟩ := parse_eq_numbered b file' options
  have hlength : (tokenize a file).length = (tokenize b file').length := by
    simpa using congrArg List.length h
  rw [← TokenStream.numbered_eq h] at hss' herrors'
  have hprogram : (parse a file options).program.unplaced =
      (parse b file' options).program.unplaced := by
    rw [Program.unplaced, Program.unplaced, hss, hss', unplaced_relocate, unplaced_relocate]
  refine ⟨hprogram, ?_, ?_⟩
  · rw [← Program.render_unplaced, hprogram, Program.render_unplaced]
  · rw [herrors, herrors', List.forall₂_map_left_iff, List.forall₂_map_right_iff,
      List.forall₂_same]
    intro d hd
    obtain ⟨t, ht, hposition⟩ := exists_token_of_mem_errors hd
    obtain ⟨i, hi, hstart⟩ := TokenStream.exists_of_mem_numbered ht
    have hi : i < (tokenize a file).length := hi
    obtain ⟨u, hu, hplace⟩ := Position.exists_within hi
    obtain ⟨u', hu', hplace'⟩ := Position.exists_within (hlength ▸ hi)
    rw [hstart] at hposition
    refine ⟨rfl, i, u, u', hu, hu', ?_, ?_⟩
    · rw [← hplace, ← hposition]
      rfl
    · rw [← hplace', ← hposition]
      rfl

/-- Three errors, one of them in a block, and the same tokens on other lines of another file. -/
theorem parse_of_bare_eq_lines :
    let a := "let x 5; @ fn(a, b) \x7b -y; 9223372036854775808 \x7d"
    let b := "let x\n5;@\r\nfn ( a,b )\x7b-y;\t9223372036854775808\x7d"
    (tokenize a none).map Token.bare = (tokenize b (some "lines")).map Token.bare ∧
      (parse a none ⟨true⟩).errors.length = 3 ∧
      (parse a none ⟨true⟩).program.unplaced = (parse b (some "lines") ⟨true⟩).program.unplaced ∧
      (parse a none ⟨true⟩).program.render = (parse b (some "lines") ⟨true⟩).program.render ∧
      List.Forall₂ (Diagnostic.Corresponds (tokenize a none) (tokenize b (some "lines")))
        (parse a none ⟨true⟩).errors (parse b (some "lines") ⟨true⟩).errors := by
  intro a b
  have h : (tokenize a none).map Token.bare = (tokenize b (some "lines")).map Token.bare := by
    decide +kernel
  exact ⟨h, by decide +kernel, parse_of_bare_eq ⟨true⟩ h⟩

end ExprLang
