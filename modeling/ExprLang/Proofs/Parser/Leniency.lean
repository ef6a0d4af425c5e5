import ExprLang.Proofs.Parser.CleanRules
import ExprLang.Proofs.Parser.Coupling

/-!
# Required semicolons

A parse that requires semicolons and one that does not do the same up to the first semicolon that
is missing. `leniency` couples the two: they are related while none is missing, and have parted when
the first run has recorded one. Main statement (`parse_lenient`): without such an error both parses
give the same, and else the errors recorded before it are the first ones of the lenient parse.
-/

set_option autoImplicit false

namespace ExprLang

open Step

/-- The error says that a semicolon is missing. -/
def Diagnostic.missesSemicolon (d : Diagnostic) : Bool := d.fault.missesSemicolon

/-- A parser that requires semicolons has missed none, and one that does not is as far. -/
structure Parser.Complete (p q : Parser) : Prop where
  stream : q.stream = p.stream
  strict : p.options.requireSemicolons = true
  lenient : q.options.requireSemicolons = false
  depth : q.depth = p.depth
  recorded : q.recorded = p.recorded
  misses_none : ∀ d ∈ p.recorded, d.missesSemicolon = false

/-- The first parser has missed a semicolon, and the second one has recorded all errors before. -/
def Parser.Incomplete (p q : Parser) : Prop :=
  ∃ d ds, d.missesSemicolon = true ∧ (∀ e ∈ ds, e.missesSemicolon = false) ∧
    d :: ds <:+ p.recorded ∧ ds <:+ q.recorded

/-- A parse that requires semicolons, and one that does not. -/
def leniency : Coupling where
  related := Parser.Complete
  parted := Parser.Incomplete

variable {p q p' q' : Parser}

namespace Parser

theorem Complete.current (h : p.Complete q) : q.current = p.current :=
  congrArg TokenStream.current h.stream

theorem Complete.peek (h : p.Complete q) : q.peek = p.peek := congrArg TokenStream.peek h.stream

theorem Complete.advance (h : p.Complete q) : p.advance.Complete q.advance :=
  { h with stream := congrArg TokenStream.advance h.stream }

theorem Complete.recordAt {fault : Fault} (position : Position)
    (hf : fault.missesSemicolon = false) (h : p.Complete q) :
    (p.recordAt fault position).Complete (q.recordAt fault position) :=
  { h with
    recorded := congrArg (_ :: ·) h.recorded
    misses_none := List.forall_mem_cons.2 ⟨hf, h.misses_none⟩ }

theorem Incomplete.mono (h : p.Incomplete q) (hp : p.recorded <:+ p'.recorded)
    (hq : q.recorded <:+ q'.recorded) : p'.Incomplete q' := by
  obtain ⟨d, ds, hd, hds, hfirst, hsecond⟩ := h
  exact ⟨d, ds, hd, hds, hfirst.trans hp, hsecond.trans hq⟩

/-- The one place where the runs do different things. -/
theorem Complete.agrees_terminator (h : p.Complete q) :
    leniency.Agrees (Rule.terminator p) (Rule.terminator q) := by
  have hp : Rule.terminator p = expect .semicolon p :=
    congrArg (· p) (if_pos h.strict : _ = expect .semicolon)
  have hq : Rule.terminator q = update (skip .semicolon) q :=
    congrArg (· q) (if_neg (by simp [h.lenient]) : _ = update (skip .semicolon))
  rw [hp, hq, expect, update, skip, h.peek]
  by_cases hk : p.peek.kind = .semicolon
  · rw [if_pos hk, if_pos hk]
    exact .inl ⟨rfl, h.advance⟩
  · rw [if_neg hk, if_neg hk]
    exact .inr ⟨⟨_, p.peek.span.start⟩, p.recorded, rfl, h.misses_none, List.suffix_refl _,
      h.recorded ▸ List.suffix_refl _⟩

end Parser

theorem lawful_leniency : leniency.Lawful where
  current h := h.current
  peek h := h.peek
  depth h := h.depth
  withDepth _ h := { h with depth := rfl }
  recordAt position hf h := h.recordAt position hf
  advance h := .inl h.advance
  terminator h := h.agrees_terminator
  parted h hp hq := h.mono hp.recorded hq.recorded
  parted_leave h := h.mono (List.suffix_refl _) (List.suffix_refl _)

variable {source : String} {file : Option String}

/--
The two parses are the same, or both have the errors that stand before the first missing semicolon.
-/
theorem parse_agrees (source : String) (file : Option String) :
    parse source file ⟨false⟩ = parse source file ⟨true⟩ ∨
      ∃ before d after, (parse source file ⟨true⟩).errors = before ++ d :: after ∧
        d.missesSemicolon = true ∧ (∀ e ∈ before, e.missesSemicolon = false) ∧
        before <+: (parse source file ⟨false⟩).errors := by
  have hopened : (Parser.opened source file ⟨true⟩).Complete (.opened source file ⟨false⟩) :=
    ⟨rfl, rfl, rfl, rfl, rfl, fun _ hd => absurd hd List.not_mem_nil⟩
  have hagrees := (lawful_leniency.coupled_program fun _ h => { h with }).agrees hopened
  rw [parse_eq_collectAll, parse_eq_collectAll]
  dsimp only [always] at hagrees
  generalize collectAll (· == .eof) Parser.loggedStatement (.opened source file ⟨true⟩) = r,
    collectAll (· == .eof) Parser.loggedStatement (.opened source file ⟨false⟩) = s at hagrees ⊢
  rcases hagrees with ⟨hss, hend⟩ | ⟨d, ds, hd, hds, ⟨newer, hstrict⟩, hlenient⟩
  · rw [Option.some.inj hss, Parser.errors, hend.recorded, Parser.errors]
    exact .inl rfl
  · refine .inr ⟨ds.reverse, d, newer.reverse, ?_, hd, fun e he => hds e (List.mem_reverse.1 he),
      List.reverse_prefix.2 hlenient⟩
    simpa [Parser.errors] using congrArg List.reverse hstrict.symm

/--
The lenient parse has the errors that the strict one has before its first missing semicolon, and is
the same parse if it misses none.
-/
theorem parse_lenient (source : String) (file : Option String) :
    ((parse source file ⟨true⟩).errors.takeWhile fun d => !d.missesSemicolon) <+:
        (parse source file ⟨false⟩).errors ∧
      ((∀ d ∈ (parse source file ⟨true⟩).errors, d.missesSemicolon = false) →
        parse source file ⟨false⟩ = parse source file ⟨true⟩) ∧
      ∀ program, (parse source file ⟨true⟩).toExcept = .ok program →
        (parse source file ⟨false⟩).toExcept = .ok program := by
  have hsame (h : ∀ d ∈ (parse source file ⟨true⟩).errors, d.missesSemicolon = false) :
      parse source file ⟨false⟩ = parse source file ⟨true⟩ := by
    rcases parse_agrees source file with hsame | ⟨before, d, after, herrors, hd, -⟩
    · exact hsame
    · exact absurd (h d (by simp [herrors])) (by simp [hd])
  refine ⟨?_, hsame, fun program h => ?_⟩
  · rcases parse_agrees source file with hsame | ⟨before, d, after, herrors, hd, hbefore, hlenient⟩
    · rw [hsame]
      exact List.takeWhile_prefix _
    · rwa [herrors, List.takeWhile_append_of_pos (by simpa using hbefore),
        List.takeWhile_cons_of_neg (by simp [hd]), List.append_nil]
  · have hnil := (Outcome.toExcept_eq_ok_iff.1 h).1
    rwa [hsame (by simp [hnil])]

/-- An error and no missing semicolon, and then an error in front of one in a block. -/
theorem parse_lenient_block :
    let a := "let x 5; if (x) \x7b return x; \x7d"
    let b := "let x 5; if (x) \x7b return x \x7d ) let y = 2"
    (∀ d ∈ (parse a none ⟨true⟩).errors, d.missesSemicolon = false) ∧
      (parse a none ⟨true⟩).errors.length = 1 ∧
      parse a none ⟨false⟩ = parse a none ⟨true⟩ ∧
      (parse b none ⟨true⟩).errors.map Diagnostic.missesSemicolon = [false, true, false, true] ∧
      ((parse b none ⟨true⟩).errors.takeWhile fun d => !d.missesSemicolon) <+:
        (parse b none ⟨false⟩).errors := by
  intro a b
  have ha : ∀ d ∈ (parse a none ⟨true⟩).errors, d.missesSemicolon = false := by decide +kernel
  exact ⟨ha, by decide +kernel, (parse_lenient a none).2.1 ha, by decide +kernel,
    (parse_lenient b none).1⟩

end ExprLang
