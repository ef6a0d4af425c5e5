import ExprLang.Proofs.Grammar.WellFormed
import ExprLang.Proofs.Rendering.Reading

/-!
# Parsing a canonical text

The canonical text of a well-formed program is read without errors if no statement needs more
levels of nesting than there are (`errors_parse_render_iff`). A settled program is then read back as
it is, up to the places of its tokens (`parse_render`). One that is not settled comes back with a
text of fewer blanks, so a source that is read without errors has a canonical text that stands for
itself exactly if its program is settled and fits (`reparses_iff`).
-/

set_option autoImplicit false

namespace ExprLang

open Step ExprLang.Parser

/-- Whether the canonical text is read without errors, as a program with this canonical text. -/
def Program.Reparses (P : Program) (file : Option String) (options : Options) : Prop :=
  (parse P.render file options).errors = [] ∧
    (parse P.render file options).program.render = P.render

/-! ## Programs that are read back -/

theorem Program.blanks_render (P : Program) :
    Text.blanks P.render = Text.blanks (renderBody P.statements) := blanks_renderLines _

theorem RereadsBody.erased_eq {P Q : Program} (h : RereadsBody P.statements Q.statements)
    (hset : P.isSettled = true) : Q.erased = P.erased := by
  rcases h with ⟨-, herased, -⟩ | ⟨hset', -⟩
  · exact congrArg Program.mk herased
  · rw [Program.isSettled, hset'] at hset
    exact absurd hset Bool.false_ne_true

theorem RereadsBody.render_eq_iff {P Q : Program} (h : RereadsBody P.statements Q.statements) :
    Q.render = P.render ↔ P.isSettled = true := by
  constructor
  · intro hrender
    have hblanks := congrArg Text.blanks hrender
    rw [Program.blanks_render, Program.blanks_render] at hblanks
    rcases h with ⟨hset, -, -⟩ | ⟨-, hlt⟩
    · exact hset
    · omega
  · intro hset
    rw [← Program.render_erased, h.erased_eq hset, Program.render_erased]

/-! ## Clean runs -/

variable {P : Program} {source : String} {file : Option String} {options : Options}

/-- A parse without errors is the clean run of the loop over statements. -/
theorem errors_eq_nil_iff : (parse source file options).errors = [] ↔
    ∃ q, (collected (· == .eof) loggedStatement).Clean (.opened source file options)
      (parse source file options).program.statements q := by
  have hclean (ss : List Stmt) : parse source file options = ⟨⟨ss⟩, []⟩ ↔
      ∃ q, (collected (· == .eof) loggedStatement).Clean (.opened source file options) ss q :=
    parse_eq_iff.trans <| exists_congr fun _ =>
      (clean_collected_iff steady_loggedStatement rfl).symm
  rw [← hclean]
  constructor
  · intro h
    rw [← h]
  · intro h
    rw [h]

/-! ## Well-formed programs -/

section
variable (h : P.isWellFormed = true)
include h

theorem errors_parse_render_iff :
    (parse P.render file options).errors = [] ↔ ∀ s ∈ P.statements, s.need ≤ maxNestingDepth := by
  have hexact := exact_opened h file options
  rw [← needBody_le_iff, ← hexact.runs, errors_eq_nil_iff]
  constructor
  · rintro ⟨q, hq⟩
    exact ⟨_, q, hq⟩
  · rintro ⟨rs, q, hq⟩
    have hparse : parse P.render file options = ⟨⟨rs⟩, []⟩ :=
      parse_eq_iff.2 ⟨q, (clean_collected_iff steady_loggedStatement rfl).1 hq⟩
    rw [hparse]
    exact ⟨q, hq⟩

theorem rereadsBody_parse_render (herrors : (parse P.render file options).errors = []) :
    RereadsBody P.statements (parse P.render file options).program.statements := by
  obtain ⟨q, hq⟩ := errors_eq_nil_iff.1 herrors
  exact (exact_opened h file options).ends hq

theorem reparses_iff_of_isWellFormed : P.Reparses file options ↔
    P.isSettled = true ∧ ∀ s ∈ P.statements, s.need ≤ maxNestingDepth := by
  rw [Program.Reparses, errors_parse_render_iff h, and_comm]
  refine and_congr_left fun hneed => ?_
  exact (rereadsBody_parse_render h ((errors_parse_render_iff h).2 hneed)).render_eq_iff

/--
A settled program is read back from its canonical text, under either choice about semicolons, if no
statement needs more levels than there are, and otherwise there are errors.
-/
theorem parse_render (hset : P.isSettled = true) (file : Option String) (options : Options) :
    ((parse P.render file options).errors = [] ↔
        ∀ s ∈ P.statements, s.need ≤ maxNestingDepth) ∧
      ((parse P.render file options).errors = [] →
        (parse P.render file options).program.erased = P.erased) := by
  refine ⟨errors_parse_render_iff h, fun herrors => ?_⟩
  exact (rereadsBody_parse_render h herrors).erased_eq hset

end

/-- A function, a call and a conditional, read back in a file that requires semicolons. -/
theorem parse_render_function :
    let P := (parse "let f = fn(a) { -a * (2 + a) }; if (f(1) < 2) { f }" none {}).program
    P.isWellFormed = true ∧ P.isSettled = true ∧
      (parse P.render (some "again") ⟨true⟩).errors = [] ∧
      (parse P.render (some "again") ⟨true⟩).program.erased = P.erased := by
  intro P
  have hwf : P.isWellFormed = true := by decide +kernel
  have hset : P.isSettled = true := by decide +kernel
  have hneed : ∀ s ∈ P.statements, s.need ≤ maxNestingDepth := by decide +kernel
  obtain ⟨hiff, herased⟩ := parse_render hwf hset (some "again") ⟨true⟩
  exact ⟨hwf, hset, hiff.2 hneed, herased (hiff.2 hneed)⟩

/-! ## Sources -/

theorem isWellFormed_program_of_errors (h : (parse source file options).errors = []) :
    (parse source file options).program.isWellFormed = true := by
  obtain ⟨q, hq⟩ := errors_eq_nil_iff.1 h
  have hcollected := (clean_collected_iff steady_loggedStatement rfl).1 hq
  exact Grammar.isWellFormedBody_of_collected hcollected

/--
The canonical text of a source without errors is read without errors, as a program with the same
text, exactly if no statement runs into the next one and none needs more levels than there are.
-/
theorem reparses_iff (h : (parse source file options).errors = []) :
    (parse source file options).program.Reparses file options ↔
      (parse source file options).program.isSettled = true ∧
        ∀ s ∈ (parse source file options).program.statements, s.need ≤ maxNestingDepth :=
  reparses_iff_of_isWellFormed (isWellFormed_program_of_errors h)

/-- The statement `a` runs into `(!b)`, and the text of the two is read as a call. -/
theorem not_reparses_call :
    (parse "a!b" none {}).errors = [] ∧ ¬ (parse "a!b" none {}).program.Reparses none {} := by
  have h : (parse "a!b" none {}).errors = [] := by decide +kernel
  have hset : (parse "a!b" none {}).program.isSettled = false := by decide +kernel
  refine ⟨h, fun hreparses => ?_⟩
  have hset' := ((reparses_iff h).1 hreparses).1
  rw [hset] at hset'
  exact Bool.false_ne_true hset'

end ExprLang
