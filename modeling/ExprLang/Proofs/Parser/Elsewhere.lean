import ExprLang.Proofs.Parser.Lockstep

/-!
# The same tokens at other places

A parser that has the same tokens ahead as another one, only at other places, reads the same
statements and records the same errors, at those other places. What it has recorded before does not
matter. Main statement (`collectAll_elsewhere`): this holds of the parse of a whole source.
-/

set_option autoImplicit false

namespace ExprLang

open Step

/-- `t` has the tokens of `s`, at places moved by `f`. -/
structure TokenStream.Elsewhere (f : Position → Position) (s t : TokenStream) : Prop where
  ahead : t.ahead = s.ahead.map (Token.relocate f)
  final : t.final = s.final.relocate f

namespace TokenStream.Elsewhere

variable {f : Position → Position} {s t : TokenStream}

theorem current_eq (h : s.Elsewhere f t) : t.current = s.current.relocate f := by
  rw [current, current, h.ahead, h.final]
  cases s.ahead <;> rfl

theorem advance (h : s.Elsewhere f t) : s.advance.Elsewhere f t.advance := by
  refine ⟨?_, h.final⟩
  rw [ahead_advance, ahead_advance, h.ahead, List.map_tail]

end TokenStream.Elsewhere

namespace View

/-- The same tokens at places moved by `f`, with `earlier` errors on record in the second run. -/
def elsewhere (f : Position → Position) (earlier : List Diagnostic) : View where
  move := f
  here := TokenStream.Elsewhere f
  sees := TokenStream.Elsewhere f
  recorded ds es := es = ds.map (Diagnostic.relocate f) ++ earlier
  lost _ := False

section
variable {v : View} {α : Type} (stop : Kind → Bool) {step : Step α} {move : α → α} {p q : Parser}
  (hcurrent : ∀ {s t : TokenStream}, v.here s t → t.current = s.current.relocate v.move)
  (hadvance : ∀ {s t : TokenStream}, v.here s t → v.here s.advance t.advance)
  (hlost : ∀ ds, ¬ v.lost ds)
include hcurrent hadvance hlost

/-- Where tokens correspond up to the end, steps that agree one by one agree all together. -/
theorem agrees_collectAll (hs : step.Steady) (hstop : stop .eof = true)
    (hv : ∀ {p q : Parser}, v.At v.here p q → v.Agrees move v.here (step p) (step q))
    (h : v.At v.here p q) :
    (collectAll stop step q).1 = (collectAll stop step p).1.map move ∧
      v.At v.here (collectAll stop step p).2 (collectAll stop step q).2 := by
  have hkind {p q : Parser} (h : v.At v.here p q) : q.current.kind = p.current.kind := by
    have : q.current = p.current.relocate v.move := hcurrent h.stream
    rw [this, Token.kind_relocate]
  induction p using rounds_induction hs hstop generalizing q with
  | stopped p hc =>
    rw [collectAll_of_stop hc, collectAll_of_stop (by rwa [hkind h])]
    exact ⟨rfl, h⟩
  | round p hc ih =>
    have hround := hv h
    rw [collectAll_round hs hstop hc, collectAll_round hs hstop (by rwa [hkind h])]
    generalize step p = r, step q = s at hround ih
    cases hround with
    | @done p q a h =>
      have h : v.At v.here p.advance q.advance :=
        ⟨hadvance h.stream, h.options, h.depth, h.recorded⟩
      obtain ⟨hres, hend⟩ := ih h
      exact ⟨by rw [hres]; rfl, hend⟩
    | @failed p q h =>
      have h : v.At v.here p.advance q.advance :=
        ⟨hadvance h.stream, h.options, h.depth, h.recorded⟩
      exact ih h
    | lost h => exact absurd h (hlost _)

end

variable {f : Position → Position} {earlier : List Diagnostic}

theorem elsewhere_closeBlock {p q : Parser}
    (h : (elsewhere f earlier).At (elsewhere f earlier).here p q) :
    (elsewhere f earlier).At (elsewhere f earlier).here (Rule.closeBlock p)
      (Rule.closeBlock q) := by
  have hq : q.current = p.current.relocate f := h.stream.current_eq
  rw [Rule.closeBlock, Rule.closeBlock, hq]
  by_cases hk : p.current.kind = .eof
  · rw [if_pos hk, if_pos (show (p.current.relocate f).kind = .eof from hk)]
    refine ⟨h.stream, h.options, h.depth, ?_⟩
    have hr : q.recorded = p.recorded.map (Diagnostic.relocate f) ++ earlier := h.recorded
    change _ :: q.recorded = _
    rw [hr, Parser.position, hq]
    rfl
  · rw [if_neg hk, if_neg (show ¬ (p.current.relocate f).kind = .eof from hk)]
    exact h

theorem lawful_elsewhere (f : Position → Position) (earlier : List Diagnostic) :
    (elsewhere f earlier).Lawful where
  here_of_sees h := h
  sees_of_here h _ := h
  current h := h.current_eq
  peek h := h.advance.current_eq
  advance h := h.advance
  record h _ := congrArg (_ :: ·) h
  lost _ h := h
  block {nested p q} hs hv h _ := by
    have hq : q.current = p.current.relocate f := h.stream.current_eq
    have hin : (elsewhere f earlier).At (elsewhere f earlier).here p.advance q.advance :=
      ⟨h.stream.advance, h.options, h.depth, h.recorded⟩
    obtain ⟨hss, hend⟩ := agrees_collectAll Rule.endsBlock TokenStream.Elsewhere.current_eq
      TokenStream.Elsewhere.advance (fun _ h => h) (Rule.steady_statement hs) rfl hv hin
    rw [Rule.always_block, Rule.always_block, hss, hq]
    exact .pure (elsewhere_closeBlock hend) (Block.relocate_mk f _ _).symm

end View

/-- The statements up to the end of a source, read where its tokens are found at other places. -/
theorem collectAll_elsewhere {source : String} {file : Option String} {options : Options}
    {q : Parser} (f : Position → Position)
    (hahead : q.ahead = (Parser.opened source file options).ahead.map (Token.relocate f))
    (hfinal : q.stream.final = (Parser.opened source file options).stream.final.relocate f)
    (hoptions : q.options = options) (hdepth : q.depth = 0) :
    (collectAll (· == .eof) Parser.loggedStatement q).1 =
        (parse source file options).program.statements.map (Stmt.relocate f) ∧
      (collectAll (· == .eof) Parser.loggedStatement q).2.errors =
        q.errors ++ (parse source file options).errors.map (Diagnostic.relocate f) := by
  have hstart : (View.elsewhere f q.recorded).At (View.elsewhere f q.recorded).here
      (Parser.opened source file options) q := ⟨⟨hahead, hfinal⟩, hoptions, hdepth, rfl⟩
  obtain ⟨hss, hend⟩ := View.agrees_collectAll (· == .eof) TokenStream.Elsewhere.current_eq
    TokenStream.Elsewhere.advance (fun _ h => h) Parser.steady_loggedStatement rfl
    (View.lawful_elsewhere f q.recorded).agrees_loggedStatement hstart
  refine ⟨hss, ?_⟩
  rw [Parser.errors, hend.recorded, List.reverse_append, ← List.map_reverse]
  rfl

end ExprLang
