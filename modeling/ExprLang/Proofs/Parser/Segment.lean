import ExprLang.Proofs.Parser.Lockstep

/-!
# Sources that share a segment

Two parsers have the same tokens ahead up to and including a last one that may end a statement, and
other tokens behind it. Until they are past that token they do the same things (`Segment.ends`): no
step looks behind a semicolon or a closing brace. Only a block could look for its end there, so a
segment that ends in a closing brace must have no blocks in it. In a segment that ends in a
semicolon a block that is still open there has lost its way: the first run then says that a brace
is missing, since nothing else is behind the segment for it.
-/

set_option autoImplicit false

namespace ExprLang

open Step

/-- The tokens around the end of a segment that two sources share (module doc). -/
structure Segment where
  last : Token
  behind : List Token
  behind' : List Token
  /-- Whether there may be blocks in the segment. -/
  blocks : Bool
  endsStatement_last : last.kind.endsStatement = true
  of_blocks : blocks = true → last.kind = .semicolon ∧ behind = []

namespace Segment

variable {S : Segment} {inside : List Token} {s t : TokenStream} {p q : Parser}

section
variable (S)

/-- The tokens `inside`, and then the end of the segment. -/
structure Shares (inside : List Token) (s t : TokenStream) : Prop where
  first : s.ahead = inside ++ S.last :: S.behind
  second : t.ahead = inside ++ S.last :: S.behind'
  blocks : S.blocks = false → ∀ u ∈ inside, u.kind ≠ .openCurly

/-- Both streams are behind the segment. -/
structure Passed (s t : TokenStream) : Prop where
  first : s.ahead = S.behind
  second : t.ahead = S.behind'

/-- Runs correspond inside of the segment, unless one is lost in a block that has no end. -/
def view : View where
  move := id
  here s t := ∃ inside, S.Shares inside s t
  sees s t := ∃ u inside, S.Shares (u :: inside) s t
  recorded ds es := es = ds ∧ ∀ d ∈ ds, d.fault.missesBrace = false
  lost ds := S.blocks = true ∧ ∃ d ∈ ds, d.fault.missesBrace = true

end

namespace Shares

theorem current_first (h : S.Shares inside s t) : s.current = inside.headD S.last := by
  rw [TokenStream.current, h.first]
  cases inside <;> rfl

theorem current_second (h : S.Shares inside s t) : t.current = inside.headD S.last := by
  rw [TokenStream.current, h.second]
  cases inside <;> rfl

theorem advance {u : Token} (h : S.Shares (u :: inside) s t) :
    S.Shares inside s.advance t.advance where
  first := by rw [TokenStream.ahead_advance, h.first]; rfl
  second := by rw [TokenStream.ahead_advance, h.second]; rfl
  blocks hb u hu := h.blocks hb u (List.mem_cons_of_mem _ hu)

theorem passed (h : S.Shares [] s t) : S.Passed s.advance t.advance where
  first := by rw [TokenStream.ahead_advance, h.first]; rfl
  second := by rw [TokenStream.ahead_advance, h.second]; rfl

end Shares

/-! ## Inside of the segment -/

theorem advance_cases (h : S.view.At S.view.here p q) :
    S.view.At S.view.here p.advance q.advance ∨ S.view.At S.Passed p.advance q.advance := by
  obtain ⟨inside, hin⟩ := h.stream
  cases inside with
  | nil => exact .inr ⟨hin.passed, h.options, h.depth, h.recorded⟩
  | cons u inside => exact .inl ⟨⟨inside, hin.advance⟩, h.options, h.depth, h.recorded⟩

theorem current_eq (h : S.view.At S.view.here p q) : q.current = p.current := by
  obtain ⟨inside, hin⟩ := h.stream
  exact hin.current_second.trans hin.current_first.symm

theorem sees_of_ne (h : S.view.At S.view.here p q) (hk : p.current.kind ≠ S.last.kind) :
    S.view.At S.view.sees p q := by
  obtain ⟨inside, hin⟩ := h.stream
  cases inside with
  | nil => exact absurd (congrArg Token.kind hin.current_first) hk
  | cons u inside => exact ⟨⟨u, inside, hin⟩, h.options, h.depth, h.recorded⟩

theorem current_ne_eof (h : S.view.At S.view.here p q) : p.current.kind ≠ .eof := by
  obtain ⟨inside, hin⟩ := h.stream
  intro hk
  have hnil : p.stream.ahead = [] := TokenStream.kind_current_eq_eof_iff.1 hk
  rw [hin.first] at hnil
  cases inside <;> cases hnil

theorem lost_of_suffix {ds es : List Diagnostic} (h : ds <:+ es) (hl : S.view.lost ds) :
    S.view.lost es := by
  obtain ⟨hb, d, hd, hm⟩ := hl
  exact ⟨hb, d, h.subset hd, hm⟩

/-- A run that does not get lost does in both sources the same. -/
theorem agrees_cases {r r' : Option Stmt × Parser}
    (h : S.view.Agrees (Stmt.relocate id) S.view.here r r') :
    S.view.lost r.2.recorded ∨ (r'.1 = r.1 ∧ S.view.At S.view.here r.2 r'.2) := by
  cases h with
  | @done p q s h => exact .inr ⟨congrArg some (Stmt.relocate_id s), h⟩
  | failed h => exact .inr ⟨rfl, h⟩
  | lost h => exact .inl h

/-! ## Statements up to a token -/

/-- How statements are collected that start inside of the segment. -/
inductive Ends (S : Segment) (stop : Kind → Bool) (step : Step Stmt) (p q : Parser) : Prop
  | inside {ss : List Stmt} {p' q' : Parser} : S.view.At S.view.here p' q' →
      stop p'.current.kind = true → collectAll stop step p = (ss, p') →
      collectAll stop step q = (ss, q') → Ends S stop step p q
  | behind {ss : List Stmt} {p' q' : Parser} : S.view.At S.Passed p' q' → p.Precedes p' →
      q.Precedes q' →
      collectAll stop step p = (ss ++ (collectAll stop step p').1, (collectAll stop step p').2) →
      collectAll stop step q = (ss ++ (collectAll stop step q').1, (collectAll stop step q').2) →
      Ends S stop step p q
  | lost : S.view.lost (collectAll stop step p).2.recorded → Ends S stop step p q

section
variable (stop : Kind → Bool) {step : Step Stmt} (hs : step.Steady) (hstop : stop .eof = true)
  (hv : ∀ {p q : Parser}, S.view.At S.view.here p q →
    S.view.Agrees (Stmt.relocate id) S.view.here (step p) (step q))
include hs hstop hv

theorem ends (h : S.view.At S.view.here p q) : S.Ends stop step p q := by
  induction p using rounds_induction hs hstop generalizing q with
  | stopped p hc =>
    have hc' : stop q.current.kind = true := by rwa [current_eq h]
    exact .inside h hc (collectAll_of_stop hc) (collectAll_of_stop hc')
  | round p hc ih =>
    have hc' : stop q.current.kind = false := by rwa [current_eq h]
    have hp := collectAll_round hs hstop hc
    have hq := collectAll_round hs hstop hc'
    rcases agrees_cases (hv h) with hl | ⟨hres, hnext⟩
    · -- what is recorded in one round stays on record in the others
      refine .lost (lost_of_suffix ?_ hl)
      rw [hp]
      exact (precedes_collectAll stop hs (step p).2.advance).recorded
    · rw [hres] at hq
      have hpp := (hs.precedes p).trans (Parser.precedes_advance _)
      have hqq := (hs.precedes q).trans (Parser.precedes_advance _)
      rcases advance_cases hnext with hin | hpast
      · cases ih hin with
        | inside hend hk hcp hcq =>
          rw [hcp] at hp
          rw [hcq] at hq
          exact .inside hend hk hp hq
        | behind hend hpp' hqq' hcp hcq =>
          rw [hcp, ← List.append_assoc] at hp
          rw [hcq, ← List.append_assoc] at hq
          exact .behind hend (hpp.trans hpp') (hqq.trans hqq') hp hq
        | lost hl =>
          refine .lost ?_
          rw [hp]
          exact hl
      · exact .behind hpast hpp hqq hp hq

end

/-! ## The view is lawful -/

theorem agrees_block {nested : Power → Step Expr} (hs : ∀ power, (nested power).Steady)
    (hv : ∀ {p q : Parser}, S.view.At S.view.here p q →
      S.view.Agrees (Stmt.relocate id) S.view.here (Rule.statement nested p)
        (Rule.statement nested q))
    (h : S.view.At S.view.sees p q) (hk : p.current.kind = .openCurly) :
    S.view.Agrees (Block.relocate id) S.view.sees (always (Rule.block nested) p)
      (always (Rule.block nested) q) := by
  obtain ⟨u, inside, hin⟩ := h.stream
  have hcurrent : p.current = u := hin.current_first
  cases hb : S.blocks with
  | false =>
    rw [hcurrent] at hk
    exact absurd hk (hin.blocks hb u List.mem_cons_self)
  | true =>
    obtain ⟨hlast, hbehind⟩ := S.of_blocks hb
    have hopen : q.current = p.current := hin.current_second.trans hin.current_first.symm
    have hnext : S.view.At S.view.here p.advance q.advance :=
      ⟨⟨inside, hin.advance⟩, h.options, h.depth, h.recorded⟩
    rw [Rule.always_block, Rule.always_block, hopen]
    cases ends Rule.endsBlock (Rule.steady_statement hs) rfl hv hnext with
    | @inside ss p' q' hend hk' hcp hcq =>
      have hcurly : p'.current.kind = .closeCurly := by
        simpa [Rule.endsBlock, current_ne_eof hend] using hk'
      have hsees : S.view.At S.view.sees p' q' := by
        refine sees_of_ne hend ?_
        rw [hcurly, hlast]
        decide
      have hp' : Rule.closeBlock p' = p' := if_neg (by rw [hcurly]; decide)
      have hq' : Rule.closeBlock q' = q' := if_neg (by rw [current_eq hend, hcurly]; decide)
      rw [hcp, hcq, hp', hq']
      exact .pure hsees (Block.relocate_id _).symm
    | @behind ss p' q' hend _ _ hcp _ =>
      -- nothing is behind the segment in the first source, so its block has no end
      have heof : p'.current.kind = .eof :=
        Parser.kind_current_of_ahead_nil (hend.stream.first.trans hbehind)
      refine .lost ?_
      rw [hcp, collectAll_of_stop (by rw [heof]; rfl), Rule.closeBlock, if_pos heof]
      exact ⟨hb, _, List.mem_cons_self, rfl⟩
    | lost hl =>
      refine .lost (lost_of_suffix ?_ hl)
      rw [Rule.closeBlock]
      split
      · exact List.suffix_cons _ _
      · exact List.suffix_refl _

theorem lawful (S : Segment) : S.view.Lawful where
  here_of_sees := fun ⟨u, inside, h⟩ => ⟨u :: inside, h⟩
  sees_of_here := by
    rintro s t ⟨inside, h⟩ hk
    cases inside with
    | nil =>
      rw [h.current_first] at hk
      exact nomatch S.endsStatement_last.symm.trans hk
    | cons u inside => exact ⟨u, inside, h⟩
  current := fun ⟨_, h⟩ => h.current_second.trans h.current_first.symm
  peek := fun ⟨_, _, h⟩ => h.advance.current_second.trans h.advance.current_first.symm
  advance := fun ⟨_, inside, h⟩ => ⟨inside, h.advance⟩
  record := by
    rintro ds es d ⟨rfl, hds⟩ hd
    exact ⟨rfl, List.forall_mem_cons.2 ⟨hd, hds⟩⟩
  lost := lost_of_suffix
  block := agrees_block

/-- How the statements of a program are collected from inside of the segment on. -/
theorem ends_program (h : S.view.At S.view.here p q) :
    S.Ends (· == .eof) Parser.loggedStatement p q :=
  ends _ Parser.steady_loggedStatement rfl S.lawful.agrees_loggedStatement h

end Segment

end ExprLang
