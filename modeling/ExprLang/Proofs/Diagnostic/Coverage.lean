import ExprLang.Proofs.Diagnostic.Description

/-!
# No bad token goes unreported

A stray character and a number that is out of range are tokens that no rule takes as they are
(`Token.isBad`). Wherever the parse goes on behind an error, it does not pass such a token without
an error at it: a token is only left behind once it has been taken, or rejected with an error.

`Covered` says so of the cursor at any stage, and each move keeps it (`Covered.move`). At the end of
the source nothing is left to read, so all the bad tokens have been reported. Main statement
(`exists_error_at`).
-/

set_option autoImplicit false

namespace ExprLang

open Cursor

theorem Parser.mem_ahead {p : Parser} {t : Token} (h : t ∈ p.ahead) :
    t = p.current ∨ t ∈ p.rest := by
  have hne : p.current.kind ≠ .eof := by
    intro hk
    rw [Parser.ahead, TokenStream.kind_current_eq_eof_iff.1 hk] at h
    cases h
  rw [Parser.ahead_of_current hne] at h
  exact List.mem_cons.1 h

/-! ## Moves of the cursor -/

/-- The tokens about which nothing has been decided. -/
def Cursor.unread (s : Stage) (p : Parser) : List Token :=
  match s with
  | .fresh => p.ahead
  | .taken | .stuck => p.rest

/-- The bad ones of the tokens are still unread, or an error is recorded at them. -/
def Covered (tokens : List Token) (s : Stage) (p : Parser) : Prop :=
  ∀ t ∈ tokens, t.isBad = true →
    t ∈ unread s p ∨ ∃ d ∈ p.recorded, d.position = t.span.start

theorem Cursor.unread_of_ne_fresh {s : Stage} (hs : s ≠ .fresh) (p : Parser) :
    unread s p = p.rest := by
  cases s with
  | fresh => exact absurd rfl hs
  | taken | stuck => rfl

namespace Covered

variable {tokens : List Token} {s s' : Stage} {p : Parser}

theorem advance (h : Covered tokens s p) (hs : s ≠ .fresh) :
    Covered tokens .fresh p.advance := by
  intro t ht hb
  have hread := h t ht hb
  rw [unread_of_ne_fresh hs] at hread
  exact hread

/-- A token that is not bad may be left behind. -/
theorem leave (h : Covered tokens .fresh p) (hb : p.current.isBad = false) (hs : s' ≠ .fresh) :
    Covered tokens s' p := by
  intro t ht htb
  rw [unread_of_ne_fresh hs]
  refine (h t ht htb).imp_left fun hahead => ?_
  refine (Parser.mem_ahead hahead).resolve_left fun hcurrent => ?_
  rw [hcurrent, hb] at htb
  cases htb

theorem recordAt (h : Covered tokens s p) (hs : s ≠ .fresh) (hs' : s' ≠ .fresh) (fault : Fault)
    (position : Position) : Covered tokens s' (p.recordAt fault position) := by
  intro t ht hb
  have hread := h t ht hb
  rw [unread_of_ne_fresh hs] at hread
  rw [unread_of_ne_fresh hs']
  exact hread.imp_right fun ⟨d, hd, hposition⟩ => ⟨d, List.mem_cons_of_mem _ hd, hposition⟩

/-- Any token may be left behind with an error at it. -/
theorem record (h : Covered tokens .fresh p) (hs : s' ≠ .fresh) (fault : Fault) :
    Covered tokens s' (p.record fault) := by
  intro t ht hb
  rw [unread_of_ne_fresh hs]
  rcases h t ht hb with hahead | ⟨d, hd, hposition⟩
  · rcases Parser.mem_ahead hahead with hcurrent | hrest
    · exact .inr ⟨_, List.mem_cons_self, by rw [hcurrent]; rfl⟩
    · exact .inl hrest
  · exact .inr ⟨d, List.mem_cons_of_mem _ hd, hposition⟩

theorem move {c d : Cursor} (h : c.Move d) (hc : Covered tokens c.stage c.parser) :
    Covered tokens d.stage d.parser := by
  cases h with
  | note => exact hc
  | advance | resume => exact hc.advance nofun
  | take hb => exact hc.leave hb nofun
  | number | reject | unclosed =>
    apply hc.record
    nofun
  | parameter =>
    apply (hc.advance nofun).record
    nofun
  | unexpected =>
    apply hc.recordAt <;> nofun
  | @openBlock _ p hk =>
    have hbrace : p.advance.current.isBad = false :=
      Token.isBad_eq_false hk (by decide)
    have htaken : Covered tokens .taken p.advance := (hc.advance nofun).leave hbrace nofun
    exact htaken.advance nofun
  | closeBlock hk =>
    exact hc.leave (Token.isBad_eq_false hk (by decide)) nofun

end Covered

/-! ## Sources -/

section
variable {source : String} {file : Option String} {options : Options} {t : Token}

theorem isBad_of_mem_tokenize (ht : t ∈ tokenize source file) :
    t.isBad = true ↔
      t.kind = .illegal ∨ t.kind = .integer ∧ Text.maxInt64 < Text.decimalValue t.literal.toList := by
  unfold Token.isBad
  rw [Bool.or_eq_true, Bool.and_eq_true, beq_iff_eq, beq_iff_eq, Option.isNone_iff_eq_none]
  exact or_congr_right (and_congr_right (Token.lt_decimalValue_of_mem ht))

/-- Each stray character of a source, and each number that is out of range, has an error at it. -/
theorem exists_error_at (ht : t ∈ tokenize source file)
    (hbad : t.kind = .illegal ∨
      t.kind = .integer ∧ Text.maxInt64 < Text.decimalValue t.literal.toList) :
    ∃ e ∈ (parse source file options).errors, e.position = t.span.start := by
  have hb : t.isBad = true := (isBad_of_mem_tokenize ht).2 hbad
  have hstart : Covered (tokenize source file) .fresh (.opened source file options) := by
    intro u hu hub
    refine .inl (mem_ahead_opened hu fun hk => ?_)
    exact Bool.false_ne_true ((Token.isBad_eq_false hk (by decide)).symm.trans hub)
  obtain ⟨q, hq, hend, herrors⟩ := parse_keeps
    (I := fun c => Covered (tokenize source file) c.stage c.parser) Covered.move hstart
  rcases hq t ht hb with hunread | ⟨d, hd, hposition⟩
  · have hnone : q.ahead = [] := TokenStream.kind_current_eq_eof_iff.1 hend
    change t ∈ q.ahead at hunread
    rw [hnone] at hunread
    cases hunread
  · exact ⟨d, herrors ▸ List.mem_reverse.2 hd, hposition⟩

end

/-- A number that is out of range, in a list of parameters: no rule comes to read it. -/
theorem exists_error_at_parameter :
    let t : Token :=
      ⟨.integer, "9223372036854775808", ⟨⟨5, "shell"⟩, ⟨24, "shell"⟩⟩⟩
    (t ∈ tokenize "fn(a 9223372036854775808) \x7b \x7d" none ∧
      (t.kind = .illegal ∨
        t.kind = .integer ∧ Text.maxInt64 < Text.decimalValue t.literal.toList)) ∧
    ∃ e ∈ (parse "fn(a 9223372036854775808) \x7b \x7d" none {}).errors,
      e.position = t.span.start := by
  intro t
  have ht : t ∈ tokenize "fn(a 9223372036854775808) \x7b \x7d" none := by decide +kernel
  have hbad : t.kind = .illegal ∨
      t.kind = .integer ∧ Text.maxInt64 < Text.decimalValue t.literal.toList := by decide +kernel
  exact ⟨⟨ht, hbad⟩, exists_error_at ht hbad⟩

end ExprLang
