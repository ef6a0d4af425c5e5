import ExprLang.Proofs.Token.Concatenation
import Mathlib.Data.List.Basic

/-!
# Where two texts meet

The tokens of two texts in a row are those of the one and those of the other, unless a lexeme goes
across the place where the texts meet (`Fused`). Letters and digits show by themselves whether they
go on, but of `=` and `!` it is not the last character that counts: in `a===` the first two are one
token and only the third can still take another `=`. Both come to the same, that the last token
reaches up to the end and the next character would belong to it (`fused_iff`). Where that is so, a
token of the first text is not one of the whole, since no token of a source is followed by a
character that would belong to it. Main statement: `tokenize_append_iff`.
-/

set_option autoImplicit false

namespace ExprLang

/-- A lexeme goes across the place where `b` follows `a` (module doc). -/
inductive Fused (a b : String) (file : Option String) : Prop
  | letters {c d : Char} : a.toList.getLast? = some c → c.isAlpha = true →
      b.toList.head? = some d → d.isAlpha = true → Fused a b file
  | digits {c d : Char} : a.toList.getLast? = some c → c.isDigit = true →
      b.toList.head? = some d → d.isDigit = true → Fused a b file
  | equals {t : Token} : (tokenize a file).dropLast.getLast? = some t →
      t.kind = .assignment ∨ t.kind = .not → t.span.stop.offset = a.utf8ByteSize →
      b.toList.head? = some '=' → Fused a b file

/-! ## Characters that go on -/

namespace Text

theorem not_isDigit_of_isAlpha {c : Char} (h : c.isAlpha = true) : c.isDigit = false := by
  by_contra hd
  rw [not_isAlpha_of_isDigit (eq_true_of_ne_false hd)] at h
  cases h

/-- A slice up to the end is all that is left there. -/
theorem exists_of_slice?_end {start : Nat} {cs mid : List Char}
    (h : slice? start (byteLength cs) cs = some mid) :
    ∃ front, cs = front ++ mid ∧ byteLength front = start := by
  obtain ⟨front, rest, rfl, hfront, hstop⟩ := slice?_eq_some_iff.1 h
  simp only [byteLength_append] at hstop
  have hrest : rest = [] := byteLength_eq_zero_iff.1 (by omega)
  exact ⟨front, by rw [hrest, List.append_nil], hfront⟩

end Text

namespace Kind

theorem getLast?_of_mem_symbols {entry : List Char × Kind} (h : entry ∈ symbols) :
    ∀ c ∈ entry.1.getLast?, c.isAlpha = false ∧ c.isDigit = false := by
  have hall : ∀ entry ∈ symbols,
      entry.1.getLast?.all (fun c => !c.isAlpha && !c.isDigit) = true := by decide
  simpa [Option.all_eq_true] using hall entry h

/-- Of the symbols, only `=` and `!` are joined by anything. -/
theorem joins_of_mem_symbols {entry : List Char × Kind} (h : entry ∈ symbols) (c : Char) :
    entry.2.joins c = true ↔ (entry.2 = assignment ∨ entry.2 = not) ∧ c = '=' := by
  simp only [symbols, List.mem_cons, List.not_mem_nil, or_false] at h
  rcases h with rfl | rfl | rfl | rfl | rfl | rfl | rfl | rfl | rfl | rfl | rfl | rfl | rfl | rfl |
    rfl | rfl <;> simp [joins]

theorem ne_of_mem_keywords {entry : String × Kind} (h : entry ∈ keywords) :
    ¬ (entry.2 = assignment ∨ entry.2 = not) :=
  (by decide : ∀ entry ∈ keywords, ¬ (entry.2 = assignment ∨ entry.2 = not)) entry h

end Kind

/-- Whether a character belongs to a token can be told from the last character in front of it. -/
theorem Token.IsMunched.joins_iff {text : List Char} {t : Token} (h : t.IsMunched text)
    {c : Char} (hc : t.literal.toList.getLast? = some c) (d : Char) :
    t.kind.joins d = true ↔ c.isAlpha = true ∧ d.isAlpha = true ∨
      c.isDigit = true ∧ d.isDigit = true ∨
      (t.kind = .assignment ∨ t.kind = .not) ∧ d = '=' := by
  have hmem : c ∈ t.literal.toList := List.mem_of_getLast? hc
  rcases h with ⟨-, hspell⟩ | ⟨e, es, -, hone, hk, -, hnone⟩
  · rcases isSpelled_cases hspell with ⟨hk, hn⟩ | ⟨hk, hn⟩ | ⟨entry, he, hl, hk⟩ | hk
    · simp only [Text.isName, Bool.and_eq_true, List.all_eq_true] at hn
      have hletter := hn.1.2 c hmem
      have hdigit := Text.not_isDigit_of_isAlpha hletter
      simp [hk, Kind.joins, hletter, hdigit]
    · simp only [Text.isNumeral, Bool.and_eq_true, List.all_eq_true] at hn
      have hdigit := hn.2 c hmem
      simp [hk, Kind.joins, hdigit, Text.not_isAlpha_of_isDigit hdigit]
    · rw [hl, String.toList_ofList] at hc
      obtain ⟨hletter, hdigit⟩ := Kind.getLast?_of_mem_symbols he c hc
      rw [hk, Kind.joins_of_mem_symbols he]
      simp [hletter, hdigit]
    · have hletter := (Kind.keyword?_of_mem hk).2.2 c hmem
      have hdigit := Text.not_isDigit_of_isAlpha hletter
      have hne := Kind.ne_of_mem_keywords hk
      rw [Kind.joins_of_mem_keywords hk]
      simp [hletter, hdigit, hne]
  · obtain rfl : c = e := by simpa [hone] using hmem
    have hletter : c.isAlpha = false := by
      by_contra ha
      exact hnone [c] (.inl ⟨List.cons_ne_nil _ _, by simpa using ha⟩) rfl
    have hdigit : c.isDigit = false := by
      by_contra hd
      exact hnone [c] (.inr (.inl ⟨List.cons_ne_nil _ _, by simpa using hd⟩)) rfl
    simp [hk, Kind.joins, hletter, hdigit]

/-! ## The last token -/

namespace Tiling

variable {fits : List Char → Token → Prop} {source : List Char} {file : String} {offset : Nat}
  {ts : List Token} {t : Token}

/-- Each token but the last one stands somewhere in the source. -/
theorem exists_append (h : Tiling fits source file offset ts) (ht : t ∈ ts.dropLast) :
    ∃ front rest, source = front ++ (t.literal.toList ++ rest) ∧
      t.span.stop = .clamped file (Text.byteLength (front ++ t.literal.toList)) ∧
      fits (t.literal.toList ++ rest) t := by
  induction h with
  | final => cases ht
  | @token offset start stop gap text u us hgap hlay hslice hspan htext hfit hts ih =>
    rw [List.dropLast_cons_of_ne_nil hts.ne_nil] at ht
    rcases List.mem_cons.1 ht with rfl | ht
    · obtain ⟨front, rest, rfl, rfl, rfl⟩ := Text.slice?_eq_some_iff.1 hslice
      rw [Text.dropBytes?_append, Option.some.injEq] at htext
      exact ⟨front, rest, rfl, by rw [hspan, Text.byteLength_append], htext ▸ hfit⟩
    · exact ih ht

/-- A source that does not end in layout ends in a token. -/
theorem exists_last (h : Tiling Token.AtFront source file offset ts)
    (hoffset : offset < Text.byteLength source) {c : Char} (hc : source.getLast? = some c)
    (hlay : Text.isLayout c = false) :
    ∃ t text, ts.dropLast.getLast? = some t ∧
      t.span.stop = .clamped file (Text.byteLength source) ∧
      t.literal.toList.getLast? = some c ∧ t.AtFront text := by
  induction h with
  | final hgap hlayout =>
    obtain ⟨front, rfl, hfront⟩ := Text.exists_of_slice?_end hgap
    rw [List.getLast?_append_of_ne_nil] at hc
    · rw [hlayout c (List.mem_of_getLast? hc)] at hlay
      cases hlay
    · rintro rfl
      simp [hfront] at hoffset
  | @token offset start stop gap text u us hgap hlayout hslice hspan htext hfit hts ih =>
    rw [List.dropLast_cons_of_ne_nil hts.ne_nil, List.getLast?_cons]
    rcases Nat.lt_or_eq_of_le (Text.slice?_le hslice).2 with hlt | rfl
    · obtain ⟨t, text, hlast, ht⟩ := ih hlt
      exact ⟨t, text, by rw [hlast]; rfl, ht⟩
    · -- the token reaches up to the end, so it is the last one
      obtain ⟨front, hfront, -⟩ := Text.exists_of_slice?_end hslice
      rw [hts.dropLast_of_end]
      refine ⟨u, text, rfl, by rw [hspan], ?_, hfit⟩
      rwa [hfront, List.getLast?_append_of_ne_nil _ hfit.literal_ne_nil] at hc

/-- A token with the end of a front part as its end is followed by the other part. -/
theorem fits_of_stop {a b : List Char} (h : Tiling fits (a ++ b) file offset ts)
    (hlen : Text.byteLength (a ++ b) ≤ Position.maxOffset) (ht : t ∈ ts.dropLast)
    (hstop : t.span.stop = .clamped file (Text.byteLength a)) :
    ∃ front, a = front ++ t.literal.toList ∧ fits (t.literal.toList ++ b) t := by
  obtain ⟨front, rest, hsource, hstop', hfit⟩ := h.exists_append ht
  rw [← List.append_assoc] at hsource
  have hbytes := congrArg Text.byteLength hsource
  have hoffset : min (Text.byteLength a) Position.maxOffset =
      min (Text.byteLength (front ++ t.literal.toList)) Position.maxOffset :=
    congrArg Position.offset (hstop.symm.trans hstop')
  rw [Text.byteLength_append] at hlen
  rw [Text.byteLength_append, Text.byteLength_append] at hbytes
  have hsame : Text.byteLength a = Text.byteLength (front ++ t.literal.toList) := by omega
  have hdrop := Text.dropBytes?_append a b
  rw [hsame, hsource, Text.dropBytes?_append, Option.some.injEq] at hdrop
  subst hdrop
  exact ⟨front, List.append_cancel_right hsource, hfit⟩

end Tiling

/-! ## Fusion -/

section
variable {a b : String} {file : Option String}
  (hlen : a.utf8ByteSize + b.utf8ByteSize ≤ Position.maxOffset)
include hlen

theorem fused_iff : Fused a b file ↔ ∃ t c, (tokenize a file).dropLast.getLast? = some t ∧
    t.span.stop = .clamped (file.getD defaultFile) a.utf8ByteSize ∧
    b.toList.head? = some c ∧ t.kind.joins c = true := by
  have htiles := tiling_tokenize a file
  constructor
  · have hlast {c : Char} (hc : a.toList.getLast? = some c) (halnum : c.isAlphanum = true) :
        ∃ t text, (tokenize a file).dropLast.getLast? = some t ∧
          t.span.stop = .clamped (file.getD defaultFile) a.utf8ByteSize ∧
          t.literal.toList.getLast? = some c ∧ t.AtFront text := by
      rw [← Text.byteLength_toList]
      refine htiles.exists_last (Nat.pos_of_ne_zero fun hzero => ?_) hc
        (Text.not_isLayout_of_isAlphanum halnum)
      rw [Text.byteLength_eq_zero_iff.1 hzero] at hc
      cases hc
    rintro (⟨hc, hletter, hd, hletter'⟩ | ⟨hc, hdigit, hd, hdigit'⟩ | ⟨ht, hkind, hstop, hd⟩)
    · obtain ⟨t, text, ht, hstop, hlit, hfront⟩ := hlast hc (by simp [Char.isAlphanum, hletter])
      exact ⟨t, _, ht, hstop, hd,
        (hfront.isMunched.joins_iff hlit _).2 (.inl ⟨hletter, hletter'⟩)⟩
    · obtain ⟨t, text, ht, hstop, hlit, hfront⟩ := hlast hc (by simp [Char.isAlphanum, hdigit])
      exact ⟨t, _, ht, hstop, hd,
        (hfront.isMunched.joins_iff hlit _).2 (.inr (.inl ⟨hdigit, hdigit'⟩))⟩
    · obtain ⟨front, -, -, hstop', -⟩ := htiles.exists_append (List.mem_of_getLast? ht)
      refine ⟨_, '=', ht, ?_, hd, ?_⟩
      · rw [hstop', Position.offset_clamped] at hstop
        rw [hstop', Position.clamped, hstop, Position.clamped, Nat.min_eq_left (by omega)]
      · rcases hkind with hkind | hkind <;> rw [hkind] <;> rfl
  · rintro ⟨t, c, ht, hstop, hc, hjoins⟩
    rw [← List.append_nil a.toList] at htiles
    rw [← Text.byteLength_toList] at hstop hlen
    obtain ⟨front, ha, hfront⟩ := htiles.fits_of_stop
      (by rw [List.append_nil]; omega) (List.mem_of_getLast? ht) hstop
    have hd := List.getLast?_eq_some_getLast hfront.literal_ne_nil
    have hlast := List.getLast?_append_of_ne_nil front hfront.literal_ne_nil
    rw [← ha, hd] at hlast
    rcases (hfront.isMunched.joins_iff hd c).1 hjoins with
      ⟨hletter, hletter'⟩ | ⟨hdigit, hdigit'⟩ | ⟨hkind, rfl⟩
    · exact .letters hlast hletter hc hletter'
    · exact .digits hlast hdigit hc hdigit'
    · refine .equals ht hkind ?_ hc
      rw [hstop, Position.offset_clamped_of_le (by omega), Text.byteLength_toList]

/--
The tokens of two texts in a row are those of the first one and, further on, those of the second, if
and only if no lexeme goes across the place where the texts meet.
-/
theorem tokenize_append_iff : tokenize (a ++ b) file =
    (tokenize a file).dropLast ++
        (tokenize b file).map (Token.relocate (.add a.utf8ByteSize)) ↔ ¬ Fused a b file := by
  rw [fused_iff hlen]
  refine ⟨?_, fun hfused => ?_⟩
  · rintro htokens ⟨t, c, ht, hstop, hc, hjoins⟩
    -- as a token of the whole, `t` cannot be followed by `c`
    have htiles := (tiling_tokenize (a ++ b) file).mono fun _ _ h => h.isMunched.not_joins
    have hmem : t ∈ (tokenize (a ++ b) file).dropLast := by
      have hne : (tokenize b file).map (Token.relocate (.add a.utf8ByteSize)) ≠ [] :=
        List.map_eq_nil_iff.not.2 (tiling_tokenize b file).ne_nil
      rw [htokens, List.dropLast_append_of_ne_nil hne]
      exact List.mem_append_left _ (List.mem_of_getLast? ht)
    rw [String.toList_append] at htiles
    rw [← Text.byteLength_toList] at hstop
    rw [← Text.byteLength_toList, ← Text.byteLength_toList, ← Text.byteLength_append] at hlen
    obtain ⟨-, -, hfree⟩ := htiles.fits_of_stop hlen hmem hstop
    rw [List.drop_left] at hfree
    rw [hfree c hc] at hjoins
    cases hjoins
  · rw [← map_shift_tokenize hlen]
    refine tokenize_append_of_stop fun t ht hstop c hc => ?_
    by_contra hjoins
    exact hfused ⟨t, c, ht, hstop, hc, eq_true_of_ne_false hjoins⟩

end

/-- A third `=` stays behind the two that are one token; a fourth one goes on with the third. -/
theorem tokenize_append_iff_equals :
    ("λ==".utf8ByteSize + "=1".utf8ByteSize ≤ Position.maxOffset ∧
      tokenize ("λ==" ++ "=1") none = (tokenize "λ==" none).dropLast ++
        (tokenize "=1" none).map (Token.relocate (.add 4)) ∧ ¬ Fused "λ==" "=1" none) ∧
    "λ===".utf8ByteSize + "=1".utf8ByteSize ≤ Position.maxOffset ∧ Fused "λ===" "=1" none ∧
      tokenize ("λ===" ++ "=1") none ≠ (tokenize "λ===" none).dropLast ++
        (tokenize "=1" none).map (Token.relocate (.add 5)) := by
  have hlen : "λ==".utf8ByteSize + "=1".utf8ByteSize ≤ Position.maxOffset := by decide
  have hlen' : "λ===".utf8ByteSize + "=1".utf8ByteSize ≤ Position.maxOffset := by decide
  have htokens : tokenize ("λ==" ++ "=1") none = (tokenize "λ==" none).dropLast ++
      (tokenize "=1" none).map (Token.relocate (.add 4)) := by decide +kernel
  have hfused : Fused "λ===" "=1" none :=
    .equals (t := ⟨.assignment, "=", ⟨⟨4, "shell"⟩, ⟨5, "shell"⟩⟩⟩) (by decide +kernel) (.inl rfl)
      rfl (by decide)
  exact ⟨⟨hlen, htokens, (tokenize_append_iff hlen).1 htokens⟩, hlen', hfused,
    fun h => (tokenize_append_iff hlen').1 h hfused⟩

end ExprLang
