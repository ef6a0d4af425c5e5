import ExprLang.Proofs.Token.Scanning
import ExprLang.Proofs.Token.Tiling

/-!
# Longest match

The lexemes of the language are the runs of letters, the runs of digits and the symbols.
`IsMunched text t`: the token `t` is the longest lexeme at the front of the text and of the kind
that it spells, or the stray character that stands there if no lexeme starts with it. The scanner
takes the first rule that applies and not the longest lexeme, but it comes to the same
(`atFront_iff_isMunched`), since no rule stops early and the symbols stand in the order of their
length. Main statement (`tokenize_isMunched`): the tokens of a source are the one way to tile it
with tokens of this sort, and none of them is followed by a character that would belong to it.
-/

set_option autoImplicit false

namespace ExprLang

namespace Text

/-- The spellings that the language knows. -/
def IsLexeme (cs : List Char) : Prop :=
  (cs ≠ [] ∧ ∀ c ∈ cs, c.isAlpha = true) ∨ (cs ≠ [] ∧ ∀ c ∈ cs, c.isDigit = true) ∨
    ∃ kind, (cs, kind) ∈ Kind.symbols

/-- The longest lexeme at the front of the text. -/
def IsLongest (text cs : List Char) : Prop :=
  IsLexeme cs ∧ cs <+: text ∧ ∀ ds, IsLexeme ds → ds <+: text → ds.length ≤ cs.length

theorem IsLexeme.ne_nil {cs : List Char} (h : IsLexeme cs) : cs ≠ [] := by
  rcases h with ⟨hne, -⟩ | ⟨hne, -⟩ | ⟨kind, hmem⟩
  · exact hne
  · exact hne
  · exact Kind.ne_nil_of_mem_symbols hmem

end Text

/-- The token is what longest match reads at the front of the text (module doc). -/
def Token.IsMunched (text : List Char) (t : Token) : Prop :=
  (Text.IsLongest text t.literal.toList ∧ t.isSpelled = true) ∨
    ∃ c cs, text = c :: cs ∧ t.literal.toList = [c] ∧ t.kind = .illegal ∧
      Text.isLayout c = false ∧ ∀ ds, Text.IsLexeme ds → ds.head? ≠ some c

/-! ## The symbols -/

namespace Kind

/-- The first symbol of the table that a text starts with is the longest one. -/
theorem length_le_of_symbol? {text : List Char} {entry other : List Char × Kind}
    (h : symbol? text = some entry) (hmem : other ∈ symbols) (hpre : other.1 <+: text) :
    other.1.length ≤ entry.1.length := by
  have hsorted : symbols.Pairwise fun a b => b.1.length ≤ a.1.length := by decide
  obtain ⟨-, front, back, htable, hfront⟩ := List.find?_eq_some_iff_append.1 h
  rw [htable] at hmem hsorted
  rcases List.mem_append.1 hmem with hin | hin
  · have := hfront other hin
    rw [List.isPrefixOf_iff_prefix.2 hpre] at this
    cases this
  · rcases List.mem_cons.1 hin with rfl | hin
    · exact Nat.le_refl _
    · exact List.rel_of_pairwise_cons (List.pairwise_append.1 hsorted).2.1 hin

theorem isSome_symbol? {text : List Char} {entry : List Char × Kind} (hmem : entry ∈ symbols)
    (hpre : entry.1 <+: text) : (symbol? text).isSome = true :=
  List.find?_isSome.2 ⟨entry, hmem, List.isPrefixOf_iff_prefix.2 hpre⟩

/-- The first character of a symbol is a symbol too. -/
theorem exists_short_symbol {entry : List Char × Kind} (h : entry ∈ symbols) :
    ∃ short ∈ symbols, short.1 = entry.1.take 1 :=
  (by decide : ∀ entry ∈ symbols, ∃ short ∈ symbols, short.1 = entry.1.take 1) entry h

theorem ne_illegal_of_mem_symbols {entry : List Char × Kind} (h : entry ∈ symbols) :
    entry.2 ≠ illegal :=
  (by decide : ∀ entry ∈ symbols, entry.2 ≠ illegal) entry h

theorem symbols_of_joins {entry : List Char × Kind} (h : entry ∈ symbols) {c : Char}
    (hc : entry.2.joins c = true) : ∃ kind, (entry.1 ++ [c], kind) ∈ symbols := by
  simp only [symbols, List.mem_cons, List.not_mem_nil, or_false] at h
  rcases h with rfl | rfl | rfl | rfl | rfl | rfl | rfl | rfl | rfl | rfl | rfl | rfl | rfl |
    rfl | rfl | rfl <;> try cases hc
  · obtain rfl := beq_iff_eq.1 hc
    exact ⟨.equals, by decide⟩
  · obtain rfl := beq_iff_eq.1 hc
    exact ⟨.notEquals, by decide⟩

end Kind

/-! ## The first lexeme is the longest -/

namespace Lexeme

variable {c : Char} {cs : List Char}

theorem kind_word_ne_illegal (letters : List Char) : (word letters).kind ≠ .illegal := by
  unfold word Kind.keyword? Kind.keywords
  simp only [List.lookup_cons]
  repeat' split
  all_goals simp

theorem text_of_illegal (h : (first c cs).kind = .illegal) : (first c cs).text = [c] := by
  unfold first at h ⊢
  split at h
  next => exact absurd h (kind_word_ne_illegal _)
  next ha =>
    rw [if_neg ha]
    split at h
    next => cases h
    next hd =>
      rw [if_neg hd]
      split at h
      next hs => exact absurd h (Kind.ne_illegal_of_mem_symbols (Kind.symbol?_eq_some hs).1)
      next => rfl

theorem isLexeme_first (h : (first c cs).kind ≠ .illegal) :
    Text.IsLexeme (first c cs).text := by
  have hrun {p : Char → Bool} (hc : p c = true) : ∀ d ∈ c :: cs.takeWhile p, p d = true := by
    intro d hd
    rcases List.mem_cons.1 hd with rfl | hd
    · exact hc
    · exact List.mem_takeWhile_imp hd
  unfold first at h ⊢
  split
  next ha => exact .inl ⟨List.cons_ne_nil _ _, hrun ha⟩
  next ha =>
    rw [if_neg ha] at h
    split
    next hd => exact .inr (.inl ⟨List.cons_ne_nil _ _, hrun hd⟩)
    next hd =>
      rw [if_neg hd] at h
      cases hs : Kind.symbol? (c :: cs) with
      | none => rw [hs] at h; exact absurd rfl h
      | some entry => exact .inr (.inr ⟨entry.2, (Kind.symbol?_eq_some hs).1⟩)

/-- No run of characters of a class goes on behind the characters of that class. -/
theorem length_le_of_forall {p : Char → Bool} {ds text : List Char} (hp : ∀ d ∈ ds, p d = true)
    (hpre : ds <+: text) : ds.length ≤ (text.takeWhile p).length := by
  obtain ⟨rest, rfl⟩ := hpre
  rw [List.takeWhile_append_of_pos hp, List.length_append]
  exact Nat.le_add_right _ _

/-- Where a lexeme stands, a lexeme of at least its length is read. -/
theorem length_le_first {ds : List Char} (hds : Text.IsLexeme ds) (hpre : ds <+: c :: cs) :
    (first c cs).kind ≠ .illegal ∧ ds.length ≤ (first c cs).text.length := by
  obtain ⟨d, ds, rfl⟩ := List.exists_cons_of_ne_nil hds.ne_nil
  obtain ⟨rfl, -⟩ := List.cons_prefix_cons.1 hpre
  rcases hds with ⟨-, hall⟩ | ⟨-, hall⟩ | ⟨kind, hmem⟩
  · have hd := hall d (.head _)
    rw [first_of_isAlpha hd, ← List.takeWhile_cons_of_pos hd]
    exact ⟨kind_word_ne_illegal _, length_le_of_forall hall hpre⟩
  · have hd := hall d (.head _)
    rw [first, if_neg (by simp [Text.not_isAlpha_of_isDigit hd]), if_pos hd,
      ← List.takeWhile_cons_of_pos hd]
    exact ⟨by simp, length_le_of_forall hall hpre⟩
  · have hhead := (Kind.head?_of_mem_symbols hmem d rfl).1
    rw [Char.isAlphanum, Bool.or_eq_false_iff] at hhead
    obtain ⟨entry, hs⟩ := Option.isSome_iff_exists.1 (Kind.isSome_symbol? hmem hpre)
    rw [first, if_neg (by simp [hhead.1]), if_neg (by simp [hhead.2]), hs]
    exact ⟨Kind.ne_illegal_of_mem_symbols (Kind.symbol?_eq_some hs).1,
      Kind.length_le_of_symbol? hs hmem hpre⟩

/-- A stray character is one that no lexeme starts with. -/
theorem head?_ne_of_illegal (h : (first c cs).kind = .illegal) {ds : List Char}
    (hds : Text.IsLexeme ds) : ds.head? ≠ some c := by
  intro hhead
  obtain ⟨d, ds, rfl⟩ := List.exists_cons_of_ne_nil hds.ne_nil
  obtain rfl : d = c := Option.some.inj hhead
  -- the character alone is a lexeme already
  have hshort : Text.IsLexeme [d] := by
    rcases hds with ⟨-, hall⟩ | ⟨-, hall⟩ | ⟨kind, hmem⟩
    · exact .inl ⟨List.cons_ne_nil _ _, by simpa using hall d (.head _)⟩
    · exact .inr (.inl ⟨List.cons_ne_nil _ _, by simpa using hall d (.head _)⟩)
    · obtain ⟨short, hshort, htake⟩ := Kind.exists_short_symbol hmem
      refine .inr (.inr ⟨short.2, ?_⟩)
      rwa [show ([d], short.2) = short from Prod.ext htake.symm rfl]
  exact (length_le_first hshort ⟨cs, rfl⟩).1 h

end Lexeme

/-! ## Longest match -/

namespace Token

variable {text : List Char} {t u : Token}

theorem AtFront.isMunched (h : t.AtFront text) : t.IsMunched text := by
  obtain ⟨c, cs, rfl, hc, hfirst⟩ := h
  have hkind : (Lexeme.first c cs).kind = t.kind := by rw [hfirst]
  have htext : (Lexeme.first c cs).text = t.literal.toList := by rw [hfirst]
  by_cases hk : t.kind = .illegal
  · have hone : t.literal.toList = [c] := by
      rw [← htext]
      exact Lexeme.text_of_illegal (hkind.trans hk)
    exact .inr ⟨c, cs, rfl, hone, hk, hc,
      fun ds hds => Lexeme.head?_ne_of_illegal (hkind.trans hk) hds⟩
  · rw [← hkind] at hk
    refine .inl ⟨⟨?_, ?_, fun ds hds hpre => ?_⟩, ?_⟩
    · rw [← htext]
      exact Lexeme.isLexeme_first hk
    · rw [← htext]
      exact Lexeme.isPrefix_first c cs
    · rw [← htext]
      exact (Lexeme.length_le_first hds hpre).2
    · have := Lexeme.allowsSpelling_first hk
      rwa [hkind, htext, String.ofList_toList] at this

/-- A spelling belongs to one kind. -/
theorem kind_eq_of_isSpelled (ht : t.isSpelled = true) (hu : u.isSpelled = true)
    (h : t.literal = u.literal) : t.kind = u.kind := by
  obtain ⟨c, cs, hc, -, hfirst⟩ := @Lexeme.first_of_isSpelled t [] ht (by simp)
  obtain ⟨d, ds, hd, -, hfirst'⟩ := @Lexeme.first_of_isSpelled u [] hu (by simp)
  rw [h, hd, List.cons.injEq] at hc
  obtain ⟨rfl, rfl⟩ := hc
  rw [hfirst, Lexeme.mk.injEq] at hfirst'
  exact hfirst'.1

/-- Longest match leaves no choice. -/
theorem IsMunched.unique (ht : t.IsMunched text) (hu : u.IsMunched text) :
    t.kind = u.kind ∧ t.literal = u.literal := by
  have hstray {ds : List Char} {c : Char} {cs : List Char} (hds : Text.IsLexeme ds)
      (hpre : ds <+: c :: cs) : ds.head? = some c := by
    obtain ⟨d, ds, rfl⟩ := List.exists_cons_of_ne_nil hds.ne_nil
    rw [(List.cons_prefix_cons.1 hpre).1]
    rfl
  rcases ht with ⟨⟨ht, htpre, htmax⟩, htspell⟩ | ⟨c, cs, rfl, htone, htk, -, htnone⟩ <;>
    rcases hu with ⟨⟨hu, hupre, humax⟩, huspell⟩ | ⟨d, ds, htext, huone, huk, -, hunone⟩
  · have hpre := List.prefix_of_prefix_length_le htpre hupre (humax _ ht htpre)
    have hlit := String.toList_inj.1 (hpre.eq_of_length_le (htmax _ hu hupre))
    exact ⟨kind_eq_of_isSpelled htspell huspell hlit, hlit⟩
  · subst htext
    exact absurd (hstray ht htpre) (hunone _ ht)
  · exact absurd (hstray hu hupre) (htnone _ hu)
  · obtain ⟨rfl, -⟩ := List.cons.inj htext
    exact ⟨htk.trans huk.symm, String.toList_inj.1 (htone.trans huone.symm)⟩

theorem atFront_iff_isMunched : t.AtFront text ↔ t.IsMunched text := by
  refine ⟨AtFront.isMunched, fun h => ?_⟩
  obtain ⟨c, cs, rfl, hc⟩ : ∃ c cs, text = c :: cs ∧ Text.isLayout c = false := by
    rcases h with ⟨⟨-, ⟨rest, rfl⟩, -⟩, hspell⟩ | ⟨c, cs, rfl, -, -, hc, -⟩
    · obtain ⟨d, ds, hd, hlay, -⟩ := @Lexeme.first_of_isSpelled t [] hspell (by simp)
      exact ⟨d, ds ++ rest, by rw [hd]; rfl, hlay⟩
    · exact ⟨c, cs, rfl, hc⟩
  -- the token that is read there is the same
  have hread : Token.AtFront (c :: cs)
      ⟨(Lexeme.first c cs).kind, String.ofList (Lexeme.first c cs).text, t.span⟩ :=
    ⟨c, cs, rfl, hc, by simp⟩
  obtain ⟨hkind, hliteral⟩ := hread.isMunched.unique h
  refine ⟨c, cs, rfl, hc, ?_⟩
  rw [← hkind, ← hliteral, String.toList_ofList]

/-- A character that would belong to a lexeme makes a longer one of it. -/
theorem isLexeme_of_joins (h : t.isSpelled = true) {c : Char} (hc : t.kind.joins c = true) :
    Text.IsLexeme (t.literal.toList ++ [c]) := by
  have hrun {p : Char → Bool} {cs : List Char} (hall : ∀ d ∈ cs, p d = true) (hp : p c = true) :
      ∀ d ∈ cs ++ [c], p d = true := by
    simpa [or_imp, forall_and] using ⟨hall, hp⟩
  rcases isSpelled_cases h with ⟨hk, hn⟩ | ⟨hk, hn⟩ | ⟨entry, he, hl, hk⟩ | hk
  · rw [hk] at hc
    simp only [Text.isName, Bool.and_eq_true, List.all_eq_true] at hn
    exact .inl ⟨by simp, hrun hn.1.2 hc⟩
  · rw [hk] at hc
    simp only [Text.isNumeral, Bool.and_eq_true, List.all_eq_true] at hn
    exact .inr (.inl ⟨by simp, hrun hn.2 hc⟩)
  · rw [hk] at hc
    rw [hl, String.toList_ofList]
    exact .inr (.inr (Kind.symbols_of_joins he hc))
  · rw [Kind.joins_of_mem_keywords hk] at hc
    exact .inl ⟨by simp, hrun (Kind.keyword?_of_mem hk).2.2 hc⟩

/-- What follows a token does not belong to it. -/
theorem IsMunched.not_joins (h : t.IsMunched text) :
    ∀ c ∈ (text.drop t.literal.toList.length).head?, t.kind.joins c = false := by
  intro c hc
  rcases h with ⟨⟨-, ⟨rest, rfl⟩, hmax⟩, hspell⟩ | ⟨-, -, -, -, hk, -⟩
  · rw [List.drop_left] at hc
    obtain ⟨cs, rfl⟩ := List.head?_eq_some_iff.1 hc
    by_contra hjoins
    have hlonger := hmax _ (isLexeme_of_joins hspell (by simpa using hjoins)) ⟨cs, by simp⟩
    rw [List.length_append] at hlonger
    exact absurd hlonger (Nat.not_succ_le_self _)
  · rw [hk]
    rfl

end Token

/--
The tokens of a source are the one way to tile it with longest matches, and none of them is followed
by a character that would belong to it.
-/
theorem tokenize_isMunched (source : String) (file : Option String) :
    (∀ ts, Tiling Token.IsMunched source.toList (file.getD defaultFile) 0 ts ↔
        ts = tokenize source file) ∧
      Tiling (fun text t => ∀ c ∈ (text.drop t.literal.toList.length).head?,
        t.kind.joins c = false) source.toList (file.getD defaultFile) 0 (tokenize source file) := by
  refine ⟨fun ts => ?_, (tiling_tokenize source file).mono fun _ _ h => h.isMunched.not_joins⟩
  rw [← tiling_iff]
  exact ⟨fun h => h.mono fun _ _ => Token.atFront_iff_isMunched.2,
    fun h => h.mono fun _ _ => Token.atFront_iff_isMunched.1⟩

end ExprLang
