import ExprLang.Proofs.Token.Spelling

/-!
# Texts that spell given tokens

A token whose spelling stands at the front of a text is read there, unless the spelling goes on
(`Kind.joins`). `Spells cs ts`: the text `cs` is made of the spellings of `ts`, in order and none
joined with what follows it, and of layout. The tokens are compared without their places
(`Token.bare`). Main statement (`bare_ahead_ofSource`): such a text is read as those tokens.
-/

set_option autoImplicit false

namespace ExprLang

/-- A token without its place in a source. -/
def Token.bare (t : Token) : Token := ⟨t.kind, t.literal, default⟩

theorem Token.bare_eq_iff {t u : Token} :
    u.bare = t.bare ↔ u.kind = t.kind ∧ u.literal = t.literal := by
  simp [bare]

/-- Whether the character `c` behind a token of this kind would belong to it. -/
def Kind.joins (kind : Kind) (c : Char) : Bool :=
  match kind with
  | .identifier | .fnKeyword | .letKeyword | .ifKeyword | .elseKeyword | .trueKeyword
  | .falseKeyword | .returnKeyword => c.isAlpha
  | .integer => c.isDigit
  | .assignment | .not => c == '='
  | _ => false

/-- The text is made of the spellings of the tokens, and of layout (module doc). -/
inductive Spells : List Char → List Token → Prop
  | nil : Spells [] []
  | layout {c : Char} {cs : List Char} {ts : List Token} : Text.isLayout c = true →
      Spells cs ts → Spells (c :: cs) ts
  | token {t : Token} {cs : List Char} {ts : List Token} : t.isSpelled = true →
      (∀ c ∈ cs.head?, t.kind.joins c = false) → Spells cs ts →
      Spells (t.literal.toList ++ cs) (t.bare :: ts)

/-! ## The first lexeme -/

namespace Text

theorem le_toNat_of_isAlpha {c : Char} (h : c.isAlpha = true) : 'A'.toNat ≤ c.toNat := by
  rcases Bool.or_eq_true_iff.1 h with hupper | hlower
  · exact UInt32.le_iff_toNat_le.1 (of_decide_eq_true hupper).1
  · have ha : 'a'.toNat ≤ c.toNat :=
      UInt32.le_iff_toNat_le.1 (of_decide_eq_true (Bool.and_eq_true_iff.1 hlower).1)
    exact Nat.le_trans (by decide) ha

theorem not_isAlpha_of_isDigit {c : Char} (h : c.isDigit = true) : c.isAlpha = false := by
  by_contra ha
  have hA := le_toNat_of_isAlpha (eq_true_of_ne_false ha)
  have h9 : c.toNat ≤ '9'.toNat := (Char.isDigit_iff_toNat.1 h).2
  exact absurd (Nat.le_trans hA h9) (by decide)

/-- Layout is neither a letter nor a digit. -/
theorem not_isLayout_of_isAlphanum {c : Char} (h : c.isAlphanum = true) : isLayout c = false := by
  by_contra hl
  simp only [isLayout, Bool.not_eq_false, Bool.or_eq_true, beq_iff_eq] at hl
  rcases hl with ((rfl | rfl) | rfl) | rfl <;> revert h <;> decide

theorem takeWhile_append_of_head? {p : Char → Bool} {front rest : List Char}
    (hf : ∀ c ∈ front, p c = true) (hr : ∀ c ∈ rest.head?, p c = false) :
    (front ++ rest).takeWhile p = front := by
  rw [List.takeWhile_append_of_pos hf]
  cases rest with
  | nil => simp
  | cons c cs => simp [hr c rfl]

end Text

namespace Kind

/-- A symbol stands at the front of a text that does not go on with a longer one. -/
theorem symbol?_append {entry : List Char × Kind} {cs : List Char} (h : entry ∈ symbols)
    (hc : ∀ c ∈ cs.head?, entry.2.joins c = false) : symbol? (entry.1 ++ cs) = some entry := by
  simp only [symbols, List.mem_cons, List.not_mem_nil, or_false] at h
  have hlonger (c : Char) (he : (c == '=') = false) (first : Char) :
      [first, '='].isPrefixOf (first :: c :: cs.tail) = false := by
    rw [List.isPrefixOf, List.isPrefixOf, show ('=' == c) = false by rw [Bool.beq_comm, he]]
    simp
  cases cs with
  | nil =>
    rcases h with rfl | rfl | rfl | rfl | rfl | rfl | rfl | rfl | rfl | rfl | rfl | rfl | rfl |
      rfl | rfl | rfl <;> rfl
  | cons c cs =>
    rcases h with rfl | rfl | rfl | rfl | rfl | rfl | rfl | rfl | rfl | rfl | rfl | rfl | rfl |
      rfl | rfl | rfl <;> try rfl
    -- only `=` and `!` start a longer symbol
    · have := hlonger c (hc c rfl) '='
      simp_all [symbol?, symbols]
    · have := hlonger c (hc c rfl) '!'
      simp_all [symbol?, symbols]

theorem head?_of_mem_symbols {entry : List Char × Kind} (h : entry ∈ symbols) :
    ∀ c ∈ entry.1.head?, c.isAlphanum = false ∧ Text.isLayout c = false := by
  have hall : ∀ entry ∈ symbols,
      entry.1.head?.all (fun c => !c.isAlphanum && !Text.isLayout c) = true := by decide
  simpa [Option.all_eq_true] using hall entry h

theorem joins_blank (kind : Kind) : kind.joins ' ' = false := by
  cases kind <;> decide

theorem joins_of_mem_keywords {entry : String × Kind} (h : entry ∈ keywords) (c : Char) :
    entry.2.joins c = c.isAlpha := by
  simp only [keywords, List.mem_cons, List.not_mem_nil, or_false] at h
  rcases h with rfl | rfl | rfl | rfl | rfl | rfl | rfl <;> rfl

theorem keyword?_of_mem {entry : String × Kind} (h : entry ∈ keywords) :
    keyword? entry.1 = some entry.2 ∧ entry.1.toList ≠ [] ∧
      ∀ c ∈ entry.1.toList, c.isAlpha = true := by
  have hall : ∀ entry ∈ keywords, keyword? entry.1 = some entry.2 ∧
      entry.1.toList ≠ [] ∧ entry.1.toList.all Char.isAlpha = true := by decide +kernel
  simpa only [List.all_eq_true] using hall entry h

end Kind

/-- The four ways in which a token can be spelled as its kind says. -/
theorem Token.isSpelled_cases {t : Token} (h : t.isSpelled = true) :
    (t.kind = .identifier ∧ Text.isName t.literal = true) ∨
    (t.kind = .integer ∧ Text.isNumeral t.literal = true) ∨
    (∃ entry ∈ Kind.symbols, t.literal = String.ofList entry.1 ∧ t.kind = entry.2) ∨
    (t.literal, t.kind) ∈ Kind.keywords := by
  unfold isSpelled Kind.allowsSpelling at h
  split at h
  next hk => exact .inl ⟨hk, h⟩
  next hk => exact .inr (.inl ⟨hk, h⟩)
  next =>
    rw [List.contains_iff_mem, Kind.fixedSpellings, List.mem_append, List.mem_map] at h
    rcases h with ⟨entry, he, heq⟩ | h
    · rw [Prod.mk.injEq] at heq
      exact .inr (.inr (.inl ⟨entry, he, heq.1.symm, heq.2.symm⟩))
    · exact .inr (.inr (.inr h))

namespace Lexeme

/-- A run of letters that the text does not continue is the first lexeme. -/
theorem first_letters {letters cs : List Char} (hne : letters ≠ [])
    (hl : ∀ c ∈ letters, c.isAlpha = true) (hc : ∀ c ∈ cs.head?, c.isAlpha = false) :
    ∃ d ds, letters = d :: ds ∧ Text.isLayout d = false ∧ first d (ds ++ cs) = word letters := by
  obtain ⟨d, ds, rfl⟩ := List.exists_cons_of_ne_nil hne
  have hd := hl d (.head _)
  refine ⟨d, ds, rfl, Text.not_isLayout_of_isAlphanum (by simp [Char.isAlphanum, hd]), ?_⟩
  rw [first_of_isAlpha hd, Text.takeWhile_append_of_head? (fun c h => hl c (.tail _ h)) hc]

/-- A token is read from the front of a text that does not join it. -/
theorem first_of_isSpelled {t : Token} {cs : List Char} (h : t.isSpelled = true)
    (hc : ∀ c ∈ cs.head?, t.kind.joins c = false) :
    ∃ d ds, t.literal.toList = d :: ds ∧ Text.isLayout d = false ∧
      first d (ds ++ cs) = ⟨t.kind, t.literal.toList⟩ := by
  rcases Token.isSpelled_cases h with ⟨hk, hn⟩ | ⟨hk, hn⟩ | ⟨entry, he, hl, hk⟩ | hk
  · rw [hk] at hc
    simp only [Text.isName, Bool.and_eq_true, Bool.not_eq_true', List.isEmpty_eq_false_iff,
      List.all_eq_true, Option.isNone_iff_eq_none] at hn
    obtain ⟨⟨hne, hall⟩, hkey⟩ := hn
    obtain ⟨d, ds, hd, hlay, hf⟩ := first_letters hne hall hc
    refine ⟨d, ds, hd, hlay, ?_⟩
    rw [hf, word, String.ofList_toList, hkey, hk]
    rfl
  · rw [hk] at hc
    simp only [Text.isNumeral, Bool.and_eq_true, Bool.not_eq_true', List.isEmpty_eq_false_iff,
      List.all_eq_true] at hn
    obtain ⟨d, ds, hd⟩ := List.exists_cons_of_ne_nil hn.1
    rw [hd] at hn ⊢
    have hdig := hn.2 d (.head _)
    refine ⟨d, ds, rfl, Text.not_isLayout_of_isAlphanum (by simp [Char.isAlphanum, hdig]), ?_⟩
    rw [first, if_neg (by simp [Text.not_isAlpha_of_isDigit hdig]), if_pos hdig,
      Text.takeWhile_append_of_head? (fun c h => hn.2 c (.tail _ h)) hc, hk]
  · rw [hk] at hc
    have hs := Kind.symbol?_append he hc
    obtain ⟨d, ds, hd⟩ := List.exists_cons_of_ne_nil (Kind.ne_nil_of_mem_symbols he)
    obtain ⟨hnot, hlay⟩ := Kind.head?_of_mem_symbols he d (by rw [hd]; rfl)
    rw [Char.isAlphanum, Bool.or_eq_false_iff] at hnot
    rw [hl, String.toList_ofList, hk]
    refine ⟨d, ds, hd, hlay, ?_⟩
    rw [hd, List.cons_append] at hs
    rw [first, if_neg (by simp [hnot.1]), if_neg (by simp [hnot.2]), hs]
  · obtain ⟨hkey, hne, hall⟩ := Kind.keyword?_of_mem hk
    simp only [Kind.joins_of_mem_keywords hk] at hc
    obtain ⟨d, ds, hd, hlay, hf⟩ := first_letters hne hall hc
    refine ⟨d, ds, hd, hlay, ?_⟩
    rw [hf, word, String.ofList_toList, hkey]
    rfl

end Lexeme

/-! ## Streams -/

namespace Spells

variable {cs : List Char} {ts : List Token}

/-- Layout in front of a text spells nothing. -/
theorem dropWhile (h : Spells cs ts) : (cs.dropWhile Text.isLayout = [] ∧ ts = []) ∨
    ∃ (t : Token) (ds : List Char) (us : List Token), t.isSpelled = true ∧
      (∀ c ∈ ds.head?, t.kind.joins c = false) ∧ Spells ds us ∧
      cs.dropWhile Text.isLayout = t.literal.toList ++ ds ∧ ts = t.bare :: us := by
  induction h with
  | nil => exact .inl ⟨rfl, rfl⟩
  | layout hl _ ih => rwa [List.dropWhile_cons_of_pos hl]
  | @token t ds us ht hj hs _ =>
    obtain ⟨d, ds', hd, hlay, -⟩ := Lexeme.first_of_isSpelled ht hj
    refine .inr ⟨t, ds, us, ht, hj, hs, ?_, rfl⟩
    rw [hd, List.cons_append, List.dropWhile_cons_of_neg (by simp [hlay])]

theorem bare_ahead_read {file : String} {fuel : Nat} {s : Suffix} (h : Spells s.text ts)
    (hf : s.text.length ≤ fuel) : (TokenStream.read file fuel s).ahead.map Token.bare = ts := by
  induction fuel generalizing s ts with
  | zero =>
    have hnil : s.text = [] := List.length_eq_zero_iff.1 (Nat.le_zero.1 hf)
    rw [hnil] at h
    rcases h.dropWhile with ⟨-, rfl⟩ | ⟨t, ds, us, ht, hj, -, hd, -⟩
    · rfl
    · obtain ⟨d, ds', hd', -⟩ := Lexeme.first_of_isSpelled ht hj
      rw [hd'] at hd
      cases hd
  | succ fuel ih =>
    rcases h.dropWhile with ⟨hnil, rfl⟩ | ⟨t, ds, us, ht, hj, hs, hd, rfl⟩
    · have hk : (s.nextToken file).1.kind = .eof := Suffix.kind_nextToken_eq_eof_iff.2 hnil
      unfold TokenStream.read
      dsimp only
      rw [dif_pos hk]
      rfl
    · obtain ⟨d, ds', hd', -, hfirst⟩ := Lexeme.first_of_isSpelled ht hj
      have htext : (s.dropWhile Text.isLayout).text = d :: (ds' ++ ds) := by
        rw [show (s.dropWhile Text.isLayout).text = s.text.dropWhile Text.isLayout from rfl, hd,
          hd', List.cons_append]
      have hk : (s.nextToken file).1.kind ≠ .eof := by
        rw [ne_eq, Suffix.kind_nextToken_eq_eof_iff, htext]
        exact List.cons_ne_nil _ _
      have hlt := Suffix.length_nextToken_lt hk
      have hrest : (s.nextToken file).2.text = ds := by
        rw [Suffix.nextToken_of_cons htext, hfirst]
        simp [Suffix.drop, htext, hd']
      unfold TokenStream.read
      dsimp only
      rw [dif_neg hk]
      have hnext : (s.nextToken file).1.bare = t.bare := by
        rw [Suffix.nextToken_of_cons htext, hfirst]
        simp [Token.bare, Token.placed]
      rw [← hrest] at hs
      rw [← hnext, ← ih hs (by omega)]
      rfl

end Spells

/-- A text that spells tokens is read as these tokens. -/
theorem bare_ahead_ofSource {source file : String} {ts : List Token}
    (h : Spells source.toList ts) : (TokenStream.ofSource source file).ahead.map Token.bare = ts :=
  Spells.bare_ahead_read (s := .ofSource source) h (Nat.le_refl _)

end ExprLang
