import ExprLang.Proofs.Tree.Erasure
import ExprLang.Proofs.Tree.WellFormed
import Mathlib.Data.List.Forall2

/-!
# The tokens of a canonical text

`tokens` lists the tokens of a tree's canonical text without their places: those of its nodes, and
the parentheses, commas and other marks that the text has by itself. Main statement
(`Program.bare_ahead_render`): the canonical text of a well-formed program is read as these tokens.
No two of them join, because every word or number is followed by a mark or a blank and no
expression starts with `=`.
-/

set_option autoImplicit false

namespace ExprLang

/-- A token that stands nowhere. -/
def Token.mark (kind : Kind) (literal : String) : Token := ⟨kind, literal, default⟩

/-- The lists with a comma between each two. -/
def separated : List (List Token) → List Token
  | [] => []
  | ts :: rest => ts ++ rest.flatMap (.mark .comma "," :: ·)

mutual

/-- The tokens of the canonical text of an expression. -/
def Expr.tokens : Expr → List Token
  | .identifier name => [name.token.bare]
  | .integer token _ | .boolean token _ => [token.bare]
  | .unary token _ right =>
    .mark .openParen "(" :: token.bare :: right.tokens ++ [.mark .closeParen ")"]
  | .binary token left _ right =>
    .mark .openParen "(" :: left.tokens ++ token.bare :: right.tokens ++ [.mark .closeParen ")"]
  | .conditional token condition consequence alternative =>
    token.bare :: .mark .openParen "(" :: condition.tokens ++
      .mark .closeParen ")" :: consequence.tokens ++ tokensElse alternative
  | .call token callee arguments =>
    callee.tokens ++ token.bare :: separated (tokensEach arguments) ++ [.mark .closeParen ")"]
  | .function token parameters body =>
    token.bare :: .mark .openParen "(" :: separated (parameters.map fun x => [x.token.bare]) ++
      .mark .closeParen ")" :: body.tokens

/-- The tokens of the canonical text of a block. -/
def Block.tokens : Block → List Token
  | .mk token statements => token.bare :: tokensBody statements ++ [.mark .closeCurly "\x7d"]

/-- The tokens of the canonical text of a statement. -/
def Stmt.tokens : Stmt → List Token
  | .binding token name value =>
    token.bare :: name.token.bare :: .mark .assignment "=" :: value.tokens ++
      [.mark .semicolon ";"]
  | .result token value => token.bare :: value.tokens ++ [.mark .semicolon ";"]
  | .expression _ value => value.tokens

/-- The tokens of each of the expressions. -/
def tokensEach : List Expr → List (List Token)
  | [] => []
  | e :: es => e.tokens :: tokensEach es

/-- The tokens of the statements, one behind the other. -/
def tokensBody : List Stmt → List Token
  | [] => []
  | s :: ss => s.tokens ++ tokensBody ss

/-- The tokens of the alternative of a conditional, if there is one. -/
def tokensElse : Option Block → List Token
  | none => []
  | some block => .mark .elseKeyword "else" :: block.tokens

end

/-! ## Tokens with a single spelling -/

theorem Token.bare_eq_mark {t : Token} {kind : Kind} {literal : String} (hk : t.kind = kind)
    (hs : t.isSpelled = true) (h : (literal, kind) ∈ Kind.fixedSpellings) :
    t.bare = .mark kind literal := by
  have hone : ∀ a ∈ Kind.fixedSpellings, ∀ b ∈ Kind.fixedSpellings, a.2 = b.2 → a.1 = b.1 := by
    decide +kernel
  have hvar : ∀ a ∈ Kind.fixedSpellings, a.2 ≠ .identifier ∧ a.2 ≠ .integer := by decide +kernel
  have hmem : (t.literal, t.kind) ∈ Kind.fixedSpellings := by
    obtain ⟨h1, h2⟩ := hvar _ h
    rw [isSpelled, hk] at hs
    rw [hk]
    unfold Kind.allowsSpelling at hs
    split at hs
    · exact absurd rfl h1
    · exact absurd rfl h2
    · exact List.contains_iff_mem.1 hs
  have hl : t.literal = literal := hone _ hmem _ h hk
  rw [bare, mark, hl, hk]

theorem Token.literal_eq {t : Token} {kind : Kind} (literal : String)
    (ht : t.isProper [kind] = true) (h : (literal, kind) ∈ Kind.fixedSpellings) :
    t.literal = literal := by
  obtain ⟨hk, hs⟩ := isProper_singleton_iff.1 ht
  exact congrArg Token.literal (bare_eq_mark hk hs h)

/-! ## What may follow a text -/

/-- Nothing that a word or a number would go on with. -/
def Apart (cs : List Char) : Prop := ∀ c ∈ cs.head?, c.isAlphanum = false

/-- Nothing that starts apart joins what stands in front of it, if that is no `=` and no `!`. -/
theorem Apart.joins {kind : Kind} {cs : List Char} (h : Apart cs)
    (hk : kind ≠ .assignment ∧ kind ≠ .not) : ∀ c ∈ cs.head?, kind.joins c = false := by
  intro c hc
  have hno := h c hc
  rw [Char.isAlphanum, Bool.or_eq_false_iff] at hno
  unfold Kind.joins
  split <;> simp_all

theorem apart_toList {text : String} {cs : List Char}
    (h : text.toList.head?.any Char.isAlphanum = false) (hne : text.toList ≠ []) :
    Apart (text.toList ++ cs) := by
  obtain ⟨c, ds, hc⟩ := List.exists_cons_of_ne_nil hne
  rw [hc] at h ⊢
  rintro _ ⟨⟩
  exact h

theorem Kind.joins_of_mem_binaryOperators {kind : Kind} (h : kind ∈ binaryOperators) (c : Char) :
    kind.joins c = false := by
  simp only [binaryOperators, List.mem_cons, List.not_mem_nil, or_false] at h
  rcases h with rfl | rfl | rfl | rfl | rfl | rfl | rfl | rfl <;> rfl

theorem Token.apart_operator {t : Token} {cs : List Char} (hk : t.kind ∈ Kind.binaryOperators)
    (hs : t.isSpelled = true) : Apart (t.literal.toList ++ cs) := by
  rcases isSpelled_cases hs with ⟨hi, -⟩ | ⟨hi, -⟩ | ⟨entry, he, hl, -⟩ | hmem
  · rw [hi] at hk
    exact absurd hk (by decide)
  · rw [hi] at hk
    exact absurd hk (by decide)
  · obtain ⟨d, ds, hd⟩ := List.exists_cons_of_ne_nil (Kind.ne_nil_of_mem_symbols he)
    rw [hl, String.toList_ofList, hd]
    rintro _ ⟨⟩
    exact (Kind.head?_of_mem_symbols he d (by rw [hd]; rfl)).1
  · have hno : ∀ entry ∈ Kind.keywords, entry.2 ∉ Kind.binaryOperators := by decide
    exact absurd hk (hno _ hmem)

namespace Spells

variable {t : Token} {kind : Kind} {literal : String} {cs : List Char} {ts : List Token}

/-- A mark that no character joins. -/
theorem mark (kind : Kind) (literal : String) (hs : kind.allowsSpelling literal = true)
    (hj : ∀ c, kind.joins c = false) (h : Spells cs ts) :
    Spells (literal.toList ++ cs) (.mark kind literal :: ts) :=
  .token (t := .mark kind literal) hs (fun c _ => hj c) h

/-- A word or a number in front of something else. -/
theorem word (ht : t.isSpelled = true) (hk : t.kind ≠ .assignment ∧ t.kind ≠ .not)
    (h : Spells cs ts) (hc : Apart cs) : Spells (t.literal.toList ++ cs) (t.bare :: ts) :=
  .token ht (hc.joins hk) h

theorem proper (ht : t.isProper [kind] = true) (hk : kind ≠ .assignment ∧ kind ≠ .not)
    (h : Spells cs ts) (hc : Apart cs) : Spells (t.literal.toList ++ cs) (t.bare :: ts) := by
  obtain ⟨hkind, hs⟩ := Token.isProper_singleton_iff.1 ht
  exact word hs (by rwa [hkind]) h hc

theorem blank (h : Spells cs ts) : Spells (" ".toList ++ cs) ts := .layout rfl h

end Spells

/-! ## How a canonical text starts -/

/-- Whether the canonical text of the expression starts with a parenthesis. -/
def Expr.startsParen : Expr → Bool
  | .unary .. | .binary .. => true
  | .call _ callee _ => callee.startsParen
  | _ => false

theorem Identifier.toList_value {x : Identifier} (h : x.isWellFormed = true) :
    x.token.literal = x.value ∧ ∃ c cs, x.value.toList = c :: cs ∧ c.isAlpha = true := by
  rw [isWellFormed, Bool.and_eq_true, beq_iff_eq, Token.isProper_singleton_iff] at h
  obtain ⟨⟨hk, hs⟩, hl⟩ := h
  rw [Token.isSpelled, hk, hl] at hs
  simp only [Kind.allowsSpelling, Text.isName, Bool.and_eq_true, Bool.not_eq_true',
    List.isEmpty_eq_false_iff, List.all_eq_true] at hs
  obtain ⟨c, cs, hc⟩ := List.exists_cons_of_ne_nil hs.1.1
  exact ⟨hl, c, cs, hc, hs.1.2 c (by rw [hc]; exact .head _)⟩

theorem Identifier.erased_ofToken {x : Identifier} {t : Token} (h : x.isWellFormed = true)
    (ht : t.bare = x.token.bare) : (Identifier.ofToken t).erased = x.erased := by
  rw [isWellFormed, Bool.and_eq_true, beq_iff_eq] at h
  show (⟨t.bare, t.literal⟩ : Identifier) = ⟨x.token.bare, x.value⟩
  rw [ht, (Token.bare_eq_iff.1 ht).2, h.2]

/-- It starts with a parenthesis, or else with a letter or a digit. -/
theorem Expr.toList_render : (e : Expr) → e.isWellFormed = true →
    ∃ c cs, e.render.toList = c :: cs ∧
      if e.startsParen = true then c = '(' else c.isAlphanum = true
  | .identifier x, h => by
    obtain ⟨-, c, cs, hc, ha⟩ := x.toList_value h
    exact ⟨c, cs, hc, by simp [startsParen, Char.isAlphanum, ha]⟩
  | .integer t v, h => by
    rw [isWellFormed, Bool.and_eq_true, Token.isProper_singleton_iff] at h
    obtain ⟨⟨hk, hs⟩, -⟩ := h
    rw [Token.isSpelled, hk] at hs
    simp only [Kind.allowsSpelling, Text.isNumeral, Bool.and_eq_true, Bool.not_eq_true',
      List.isEmpty_eq_false_iff, List.all_eq_true] at hs
    obtain ⟨c, cs, hc⟩ := List.exists_cons_of_ne_nil hs.1
    have hd := hs.2 c (by rw [hc]; exact .head _)
    exact ⟨c, cs, hc, by simp [startsParen, Char.isAlphanum, hd]⟩
  | .boolean _ true, _ => ⟨'t', ['r', 'u', 'e'], by rw [render]; rfl, rfl⟩
  | .boolean _ false, _ => ⟨'f', ['a', 'l', 's', 'e'], by rw [render]; rfl, rfl⟩
  | .unary _ op r, _ => by
    refine ⟨'(', (op ++ r.render ++ ")").toList, ?_, rfl⟩
    simp only [render, String.toList_append, List.append_assoc]
    rfl
  | .binary _ l op r, _ => by
    refine ⟨'(', (l.render ++ op ++ r.render ++ ")").toList, ?_, rfl⟩
    simp only [render, String.toList_append, List.append_assoc]
    rfl
  | .conditional _ c b a, _ => by
    refine ⟨'i', ("f (" ++ c.render ++ ") " ++ b.render ++ renderElse a).toList, ?_, rfl⟩
    simp only [render, String.toList_append, List.append_assoc]
    rfl
  | .call _ f args, h => by
    rw [isWellFormed, Bool.and_eq_true, Bool.and_eq_true] at h
    obtain ⟨c, cs, hc, hs⟩ := toList_render f h.1.2
    refine ⟨c, cs ++ ("(" ++ commaSeparated (renderEach args) ++ ")").toList, ?_, hs⟩
    simp only [render, String.toList_append, List.append_assoc, hc, List.cons_append]
  | .function t ps b, h => by
    rw [isWellFormed, Bool.and_eq_true, Bool.and_eq_true] at h
    refine ⟨'f', ("n(" ++ commaSeparated (ps.map Identifier.value) ++ ") " ++ b.render).toList, ?_,
      rfl⟩
    rw [render, Token.literal_eq "fn" h.1.1 (by decide +kernel)]
    simp only [String.toList_append, List.append_assoc]
    rfl

theorem Expr.head?_render {e : Expr} (h : e.isWellFormed = true) (cs : List Char) :
    ∀ c ∈ (e.render.toList ++ cs).head?, c ≠ '=' := by
  obtain ⟨c, ds, hc, hs⟩ := e.toList_render h
  rw [hc]
  rintro _ ⟨⟩ rfl
  split at hs <;> revert hs <;> decide

/-! ## Canonical texts spell their tokens -/

/-- The text, in front of something apart, spells the tokens in front of what that spells. -/
def SpellsApart (text : String) (ts : List Token) : Prop :=
  ∀ ⦃cs : List Char⦄ ⦃us : List Token⦄, Spells cs us → Apart cs →
    Spells (text.toList ++ cs) (ts ++ us)

theorem spellsApart_commaSeparated {texts : List String} {tss : List (List Token)}
    (h : List.Forall₂ SpellsApart texts tss) :
    SpellsApart (commaSeparated texts) (separated tss) := by
  have hmore {texts : List String} {tss : List (List Token)}
      (h : List.Forall₂ SpellsApart texts tss) {text : String} {ts : List Token}
      (ht : SpellsApart text ts) :
      SpellsApart (commaSeparated (text :: texts)) (ts ++ tss.flatMap (.mark .comma "," :: ·)) := by
    induction h generalizing text ts with
    | nil =>
      intro cs us hs hc
      simpa [commaSeparated] using ht hs hc
    | cons hx _ ih =>
      intro cs us hs hc
      have hcomma := Spells.mark .comma "," rfl (fun _ => rfl) (ih hx hs hc)
      simpa [commaSeparated] using ht hcomma (apart_toList rfl (by decide))
  cases h with
  | nil =>
    intro cs us hs _
    exact hs
  | cons hx hxs => exact hmore hxs hx

theorem Identifier.spellsApart_value {x : Identifier} (h : x.isWellFormed = true) :
    SpellsApart x.value [x.token.bare] := by
  intro cs us hs hc
  rw [isWellFormed, Bool.and_eq_true, beq_iff_eq] at h
  rw [← h.2]
  exact Spells.proper h.1 (by decide) hs hc

theorem spellsApart_parameters : (xs : List Identifier) → xs.all Identifier.isWellFormed = true →
    List.Forall₂ SpellsApart (xs.map Identifier.value) (xs.map fun x => [x.token.bare])
  | [], _ => .nil
  | x :: xs, h => by
    rw [List.all_cons, Bool.and_eq_true] at h
    exact .cons (x.spellsApart_value h.1) (spellsApart_parameters xs h.2)

mutual

theorem Expr.spellsApart_render : (e : Expr) → e.isWellFormed = true →
    SpellsApart e.render e.tokens
  | .identifier x, h => by
    rw [Expr.render, Expr.tokens]
    exact x.spellsApart_value h
  | .integer t v, h => by
    rw [Expr.isWellFormed, Bool.and_eq_true] at h
    rw [Expr.render, Expr.tokens]
    exact fun _ _ hs hc => Spells.proper h.1 (by decide) hs hc
  | .boolean t true, h => by
    rw [Expr.render, Expr.tokens, if_pos rfl]
    have hl := Token.literal_eq "true" h (by decide +kernel)
    rw [← hl]
    exact fun _ _ hs hc => Spells.proper h (by decide) hs hc
  | .boolean t false, h => by
    rw [Expr.render, Expr.tokens, if_neg Bool.false_ne_true]
    have hl := Token.literal_eq "false" h (by decide +kernel)
    rw [← hl]
    exact fun _ _ hs hc => Spells.proper h (by decide) hs hc
  | .unary t op r, h => by
    rw [Expr.isWellFormed, Bool.and_eq_true, Bool.and_eq_true, beq_iff_eq, Token.isProper_iff] at h
    obtain ⟨⟨⟨hk, ht⟩, hop⟩, hr⟩ := h
    intro cs us hs hc
    have hclose := Spells.mark .closeParen ")" rfl (fun _ => rfl) hs
    have hright := Expr.spellsApart_render r hr hclose (apart_toList rfl (by decide))
    have hoperator := Spells.token ht (fun c hmem => by
      have := r.head?_render hr _ c hmem
      simp only [Kind.unaryOperators, List.mem_cons, List.not_mem_nil, or_false] at hk
      rcases hk with hk | hk <;> simp [hk, Kind.joins, this]) hright
    rw [hop] at hoperator
    simpa [Expr.render, Expr.tokens] using
      Spells.mark .openParen "(" rfl (fun _ => rfl) hoperator
  | .binary t l op r, h => by
    simp only [Expr.isWellFormed, Bool.and_eq_true, beq_iff_eq, Token.isProper_iff] at h
    obtain ⟨⟨⟨⟨hk, ht⟩, hop⟩, hl⟩, hr⟩ := h
    intro cs us hs hc
    have hclose := Spells.mark .closeParen ")" rfl (fun _ => rfl) hs
    have hright := Expr.spellsApart_render r hr hclose (apart_toList rfl (by decide))
    have hoperator := Spells.token ht (fun c _ => Kind.joins_of_mem_binaryOperators hk c) hright
    have hleft := Expr.spellsApart_render l hl hoperator (Token.apart_operator hk ht)
    rw [hop] at hleft
    simpa [Expr.render, Expr.tokens] using
      Spells.mark .openParen "(" rfl (fun _ => rfl) hleft
  | .conditional t c b a, h => by
    simp only [Expr.isWellFormed, Bool.and_eq_true] at h
    obtain ⟨⟨⟨ht, hcond⟩, hb⟩, ha⟩ := h
    intro cs us hs hc
    have helse := spells_renderElse a ha hs hc
    have hblock := Block.spells_render b hb helse
    have hclose := Spells.mark .closeParen ")" rfl (fun _ => rfl)
      (Spells.blank hblock)
    have hcondition := Expr.spellsApart_render c hcond hclose (apart_toList rfl (by decide))
    have hopen := Spells.mark .openParen "(" rfl (fun _ => rfl) hcondition
    have hif := Spells.proper ht (by decide) (Spells.blank hopen) (apart_toList rfl (by decide))
    rw [Token.literal_eq "if" ht (by decide +kernel)] at hif
    simpa [Expr.render, Expr.tokens] using hif
  | .call t f args, h => by
    simp only [Expr.isWellFormed, Bool.and_eq_true] at h
    obtain ⟨⟨ht, hf⟩, hargs⟩ := h
    intro cs us hs hc
    have hclose := Spells.mark .closeParen ")" rfl (fun _ => rfl) hs
    have harguments := spellsApart_commaSeparated (spellsApart_renderEach args hargs)
      hclose (apart_toList rfl (by decide))
    have hopen := Spells.mark .openParen "(" rfl (fun _ => rfl) harguments
    have hcallee := Expr.spellsApart_render f hf hopen (apart_toList rfl (by decide))
    have hbare : t.bare = .mark .openParen "(" := by
      obtain ⟨hk, hs⟩ := Token.isProper_singleton_iff.1 ht
      exact Token.bare_eq_mark hk hs (by decide +kernel)
    simpa [Expr.render, Expr.tokens, hbare] using hcallee
  | .function t ps b, h => by
    simp only [Expr.isWellFormed, Bool.and_eq_true] at h
    obtain ⟨⟨ht, hps⟩, hb⟩ := h
    intro cs us hs hc
    have hbody := Block.spells_render b hb hs
    have hclose := Spells.mark .closeParen ")" rfl (fun _ => rfl) (Spells.blank hbody)
    have hparameters := spellsApart_commaSeparated (spellsApart_parameters ps hps)
      hclose (apart_toList rfl (by decide))
    have hopen := Spells.mark .openParen "(" rfl (fun _ => rfl) hparameters
    have hfn := Spells.proper ht (by decide) hopen (apart_toList rfl (by decide))
    simpa [Expr.render, Expr.tokens] using hfn

/-- A block ends in a brace, which nothing joins. -/
theorem Block.spells_render : (b : Block) → b.isWellFormed = true →
    ∀ {cs : List Char} {us : List Token}, Spells cs us →
      Spells (b.render.toList ++ cs) (b.tokens ++ us)
  | .mk t ss, h, cs, us, hs => by
    simp only [Block.isWellFormed, Bool.and_eq_true] at h
    obtain ⟨ht, hss⟩ := h
    have hclose := Spells.mark .closeCurly "\x7d" rfl (fun _ => rfl) hs
    have hbody := spells_renderBody ss hss hclose
    have hopen := Spells.mark .openCurly "\x7b" rfl (fun _ => rfl)
      (Spells.blank hbody)
    have hbare : t.bare = .mark .openCurly "\x7b" := by
      obtain ⟨hk, hs⟩ := Token.isProper_singleton_iff.1 ht
      exact Token.bare_eq_mark hk hs (by decide +kernel)
    simpa [Block.render, Block.tokens, hbare] using hopen

theorem Stmt.spellsApart_render : (s : Stmt) → s.isWellFormed = true →
    SpellsApart s.render s.tokens
  | .binding t x v, h => by
    simp only [Stmt.isWellFormed, Bool.and_eq_true] at h
    obtain ⟨⟨ht, hx⟩, hv⟩ := h
    intro cs us hs hc
    have hend := Spells.mark .semicolon ";" rfl (fun _ => rfl) hs
    have hvalue := Spells.blank (Expr.spellsApart_render v hv hend (apart_toList rfl (by decide)))
    have hequals : Spells ("=".toList ++ _) (.mark .assignment "=" :: _) :=
      .token (t := .mark .assignment "=") rfl (by simp; decide) hvalue
    have hname := x.spellsApart_value hx (Spells.blank hequals) (apart_toList rfl (by decide))
    have hlet := Spells.proper ht (by decide) (Spells.blank hname) (apart_toList rfl (by decide))
    simpa [Stmt.render, Stmt.tokens] using hlet
  | .result t v, h => by
    simp only [Stmt.isWellFormed, Bool.and_eq_true] at h
    intro cs us hs hc
    have hend := Spells.mark .semicolon ";" rfl (fun _ => rfl) hs
    have hvalue := Spells.blank (Expr.spellsApart_render v h.2 hend (apart_toList rfl (by decide)))
    have hreturn := Spells.proper h.1 (by decide) hvalue (apart_toList rfl (by decide))
    simpa [Stmt.render, Stmt.tokens] using hreturn
  | .expression _ v, h => by
    rw [Stmt.render, Stmt.tokens]
    exact Expr.spellsApart_render v h

theorem spellsApart_renderEach : (es : List Expr) → isWellFormedEach es = true →
    List.Forall₂ SpellsApart (renderEach es) (tokensEach es)
  | [], _ => by
    rw [renderEach, tokensEach]
    exact .nil
  | e :: es, h => by
    rw [isWellFormedEach, Bool.and_eq_true] at h
    rw [renderEach, tokensEach]
    exact .cons (Expr.spellsApart_render e h.1) (spellsApart_renderEach es h.2)

theorem spells_renderBody : (ss : List Stmt) → isWellFormedBody ss = true →
    ∀ {cs : List Char} {us : List Token}, Spells cs us →
      Spells ((renderBody ss).toList ++ cs) (tokensBody ss ++ us)
  | [], _, _, _, hs => hs
  | s :: ss, h, cs, us, hs => by
    rw [isWellFormedBody, Bool.and_eq_true] at h
    have hrest := Spells.blank (spells_renderBody ss h.2 hs)
    have hfirst := Stmt.spellsApart_render s h.1 hrest (apart_toList rfl (by decide))
    simpa [renderBody, tokensBody] using hfirst

theorem spells_renderElse : (b : Option Block) → isWellFormedElse b = true →
    SpellsApart (renderElse b) (tokensElse b)
  | none, _ => fun _ _ hs _ => hs
  | some b, h => by
    intro cs us hs _
    have hblock := Spells.blank (Block.spells_render b h hs)
    have helse : Spells ("else".toList ++ _) (.mark .elseKeyword "else" :: _) :=
      .word (t := .mark .elseKeyword "else") rfl (by decide) hblock (apart_toList rfl (by decide))
    simpa [renderElse, tokensElse] using Spells.blank helse

end

/-- The tokens of the canonical text of a program. -/
def Program.tokens (p : Program) : List Token := tokensBody p.statements

theorem spells_renderLines : (ss : List Stmt) → isWellFormedBody ss = true →
    Spells (renderLines ss).toList (tokensBody ss)
  | [], _ => .nil
  | s :: ss, h => by
    rw [isWellFormedBody, Bool.and_eq_true] at h
    have hrest : Spells ("\n".toList ++ (renderLines ss).toList) (tokensBody ss) :=
      .layout rfl (spells_renderLines ss h.2)
    have hfirst := s.spellsApart_render h.1 hrest (apart_toList rfl (by decide))
    simpa [renderLines, tokensBody] using hfirst

/-- The canonical text of a well-formed program is read as its tokens. -/
theorem Program.bare_ahead_render {p : Program} (h : p.isWellFormed = true) (file : String) :
    (TokenStream.ofSource p.render file).ahead.map Token.bare = p.tokens :=
  bare_ahead_ofSource (spells_renderLines p.statements h)

end ExprLang
