import ExprLang.Proofs.Parser.Building
import ExprLang.Proofs.Rendering.Decoder

/-!
# Canonical texts are decoded

The decoder reads the canonical text of every tree that is built from well-spelled tokens, and gives
the tree up to what the text does not show. An expression is decoded in front of any text that does
not go on with it (`Behind`), where calls go on with it: so `Expr.Decodes` leaves to `calls` what
comes behind. Main statement (`erased_eq_of_render_eq`): two programs with the same canonical text
are the same up to places, however they were read.
-/

set_option autoImplicit false

namespace ExprLang

open Decoder

/-! ## What comes behind an expression -/

/-- The text does not go on with the expression in front of it, except by a call. -/
structure Behind (cs : List Char) : Prop where
  apart : Apart cs
  not_else : " else ".toList.isPrefixOf cs = false

theorem frontKind_blank (cs : List Char) : frontKind (' ' :: cs) = .illegal := rfl

variable {cs rest : List Char}

theorem apart_blank (cs : List Char) : Apart (' ' :: cs) := fun _ hc => Option.some.inj hc ▸ rfl

theorem Kind.joins_of_blank (kind : Kind) (cs : List Char) :
    ∀ c ∈ (' ' :: cs).head?, kind.joins c = false :=
  fun _ hc => Option.some.inj hc ▸ kind.joins_blank

theorem behind_cons {c : Char} (h : c.isAlphanum = false) (hne : c ≠ ' ') : Behind (c :: cs) := by
  refine ⟨fun d hd => Option.some.inj hd ▸ h, ?_⟩
  change (' ' == c && _) = false
  rw [beq_eq_false_iff_ne.2 (Ne.symm hne), Bool.false_and]

theorem behind_mark {c : Char} (kind : Kind) (h : (c, kind) ∈ marks) : Behind (c :: cs) := by
  have hall : ∀ entry ∈ marks, entry.1.isAlphanum = false ∧ entry.1 ≠ ' ' := by decide
  exact behind_cons (hall _ h).1 (hall _ h).2

theorem behind_blank (h : frontKind cs ≠ .elseKeyword) : Behind (' ' :: cs) := by
  refine ⟨apart_blank cs, eq_false_of_ne_true fun helse => h ?_⟩
  obtain ⟨more, hmore⟩ := List.isPrefixOf_iff_prefix.1 helse
  have hcs : cs = "else".toList ++ ' ' :: more := (List.cons.inj hmore).2.symm
  rw [hcs]
  exact frontKind_append (t := .mark .elseKeyword "else") rfl (Kind.joins_of_blank _ _)

theorem behind_operator {t : Token} (hk : t.kind ∈ Kind.binaryOperators)
    (hs : t.isSpelled = true) : Behind (t.literal.toList ++ cs) := by
  have hapart : Apart (t.literal.toList ++ cs) := Token.apart_operator hk hs
  have hfront : frontKind (t.literal.toList ++ cs) = t.kind :=
    frontKind_append hs fun c _ => Kind.joins_of_mem_binaryOperators hk c
  cases htext : t.literal.toList ++ cs with
  | nil =>
    rw [htext] at hfront
    exact absurd (hfront ▸ hk) (by decide)
  | cons c ds =>
    rw [htext] at hapart hfront
    refine behind_cons (hapart c rfl) ?_
    rintro rfl
    rw [frontKind_blank] at hfront
    exact absurd (hfront ▸ hk) (by decide)

/-! ## How a canonical text starts -/

/-- The token is spelled as its kind asks for, unless it is of no kind at all. -/
def Token.WellSpelled (t : Token) : Prop := t.kind ≠ .illegal → t.isSpelled = true

open Token (WellSpelled)

/-- The kinds that the canonical text of an expression can start with. -/
def Kind.heads : List Kind :=
  [.identifier, .integer, .trueKeyword, .falseKeyword, .openParen, .ifKeyword, .fnKeyword]

theorem frontKind_ne_heads_of_equals (cs : List Char) : frontKind ('=' :: cs) ∉ Kind.heads := by
  by_cases h : cs.head? = some '='
  · obtain ⟨ds, rfl⟩ := List.head?_eq_some_iff.1 h
    have hfront : frontKind ('=' :: '=' :: ds) = .equals :=
      frontKind_append (t := .mark .equals "==") (by decide +kernel) fun _ _ => rfl
    rw [hfront]
    decide
  · have hfront : frontKind ('=' :: cs) = .assignment :=
      frontKind_append (t := .mark .assignment "=") (by decide +kernel) fun c hc =>
        beq_eq_false_iff_ne.2 fun he => h (he ▸ hc)
    rw [hfront]
    decide

/-- An operator does not join the text of an expression. -/
theorem joins_of_heads {kind : Kind} (hk : kind ∈ Kind.unaryOperators)
    (h : frontKind cs ∈ Kind.heads) : ∀ c ∈ cs.head?, kind.joins c = false := by
  intro c hc
  obtain ⟨ds, rfl⟩ := List.head?_eq_some_iff.1 hc
  have hne : c ≠ '=' := fun he => frontKind_ne_heads_of_equals ds (he ▸ h)
  simp only [Kind.unaryOperators, List.mem_cons, List.not_mem_nil, or_false] at hk
  rcases hk with rfl | rfl
  · -- only `!` could be joined, by a `=`
    exact beq_eq_false_iff_ne.2 hne
  · rfl

/-- A word, a number or a mark other than `=` and `!` stands at the front of a text. -/
theorem frontKind_word {t : Token} {kind : Kind} (ht : t.WellSpelled) (hk : t.kind = kind)
    (hne : kind ∉ [.illegal, .assignment, .not]) (hcs : Apart cs) :
    frontKind (t.literal.toList ++ cs) = kind := by
  subst hk
  simp only [List.mem_cons, List.not_mem_nil, or_false, not_or] at hne
  exact frontKind_append (ht hne.1) (hcs.joins hne.2)

theorem reads_word_bind {β : Type} {f : Nat → Token → Decoder β} {b : β} {t : Token} {kind : Kind}
    (ht : t.WellSpelled) (hk : t.kind = kind) (hne : kind ∉ [.illegal, .assignment, .not])
    (hcs : Apart cs) (hf : Reads (fun fuel => f fuel t.bare) cs b rest) :
    Reads (fun fuel => Decoder.token >>= f fuel) (t.literal.toList ++ cs) b rest := by
  subst hk
  simp only [List.mem_cons, List.not_mem_nil, or_false, not_or] at hne
  exact reads_bind (token_append (ht hne.1) (hcs.joins hne.2)) hf

theorem Identifier.frontKind_value {x : Identifier} (hx : x.BuiltFrom WellSpelled)
    (hcs : Apart cs) : frontKind (x.value.toList ++ cs) = .identifier := by
  rw [hx.value, frontKind_word hx.token hx.kind (by decide) hcs]

theorem Expr.frontKind_render : (e : Expr) → e.BuiltFrom WellSpelled →
    ∀ {cs : List Char}, Apart cs → frontKind (e.render.toList ++ cs) ∈ Kind.heads
  | .identifier x, he, cs, hcs => by
    rw [render, x.frontKind_value he hcs]
    decide
  | .integer t v, ⟨ht, hk, _⟩, cs, hcs => by
    rw [render, frontKind_word ht hk (by decide) hcs]
    decide
  | .boolean t true, _, cs, hcs => by
    have hfront := frontKind_append (t := .mark .trueKeyword "true") (by decide +kernel)
      (hcs.joins (by decide))
    simp only [render, if_true]
    rw [show frontKind ("true".toList ++ cs) = .trueKeyword from hfront]
    decide
  | .boolean t false, _, cs, hcs => by
    have hfront := frontKind_append (t := .mark .falseKeyword "false") (by decide +kernel)
      (hcs.joins (by decide))
    simp only [render, Bool.false_eq_true, if_false]
    rw [show frontKind ("false".toList ++ cs) = .falseKeyword from hfront]
    decide
  | .unary _ _ _, _, cs, _ | .binary _ _ _ _, _, cs, _ => by
    have hfront (more : List Char) : frontKind ('(' :: more) = .openParen :=
      frontKind_mark (by decide) more
    simp only [render, String.toList_append, List.append_assoc]
    rw [show "(".toList = ['('] from rfl, List.cons_append, hfront]
    decide
  | .conditional _ _ _ _, _, cs, _ => by
    have hfront (more : List Char) : frontKind ("if".toList ++ ' ' :: '(' :: more) = .ifKeyword :=
      frontKind_append (t := .mark .ifKeyword "if") (by decide +kernel) (Kind.joins_of_blank _ _)
    simp only [render, String.toList_append, List.append_assoc]
    change frontKind ("if".toList ++ ' ' :: '(' :: _) ∈ Kind.heads
    rw [hfront]
    decide
  | .call _ callee _, ⟨_, _, hcallee, _⟩, cs, _ => by
    simp only [render, String.toList_append, List.append_assoc]
    exact callee.frontKind_render hcallee (apart_toList rfl (by decide))
  | .function t _ _, ⟨ht, hk, _⟩, cs, _ => by
    simp only [render, String.toList_append, List.append_assoc]
    rw [frontKind_word ht hk (by decide) (apart_toList rfl (by decide))]
    decide

theorem Stmt.frontKind_render : (s : Stmt) → s.BuiltFrom WellSpelled →
    ∀ {cs : List Char}, Apart cs →
      frontKind (s.render.toList ++ cs) ∈ .letKeyword :: .returnKeyword :: Kind.heads
  | .binding t _ _, ⟨ht, hk, _⟩, cs, _ => by
    simp only [render, String.toList_append, List.append_assoc]
    rw [frontKind_word ht hk (by decide) (apart_toList rfl (by decide))]
    decide
  | .result t _, ⟨ht, hk, _⟩, cs, _ => by
    simp only [render, String.toList_append, List.append_assoc]
    rw [frontKind_word ht hk (by decide) (apart_toList rfl (by decide))]
    decide
  | .expression _ v, hv, cs, hcs => by
    rw [render]
    exact .tail _ (.tail _ (v.frontKind_render hv hcs))

/-! ## Operands -/

/-- The decoder takes `text` off wherever a mark follows that opens no call. -/
def ReadsBefore {α : Type} (d : Nat → Decoder α) (text : List Char) (a : α) : Prop :=
  ∀ (c : Char) (kind : Kind) (cs : List Char), (c, kind) ∈ marks → kind ≠ .openParen →
    Reads d (text ++ c :: cs) a (c :: cs)

/-- The expression is decoded in front of any text that does not go on with it but by calls. -/
def Expr.Decodes (e : Expr) : Prop :=
  ∀ ⦃cs rest : List Char⦄ ⦃x : Expr⦄, Behind cs →
    Reads (fun fuel => calls fuel e.erased) cs x rest →
    Reads expression (e.render.toList ++ cs) x rest

theorem Expr.decodes_of_operand {e : Expr}
    (h : ∀ {cs : List Char}, Behind cs → Reads operand (e.render.toList ++ cs) e.erased cs) :
    e.Decodes := by
  intro cs rest x hcs hcalls
  refine .of_succ ?_
  simp only [Decoder.expression]
  exact (h hcs).bind hcalls

theorem reads_calls_end {e : Expr} (h : frontKind cs ≠ .openParen) :
    Reads (fun fuel => calls fuel e) cs e cs := by
  refine .of_succ ?_
  simp only [calls]
  exact reads_if_neg h (reads_pure e cs)

theorem Expr.Decodes.all {e : Expr} (h : e.Decodes) (hcs : Behind cs)
    (hfront : frontKind cs ≠ .openParen) :
    Reads expression (e.render.toList ++ cs) e.erased cs :=
  h hcs (reads_calls_end hfront)

theorem Expr.Decodes.before {e : Expr} (h : e.Decodes) :
    ReadsBefore expression e.render.toList e.erased :=
  fun _ kind _ hm hne => h.all (behind_mark kind hm) (by rwa [frontKind_mark hm])

theorem literal_of_kind {t : Token} {kind : Kind} (literal : String) (ht : t.WellSpelled)
    (hk : t.kind = kind) (hne : kind ≠ .illegal) (h : (literal, kind) ∈ Kind.fixedSpellings) :
    t.literal = literal :=
  Token.literal_eq literal (Token.isProper_singleton_iff.2 ⟨hk, ht (hk ▸ hne)⟩) h

theorem reads_name {x : Identifier} (hx : x.BuiltFrom WellSpelled) (hcs : Apart cs) :
    Reads (fun _ => name) (x.value.toList ++ cs) x.erased cs := by
  have hname : Identifier.ofToken x.token.bare = x.erased :=
    congrArg (Identifier.mk x.token.bare) hx.value.symm
  rw [hx.value, ← hname]
  exact reads_word_bind hx.token hx.kind (by decide) hcs (reads_pure _ cs)

theorem Expr.decodes_identifier {x : Identifier} (hx : x.BuiltFrom WellSpelled) :
    (Expr.identifier x).Decodes := by
  refine decodes_of_operand fun {cs} hcs => .of_succ ?_
  have hk : x.token.bare.kind = .identifier := hx.kind
  have hname : Expr.identifier (.ofToken x.token.bare) = (Expr.identifier x).erased := by
    rw [erased, mapTokens, Identifier.mapTokens, hx.value]
    rfl
  simp only [operand, render, hx.value]
  refine reads_word_bind hx.token hx.kind (by decide) hcs.apart ?_
  simp only [hk, hname]
  exact reads_pure _ cs

theorem Expr.decodes_integer {t : Token} {v : Int64}
    (h : (Expr.integer t v).BuiltFrom WellSpelled) : (Expr.integer t v).Decodes := by
  obtain ⟨ht, hk, rfl⟩ := h
  refine decodes_of_operand fun {cs} hcs => .of_succ ?_
  have hbare : t.bare.kind = .integer := hk
  simp only [operand, render]
  refine reads_word_bind ht hk (by decide) hcs.apart ?_
  simp only [hbare]
  exact reads_pure _ cs

theorem Expr.decodes_boolean {t : Token} {v : Bool}
    (h : (Expr.boolean t v).BuiltFrom WellSpelled) : (Expr.boolean t v).Decodes := by
  obtain ⟨ht, hk⟩ := h
  refine decodes_of_operand fun {cs} hcs => .of_succ ?_
  cases v with
  | true =>
    have hbare : t.bare.kind = .trueKeyword := hk
    have hl := literal_of_kind "true" ht hk (by decide) (by decide +kernel)
    simp only [operand, render, if_true, ← hl]
    refine reads_word_bind ht hk (by decide) hcs.apart ?_
    simp only [hbare]
    exact reads_pure _ cs
  | false =>
    have hbare : t.bare.kind = .falseKeyword := hk
    have hl := literal_of_kind "false" ht hk (by decide) (by decide +kernel)
    simp only [operand, render, Bool.false_eq_true, if_false, ← hl]
    refine reads_word_bind ht hk (by decide) hcs.apart ?_
    simp only [hbare]
    exact reads_pure _ cs

/-- An operand that starts with a parenthesis is an operation. -/
theorem reads_operand_of_operation {e : Expr} (h : Reads operation cs e rest) :
    Reads operand ('(' :: cs) e rest := by
  refine .of_succ ?_
  simp only [operand]
  exact reads_bind (token_mark (show ('(', Kind.openParen) ∈ marks by decide) cs) h

theorem Expr.decodes_unary {t : Token} {op : String} {r : Expr}
    (h : (Expr.unary t op r).BuiltFrom WellSpelled) (hr : r.Decodes) :
    (Expr.unary t op r).Decodes := by
  obtain ⟨ht, hk, rfl, hbuilt⟩ := h
  refine decodes_of_operand fun {cs} hcs => ?_
  have hs : t.isSpelled = true := ht fun hi => absurd (hi ▸ hk) (by decide)
  have htext : (Expr.unary t t.literal r).render.toList ++ cs =
      '(' :: (t.literal.toList ++ (r.render.toList ++ ')' :: cs)) := by
    simp [render]
  have hclose : Behind (')' :: cs) := behind_mark .closeParen (by decide)
  have hjoins := joins_of_heads hk (r.frontKind_render hbuilt hclose.apart)
  rw [htext]
  refine reads_operand_of_operation (.of_succ ?_)
  simp only [operation]
  refine reads_if_pos (by rwa [frontKind_append hs hjoins]) ?_
  refine reads_bind (token_append hs hjoins) ?_
  refine (hr.before ')' .closeParen cs (by decide) (by decide)).bind ?_
  exact reads_mark_bind (by decide) (reads_pure _ cs)

theorem Expr.decodes_binary {t : Token} {op : String} {l r : Expr}
    (h : (Expr.binary t l op r).BuiltFrom WellSpelled) (hl : l.Decodes) (hr : r.Decodes) :
    (Expr.binary t l op r).Decodes := by
  obtain ⟨ht, hk, rfl, hbuilt, -⟩ := h
  refine decodes_of_operand fun {cs} hcs => ?_
  have hs : t.isSpelled = true := ht fun hi => absurd (hi ▸ hk) (by decide)
  have htext : (Expr.binary t l t.literal r).render.toList ++ cs =
      '(' :: (l.render.toList ++ (t.literal.toList ++ (r.render.toList ++ ')' :: cs))) := by
    simp [render]
  have hjoins : ∀ c ∈ (r.render.toList ++ ')' :: cs).head?, t.kind.joins c = false :=
    fun c _ => Kind.joins_of_mem_binaryOperators hk c
  have hbehind : Behind (t.literal.toList ++ (r.render.toList ++ ')' :: cs)) :=
    behind_operator hk hs
  have hheads := l.frontKind_render hbuilt hbehind.apart
  rw [htext]
  refine reads_operand_of_operation (.of_succ ?_)
  simp only [operation]
  refine reads_if_neg (fun hu => ?_) ?_
  · -- the text of an expression starts with no unary operator, so this is no unary operation
    revert hheads hu
    generalize frontKind _ = kind
    cases kind <;> decide
  refine (hl.all hbehind ?_).bind ?_
  · rw [frontKind_append hs hjoins]
    exact fun he => absurd (he ▸ hk) (by decide)
  refine reads_bind (token_append hs hjoins) ?_
  refine (hr.before ')' .closeParen cs (by decide) (by decide)).bind ?_
  exact reads_mark_bind (by decide) (reads_pure _ cs)

/-! ## Lists -/

section
variable {α γ : Type} {text : γ → String} {out : γ → α} {item : Nat → Decoder α}

theorem reads_items (x : γ) (xs : List γ)
    (h : ∀ y ∈ x :: xs, ReadsBefore item (text y).toList (out y)) :
    Reads (fun fuel => items (item fuel) fuel)
      ((commaSeparated ((x :: xs).map text)).toList ++ ')' :: cs) ((x :: xs).map out) cs := by
  have hclose : (')', Kind.closeParen) ∈ marks := by decide
  have hcomma : (',', Kind.comma) ∈ marks := by decide
  induction xs generalizing x item with
  | nil =>
    have hx := (h x (.head _) ')' .closeParen cs hclose (by decide)).shift
    refine .of_succ ?_
    simp only [items]
    refine hx.bind (reads_if_neg ?_ (reads_mark_bind hclose (reads_pure _ cs)))
    rw [frontKind_mark hclose]
    decide
  | cons y ys ih =>
    have hx (cs : List Char) := (h x (.head _) ',' .comma cs hcomma (by decide)).shift
    have hmore := ih y fun z hz c kind cs hm hne => (h z (.tail _ hz) c kind cs hm hne).shift
    refine .of_succ ?_
    simp only [items, List.map_cons, commaSeparated, String.toList_append, List.append_assoc]
    exact (hx _).bind (reads_if_pos (frontKind_mark hcomma _) (reads_mark_bind hcomma hmore.map))

theorem exists_commaSeparated (x : String) (xs : List String) (cs : List Char) :
    ∃ more, (commaSeparated (x :: xs)).toList ++ ')' :: cs = x.toList ++ more ∧ Apart more := by
  cases xs with
  | nil => exact ⟨')' :: cs, rfl, (behind_mark .closeParen (by decide)).apart⟩
  | cons y ys =>
    refine ⟨',' :: ((commaSeparated (y :: ys)).toList ++ ')' :: cs), by simp [commaSeparated], ?_⟩
    exact (behind_mark .comma (by decide)).apart

theorem reads_list (xs : List γ) (h : ∀ y ∈ xs, ReadsBefore item (text y).toList (out y))
    (hfront : ∀ y ∈ xs, ∀ cs : List Char, Apart cs →
      frontKind ((text y).toList ++ cs) ≠ .closeParen) :
    Reads (fun fuel => list (item fuel) fuel) ((commaSeparated (xs.map text)).toList ++ ')' :: cs)
      (xs.map out) cs := by
  have hclose : (')', Kind.closeParen) ∈ marks := by decide
  cases xs with
  | nil => exact reads_if_pos (frontKind_mark hclose cs) (reads_mark_bind hclose (reads_pure _ cs))
  | cons x xs =>
    obtain ⟨more, hmore, hapart⟩ := exists_commaSeparated (text x) (xs.map text) cs
    refine reads_if_neg ?_ (reads_items x xs h)
    rw [List.map_cons, hmore]
    exact hfront x (.head _) more hapart

end

/-! ## Nodes -/

theorem reads_alternative_none (hcs : Behind cs) : Reads alternative cs none cs := by
  refine .of_succ ?_
  simp only [alternative]
  refine reads_bind rfl ?_
  simp only [hcs.not_else, Bool.false_eq_true, if_false]
  exact reads_pure none cs

theorem reads_alternative_some {b : Block}
    (hb : Reads block (b.render.toList ++ cs) b.erased cs) :
    Reads alternative ((renderElse (some b)).toList ++ cs) (some b.erased) cs := by
  have htext : (renderElse (some b)).toList ++ cs =
      " else ".toList ++ (b.render.toList ++ cs) := by
    simp [renderElse]
  have helse : " else ".toList.isPrefixOf (" else ".toList ++ (b.render.toList ++ cs)) = true :=
    List.isPrefixOf_iff_prefix.2 (List.prefix_append _ _)
  rw [htext]
  refine .of_succ ?_
  simp only [alternative]
  refine reads_bind rfl ?_
  simp only [helse, if_true]
  refine reads_char_bind ?_
  refine reads_bind (mark_append (t := .mark .elseKeyword "else") (by decide +kernel) ?_) ?_
  · exact Kind.joins_of_blank _ _
  · exact reads_char_bind hb.map

theorem Expr.decodes_call {t : Token} {f : Expr} {es : List Expr}
    (h : (Expr.call t f es).BuiltFrom WellSpelled) (hf : f.Decodes) (hes : ∀ e ∈ es, e.Decodes) :
    (Expr.call t f es).Decodes := by
  obtain ⟨ht, hk, -, hbuilt⟩ := h
  intro cs rest x hcs hcalls
  have hbare : t.bare = .mark .openParen "(" :=
    Token.bare_eq_mark hk (ht (by rw [hk]; decide)) (by decide +kernel)
  have htext : (Expr.call t f es).render.toList ++ cs = f.render.toList ++
      '(' :: ((commaSeparated (es.map Expr.render)).toList ++ ')' :: cs) := by
    simp [render, renderEach_eq_map]
  have harguments : Reads (fun fuel => list (Decoder.expression fuel) fuel)
      ((commaSeparated (es.map Expr.render)).toList ++ ')' :: cs) (es.map Expr.erased) cs :=
    reads_list es (fun e he => (hes e he).before) fun e he cs hapart hclose => by
      have hheads := e.frontKind_render (builtFromEach_iff.1 hbuilt e he) hapart
      rw [hclose] at hheads
      exact absurd hheads (by decide)
  rw [htext]
  -- the callee is decoded in front of its call, and what comes behind is left to `calls` again
  refine hf (behind_mark .openParen (by decide)) (.of_succ ?_)
  simp only [calls]
  refine reads_if_pos (frontKind_mark (by decide) _) ?_
  refine reads_bind (token_mark (show ('(', Kind.openParen) ∈ marks by decide) _) ?_
  refine harguments.bind ?_
  have hcall : Expr.call (.mark .openParen "(") f.erased (es.map Expr.erased) =
      (Expr.call t f es).erased := by
    have hes : es.map Expr.erased = erasedEach es := (mapTokensEach_eq_map _ _ es).symm
    rw [hes, ← hbare]
    rfl
  rw [← hcall] at hcalls
  exact hcalls

theorem Expr.decodes_function {t : Token} {xs : List Identifier} {b : Block}
    (h : (Expr.function t xs b).BuiltFrom WellSpelled)
    (hb : ∀ {cs : List Char}, Reads block (b.render.toList ++ cs) b.erased cs) :
    (Expr.function t xs b).Decodes := by
  obtain ⟨ht, hk, hxs, -⟩ := h
  refine decodes_of_operand fun {cs} hcs => .of_succ ?_
  have hbare : t.bare.kind = .fnKeyword := hk
  have htext : (Expr.function t xs b).render.toList ++ cs = t.literal.toList ++
      '(' :: ((commaSeparated (xs.map Identifier.value)).toList ++
        ')' :: ' ' :: (b.render.toList ++ cs)) := by
    simp [render]
  have hnames : Reads (fun fuel => list name fuel)
      ((commaSeparated (xs.map Identifier.value)).toList ++ ')' :: ' ' :: (b.render.toList ++ cs))
      (xs.map Identifier.erased) (' ' :: (b.render.toList ++ cs)) := by
    refine reads_list xs (fun x hx c kind cs hm _ => ?_) fun x hx cs hapart => ?_
    · exact reads_name (hxs x hx) (behind_mark kind hm).apart
    · rw [x.frontKind_value (hxs x hx) hapart]
      decide
  rw [htext]
  simp only [operand]
  refine reads_word_bind ht hk (by decide) (behind_mark .openParen (by decide)).apart ?_
  simp only [hbare]
  refine reads_mark_bind (by decide) (hnames.bind (reads_char_bind ?_))
  exact hb.map

theorem Expr.decodes_conditional {t : Token} {c : Expr} {b : Block} {a : Option Block}
    (h : (Expr.conditional t c b a).BuiltFrom WellSpelled) (hc : c.Decodes)
    (hb : ∀ {cs : List Char}, Reads block (b.render.toList ++ cs) b.erased cs)
    (ha : ∀ {cs : List Char}, Behind cs →
      Reads alternative ((renderElse a).toList ++ cs) (erasedElse a) cs) :
    (Expr.conditional t c b a).Decodes := by
  obtain ⟨ht, hk, -⟩ := h
  refine decodes_of_operand fun {cs} hcs => .of_succ ?_
  have hbare : t.bare.kind = .ifKeyword := hk
  have hl := literal_of_kind "if" ht hk (by decide) (by decide +kernel)
  have htext : (Expr.conditional t c b a).render.toList ++ cs = t.literal.toList ++
      ' ' :: '(' :: (c.render.toList ++
        ')' :: ' ' :: (b.render.toList ++ ((renderElse a).toList ++ cs))) := by
    simp [render, hl]
  rw [htext]
  simp only [operand]
  refine reads_word_bind ht hk (by decide) (apart_blank _) ?_
  simp only [hbare]
  refine reads_char_bind (reads_mark_bind (by decide) ?_)
  refine (hc.before ')' .closeParen _ (by decide) (by decide)).bind ?_
  refine reads_mark_bind (by decide) (reads_char_bind (hb.bind ?_))
  exact (ha hcs).map

theorem reads_block {t : Token} {ss : List Stmt} (h : (Block.mk t ss).BuiltFrom WellSpelled)
    (hss : ∀ {cs : List Char},
      Reads body ((renderBody ss).toList ++ '\x7d' :: cs) (erasedBody ss) cs) :
    Reads block ((Block.mk t ss).render.toList ++ cs) (Block.mk t ss).erased cs := by
  obtain ⟨ht, hk, -⟩ := h
  have hl := literal_of_kind "\x7b" ht hk (by decide) (by decide +kernel)
  have htext : (Block.mk t ss).render.toList ++ cs =
      t.literal.toList ++ ' ' :: ((renderBody ss).toList ++ '\x7d' :: cs) := by
    simp [Block.render, hl]
  rw [htext]
  refine .of_succ ?_
  simp only [block]
  refine reads_word_bind ht hk (by decide) (apart_blank _) ?_
  exact reads_char_bind hss.map

/-! ## Statements -/

/-- The statement is decoded in front of any text that does not go on with it. -/
def Stmt.Decodes (s : Stmt) : Prop :=
  ∀ ⦃cs : List Char⦄, Behind cs → frontKind cs ≠ .openParen →
    Reads statement (s.render.toList ++ cs) s.erased cs

theorem Stmt.decodes_binding {t : Token} {x : Identifier} {v : Expr}
    (h : (Stmt.binding t x v).BuiltFrom WellSpelled) (hv : v.Decodes) :
    (Stmt.binding t x v).Decodes := by
  obtain ⟨ht, hk, hx, -⟩ := h
  intro cs _ _
  have htext : (Stmt.binding t x v).render.toList ++ cs = t.literal.toList ++
      ' ' :: (x.value.toList ++ ' ' :: '=' :: ' ' :: (v.render.toList ++ ';' :: cs)) := by
    simp [render]
  rw [htext]
  refine .of_succ ?_
  simp only [Decoder.statement]
  refine reads_if_pos (frontKind_word ht hk (by decide) (apart_blank _)) ?_
  refine reads_word_bind ht hk (by decide) (apart_blank _) (reads_char_bind ?_)
  refine (reads_name hx (apart_blank _)).bind (reads_char_bind ?_)
  refine reads_bind (mark_append (t := .mark .assignment "=") (by decide +kernel) ?_) ?_
  · exact Kind.joins_of_blank _ _
  refine reads_char_bind ((hv.before ';' .semicolon cs (by decide) (by decide)).bind ?_)
  exact reads_mark_bind (by decide) (reads_pure _ cs)

theorem Stmt.decodes_result {t : Token} {v : Expr} (h : (Stmt.result t v).BuiltFrom WellSpelled)
    (hv : v.Decodes) : (Stmt.result t v).Decodes := by
  obtain ⟨ht, hk, -⟩ := h
  intro cs _ _
  have htext : (Stmt.result t v).render.toList ++ cs =
      t.literal.toList ++ ' ' :: (v.render.toList ++ ';' :: cs) := by
    simp [render]
  have hfront := frontKind_word ht hk (by decide) (apart_blank (v.render.toList ++ ';' :: cs))
  rw [htext]
  refine .of_succ ?_
  simp only [Decoder.statement]
  refine reads_if_neg (by rw [hfront]; decide) (reads_if_pos hfront ?_)
  refine reads_word_bind ht hk (by decide) (apart_blank _) (reads_char_bind ?_)
  refine (hv.before ';' .semicolon cs (by decide) (by decide)).bind ?_
  exact reads_mark_bind (by decide) (reads_pure _ cs)

theorem Stmt.decodes_expression {t : Token} {v : Expr} (h : v.BuiltFrom WellSpelled)
    (hv : v.Decodes) : (Stmt.expression t v).Decodes := by
  intro cs hcs hparen
  have hheads := v.frontKind_render h hcs.apart
  refine .of_succ ?_
  simp only [Decoder.statement, render]
  refine reads_if_neg (fun hk => ?_) (reads_if_neg (fun hk => ?_) (hv.all hcs hparen).map)
  · exact absurd (hk ▸ hheads) (by decide)
  · exact absurd (hk ▸ hheads) (by decide)

theorem frontKind_renderBody {ss : List Stmt} (hss : BuiltFromBody WellSpelled ss)
    (cs : List Char) :
    frontKind ((renderBody ss).toList ++ '\x7d' :: cs) ∈
      .closeCurly :: .letKeyword :: .returnKeyword :: Kind.heads := by
  cases ss with
  | nil =>
    have hfront : frontKind ('\x7d' :: cs) = .closeCurly := frontKind_mark (by decide) cs
    rw [renderBody, show "".toList = [] from rfl, List.nil_append, hfront]
    decide
  | cons s ss =>
    simp only [renderBody, String.toList_append, List.append_assoc]
    exact .tail _ (s.frontKind_render hss.1 (apart_toList rfl (by decide)))

theorem reads_body {ss : List Stmt} (hss : BuiltFromBody WellSpelled ss) (h : ∀ s ∈ ss, s.Decodes) :
    Reads body ((renderBody ss).toList ++ '\x7d' :: cs) (erasedBody ss) cs := by
  have hclose : ('\x7d', Kind.closeCurly) ∈ marks := by decide
  induction ss with
  | nil =>
    refine .of_succ ?_
    simp only [body]
    exact reads_if_pos (frontKind_mark hclose cs) (reads_mark_bind hclose (reads_pure _ cs))
  | cons s ss ih =>
    obtain ⟨hs, hss⟩ := hss
    have hmore := frontKind_renderBody hss cs
    -- the blank behind a statement does not start an alternative: no statement starts with `else`
    have hbehind : Behind (' ' :: ((renderBody ss).toList ++ '\x7d' :: cs)) :=
      behind_blank fun he => absurd (he ▸ hmore) (by decide)
    have hfront := s.frontKind_render hs hbehind.apart
    have htext : (renderBody (s :: ss)).toList ++ '\x7d' :: cs =
        s.render.toList ++ ' ' :: ((renderBody ss).toList ++ '\x7d' :: cs) := by
      simp [renderBody]
    rw [htext]
    refine .of_succ ?_
    simp only [body]
    refine reads_if_neg (fun hk => absurd (hk ▸ hfront) (by decide)) ?_
    refine (h s (.head _) hbehind (by rw [frontKind_blank]; decide)).bind (reads_char_bind ?_)
    exact (ih hss fun r hr => h r (.tail _ hr)).map

/-! ## All trees -/

mutual

theorem Expr.decodes : (e : Expr) → e.BuiltFrom WellSpelled → e.Decodes
  | .identifier _, h => Expr.decodes_identifier h
  | .integer _ _, h => Expr.decodes_integer h
  | .boolean _ _, h => Expr.decodes_boolean h
  | .unary _ _ r, h => Expr.decodes_unary h (r.decodes h.2.2.2)
  | .binary _ l _ r, h => Expr.decodes_binary h (l.decodes h.2.2.2.1) (r.decodes h.2.2.2.2)
  | .conditional _ c b a, h =>
    Expr.decodes_conditional h (c.decodes h.2.2.1) (b.decodes h.2.2.2.1) (decodesElse a h.2.2.2.2)
  | .call _ f es, h => Expr.decodes_call h (f.decodes h.2.2.1) (decodesEach es h.2.2.2)
  | .function _ _ b, h => Expr.decodes_function h (b.decodes h.2.2.2)

theorem Block.decodes : (b : Block) → b.BuiltFrom WellSpelled → ∀ {cs : List Char},
    Reads block (b.render.toList ++ cs) b.erased cs
  | .mk _ ss, h, _ => reads_block h (reads_body h.2.2 (decodesBody ss h.2.2))

theorem Stmt.decodes : (s : Stmt) → s.BuiltFrom WellSpelled → s.Decodes
  | .binding _ _ v, h => Stmt.decodes_binding h (v.decodes h.2.2.2)
  | .result _ v, h => Stmt.decodes_result h (v.decodes h.2.2)
  | .expression _ v, h => Stmt.decodes_expression h (v.decodes h)

theorem decodesEach : (es : List Expr) → BuiltFromEach WellSpelled es → ∀ e ∈ es, e.Decodes
  | [], _ => fun _ he => absurd he List.not_mem_nil
  | e :: es, h => List.forall_mem_cons.2 ⟨e.decodes h.1, decodesEach es h.2⟩

theorem decodesBody : (ss : List Stmt) → BuiltFromBody WellSpelled ss → ∀ s ∈ ss, s.Decodes
  | [], _ => fun _ hs => absurd hs List.not_mem_nil
  | s :: ss, h => List.forall_mem_cons.2 ⟨s.decodes h.1, decodesBody ss h.2⟩

theorem decodesElse : (a : Option Block) → BuiltFromElse WellSpelled a →
    ∀ {cs : List Char}, Behind cs →
      Reads alternative ((renderElse a).toList ++ cs) (erasedElse a) cs
  | none, _, _, hcs => reads_alternative_none hcs
  | some b, h, _, _ => reads_alternative_some (b.decodes h)

end

/-! ## Programs -/

theorem reads_lines : (ss : List Stmt) → BuiltFromBody WellSpelled ss →
    Reads lines (renderLines ss).toList (erasedBody ss) []
  | [], _ => by
    refine .of_succ ?_
    simp only [lines]
    exact reads_if_pos rfl (reads_pure _ [])
  | s :: ss, h => by
    have hbehind : Behind ('\n' :: (renderLines ss).toList) := behind_cons rfl (by decide)
    have hfront := s.frontKind_render h.1 hbehind.apart
    have htext : (renderLines (s :: ss)).toList =
        s.render.toList ++ '\n' :: (renderLines ss).toList := by
      simp [renderLines]
    rw [htext]
    refine .of_succ ?_
    simp only [lines]
    refine reads_if_neg (fun hk => absurd (hk ▸ hfront) (by decide)) ?_
    refine ((s.decodes h.1) hbehind (show Kind.illegal ≠ .openParen by decide)).bind ?_
    exact reads_char_bind (reads_lines ss h.2).map

/-- The canonical text of a program shows all of it but what is erased. -/
theorem Program.erased_eq_of_builtFrom {P Q : Program} (hP : P.BuiltFrom WellSpelled)
    (hQ : Q.BuiltFrom WellSpelled) (h : P.render = Q.render) : P.erased = Q.erased := by
  have hfirst := reads_lines P.statements hP
  rw [show renderLines P.statements = renderLines Q.statements from h] at hfirst
  exact congrArg Program.mk (hfirst.unique (reads_lines Q.statements hQ)).1

/--
Two programs with the same canonical text are the same up to the places of tokens and the tokens of
expression statements, whatever sources they are read from and whatever errors these have.
-/
theorem erased_eq_of_render_eq {a b : String} {file file' : Option String}
    {options options' : Options}
    (h : (parse a file options).program.render = (parse b file' options').program.render) :
    (parse a file options).program.erased = (parse b file' options').program.erased := by
  exact Program.erased_eq_of_builtFrom (builtFrom_of_ahead (Parser.spelled_opened a file options))
    (builtFrom_of_ahead (Parser.spelled_opened b file' options')) h

/-- A stray character and a stray parenthesis behind two spellings of one program. -/
theorem erased_eq_of_render_eq_stray :
    let a := "let f = fn(x, y) \x7b (x - (y * 2)) \x7d; f(1)(!y) @"
    let b := "let f = fn(x,y) \x7b\n  x - y * 2\n\x7d; (f(1))(!y) )"
    let first := parse a none ⟨false⟩
    let second := parse b (some "spelled") ⟨true⟩
    first.program.render = second.program.render ∧ first.errors ≠ [] ∧ second.errors ≠ [] ∧
      first.program.statements.length = 2 ∧ first.program.erased = second.program.erased := by
  intro a b first second
  have h : first.program.render = second.program.render := by decide +kernel
  exact ⟨h, by decide +kernel, by decide +kernel, by decide +kernel, erased_eq_of_render_eq h⟩

end ExprLang
