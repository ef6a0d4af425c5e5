import ExprLang.Proofs.Parser.Exact
import ExprLang.Proofs.Rendering.Nesting
import ExprLang.Proofs.Rendering.Tokens

/-!
# Reading an expression back

An expression is `Readable` if the parser gets over its canonical text in every place where it can
stand: at the start of an expression (`reads`) and, if the text starts with a parenthesis, behind
another expression, which it is then taken to be a call of (`joins`). What comes behind it is left
open, since the loop that reads an expression goes on there, so both are stated for any
continuation of that loop. The parser enters as many levels as `need` says, in both places.
-/

set_option autoImplicit false

namespace ExprLang

open Step Rule

/-- The kind of the first token, which is the end of the source if there is none. -/
def headKind : List Token → Kind
  | [] => .eof
  | t :: _ => t.kind

namespace Parser

/-- The parser is in front of these tokens and can enter `room` more levels of expressions. -/
structure At (p : Parser) (room : Nat) (ts : List Token) : Prop where
  depth : p.depth + room = maxNestingDepth
  bare : p.ahead.map Token.bare = ts

variable {p q : Parser} {room : Nat} {t : Token} {ts : List Token}

theorem At.cons (h : p.At room (t :: ts)) : p.current.bare = t ∧ p.advance.At room ts := by
  obtain ⟨u, us, ha, hu, hus⟩ := List.map_eq_cons_iff.1 h.bare
  obtain ⟨hc, hr⟩ := current_of_ahead ha
  refine ⟨by rw [hc, hu], h.depth, ?_⟩
  rw [ahead_advance, hr, hus]

theorem At.kind_current (h : p.At room ts) : p.current.kind = headKind ts := by
  cases ts with
  | nil => exact kind_current_of_ahead_nil (List.map_eq_nil_iff.1 h.bare)
  | cons t ts =>
    rw [← h.cons.1]
    rfl

theorem At.kind_peek (h : p.advance.At room ts) : p.peek.kind = headKind ts := h.kind_current

theorem At.deepen (h : p.At (room + 1) ts) : p.deepen.At room ts := by
  refine ⟨?_, h.bare⟩
  have hd := h.depth
  show p.depth + 1 + room = maxNestingDepth
  omega

theorem At.leave (h : q.advance.At room ts) (hroom : room < maxNestingDepth) :
    q.leave.advance.At (room + 1) ts := by
  refine ⟨?_, h.bare⟩
  have hd : q.depth + room = maxNestingDepth := h.depth
  show q.depth - 1 + (room + 1) = maxNestingDepth
  omega

end Parser

open ExprLang.Parser

variable {p q : Parser} {room : Nat} {power : Power} {k : List Token} {c : Prop}
  {R : Expr → Parser → Prop}

/-- An expression inside another one takes one level, which there has to be. -/
theorem exact_expressionWithin {ts : List Token} {n : Nat} {S : Expr → Prop} (hp : p.At room ts)
    (hpos : 0 < n)
    (h : ∀ r, p.deepen.At r ts → (Rule.expression (expressionWithin r) power).Exact p.deepen
      (n ≤ r + 1) fun x q => S x ∧ q.advance.At r k) :
    (expressionWithin room power).Exact p (n ≤ room) fun x q => S x ∧ q.advance.At room k := by
  cases room with
  | zero => exact exact_fail.congr (iff_of_false id (by omega))
  | succ room =>
    have hd := hp.depth
    have hroom : room < maxNestingDepth := by omega
    refine (exact_enclosed (h room hp.deepen) fun x q hx => ⟨hx.1, hx.2.leave hroom⟩).congr ?_
    exact and_iff_right (by omega)

/-- The canonical text of the expression is read wherever it stands (module doc). -/
structure Expr.Readable (e : Expr) : Prop where
  starts : ∃ t ts, e.tokens = t :: ts ∧ t.kind.prefixRule?.isSome = true ∧
    if e.startsParen = true then t.kind = .openParen else t.kind.power = .lowest
  reads {room : Nat} {power : Power} {p : Parser} {k : List Token} {c : Prop}
    {R : Expr → Parser → Prop} : p.At room (e.tokens ++ k) → power < .call →
    headKind k ≠ .elseKeyword →
    (∀ x q, e.Rereads x → q.advance.At room k →
      (continued (expressionWithin room) power x).Exact q c R) →
    (Rule.expression (expressionWithin room) power).Exact p (e.need ≤ room + 1 ∧ c) R
  joins {room : Nat} {power : Power} {left : Expr} {p : Parser} {k : List Token} {c : Prop}
    {R : Expr → Parser → Prop} : e.startsParen = true → p.advance.At room (e.tokens ++ k) →
    power < .call →
    (∀ x q, Text.blanks x.render ≤ Text.blanks left.render + Text.blanks e.render →
      q.advance.At room k → (continued (expressionWithin room) power x).Exact q c R) →
    (continued (expressionWithin room) power left).Exact p (e.need ≤ room + 1 ∧ c) R

namespace Expr.Readable

variable {e : Expr}

/-- As an expression inside another one, in front of a token that does not continue it. -/
theorem nested (h : e.Readable) (power : Power) (hp : p.At room (e.tokens ++ k))
    (hpower : power < .call) (helse : headKind k ≠ .elseKeyword)
    (hstop : ¬ power < (headKind k).power) :
    (expressionWithin room power).Exact p (e.need ≤ room) fun x q =>
      e.Rereads x ∧ q.advance.At room k := by
  refine exact_expressionWithin hp e.need_pos fun room hp => ?_
  have hread := h.reads hp hpower helse fun x q hx hq =>
    exact_continued_stop (steady_expressionWithin room) (by rwa [hq.kind_peek])
      (show e.Rereads x ∧ q.advance.At room k from ⟨hx, hq⟩)
  exact hread.congr (and_iff_left trivial)

end Expr.Readable

/-- An expression that one rule reads up to its end. -/
theorem Expr.readable_of_start {e : Expr} (hparen : e.startsParen = false)
    (hstarts : ∃ t ts, e.tokens = t :: ts ∧ t.kind.prefixRule?.isSome = true ∧
      t.kind.power = .lowest)
    (h : ∀ {room : Nat} {p : Parser} {k : List Token}, p.At room (e.tokens ++ k) →
      headKind k ≠ .elseKeyword → (start (expressionWithin room)).Exact p (e.need ≤ room + 1)
        fun x q => e.Rereads x ∧ q.advance.At room k) : e.Readable where
  starts := by
    obtain ⟨t, ts, ht, hrule, hpower⟩ := hstarts
    exact ⟨t, ts, ht, hrule, by rwa [if_neg (by simp [hparen])]⟩
  reads := by
    intro room power p k c R hp _ helse hk
    have hn := steady_expressionWithin room
    rw [expression_eq]
    exact (h hp helse).bind (steady_start hn) (fun _ => steady_continued hn _ _)
      fun x q hx => hk x q hx.1 hx.2
  joins := by
    intro room power left p k c R hstart
    rw [hparen] at hstart
    cases hstart

/-! ## Words and numbers -/

theorem Expr.Rereads.of_leaf {e x : Expr} (hs : e.isSettled = true) (he : x.erased = e.erased)
    (hr : x.render = e.render) : e.Rereads x := .inl ⟨hs, he, by rw [hr]⟩

theorem Expr.readable_identifier {x : Identifier} (h : x.isWellFormed = true) :
    (Expr.identifier x).Readable := by
  have hk := x.kind_token h
  have hkind : x.token.bare.kind = .identifier := hk
  refine readable_of_start rfl ⟨_, _, rfl, by rw [hkind]; rfl, by rw [hkind]; rfl⟩ ?_
  intro room p k hp _
  obtain ⟨hc, hrest⟩ := hp.cons
  have herased := x.erased_ofToken h hc
  refine exact_start .identifier (by rw [hp.kind_current]; exact List.mem_singleton.2 hk) ?_
  refine (exact_of_clean (clean_identifier_iff.2 ⟨rfl, rfl⟩) ⟨?_, hrest⟩).of_true
    (Nat.le_add_left 1 room)
  exact .of_leaf rfl (congrArg Expr.identifier herased) (Identifier.value_eq herased)

theorem Expr.readable_integer {t : Token} {v : Int64} (h : (Expr.integer t v).isWellFormed = true) :
    (Expr.integer t v).Readable := by
  rw [isWellFormed, Bool.and_eq_true, beq_iff_eq, Token.isProper_singleton_iff] at h
  obtain ⟨⟨hk, hs⟩, hv⟩ := h
  have hkind : t.bare.kind = .integer := hk
  refine readable_of_start rfl ⟨_, _, rfl, by rw [hkind]; rfl, by rw [hkind]; rfl⟩ ?_
  intro room p k hp _
  obtain ⟨hc, hrest⟩ := hp.cons
  obtain ⟨hkc, hlc⟩ := Token.bare_eq_iff.1 hc
  have hnum : Text.isNumeral t.literal = true := by
    simpa [Token.isSpelled, hk, Kind.allowsSpelling] using hs
  have hread : Text.readInt64? p.current.literal.toList = some v := by
    rw [hlc]
    exact (Text.readInt64?_eq_some_iff hnum).2 hv
  refine exact_start .integer (by rw [hkc, hk]; exact .head _) ?_
  refine (exact_of_clean (clean_integer_iff.2 ⟨v, hread, rfl, rfl⟩) ⟨?_, hrest⟩).of_true
    (Nat.le_add_left 1 room)
  refine .of_leaf rfl ?_ hlc
  show Expr.integer p.current.bare v = .integer t.bare v
  rw [hc]

theorem Expr.readable_boolean {t : Token} {v : Bool} (h : (Expr.boolean t v).isWellFormed = true) :
    (Expr.boolean t v).Readable := by
  rw [isWellFormed, Token.isProper_singleton_iff] at h
  have hkind : t.kind ∈ PrefixRule.boolean.kinds ∧ t.kind.power = .lowest ∧
      (t.kind == .trueKeyword) = v := by
    rw [h.1]
    cases v <;> decide
  obtain ⟨hrule, hpower, hv⟩ := hkind
  have hsome : t.kind.prefixRule?.isSome = true := by
    rw [Kind.prefixRule?_eq_some_iff.2 hrule]
    rfl
  refine readable_of_start rfl ⟨_, _, rfl, hsome, hpower⟩ ?_
  intro room p k hp _
  obtain ⟨hc, hrest⟩ := hp.cons
  have hkc := (Token.bare_eq_iff.1 hc).1
  refine exact_start .boolean (by rwa [hkc]) ?_
  refine (exact_of_clean (clean_boolean_iff.2 ⟨rfl, rfl⟩) ⟨?_, hrest⟩).of_true
    (Nat.le_add_left 1 room)
  rw [hkc, hv]
  refine .of_leaf rfl ?_ rfl
  show Expr.boolean p.current.bare v = .boolean t.bare v
  rw [hc]

/-! ## Operations -/

theorem headKind_append {ts us : List Token} {t : Token} (h : ts = t :: us) (k : List Token) :
    headKind (ts ++ k) = t.kind := by
  rw [h]
  rfl

/--
An operation is in parentheses. At the start of an expression they group, and behind another
expression they hold an argument.
-/
theorem Expr.readable_of_inside {e : Expr} (inside : List Token) (hparen : e.startsParen = true)
    (htokens : e.tokens = .mark .openParen "(" :: inside ++ [.mark .closeParen ")"])
    (hinside : ∃ t ts, inside = t :: ts ∧ t.kind ≠ .closeParen)
    (h : ∀ {room : Nat} {p : Parser} {k : List Token},
      p.At room (inside ++ .mark .closeParen ")" :: k) →
      (expressionWithin room .lowest).Exact p (e.need ≤ room + 1) fun x q =>
        e.Rereads x ∧ q.advance.At room (.mark .closeParen ")" :: k)) : e.Readable where
  starts := ⟨.mark .openParen "(", inside ++ [.mark .closeParen ")"], by rw [htokens]; rfl, rfl,
    by rw [if_pos hparen]; rfl⟩
  reads := by
    intro room power p k c R hp _ _ hk
    have hn := steady_expressionWithin room
    have hp' : p.At room (.mark .openParen "(" :: (inside ++ .mark .closeParen ")" :: k)) := by
      simpa [htokens] using hp
    obtain ⟨hc, hrest⟩ := hp'.cons
    rw [expression_eq]
    refine Exact.bind (steady_start hn) (fun _ => steady_continued hn _ _)
      (Q := fun x q => e.Rereads x ∧ q.advance.At room k) ?_ fun x q hx => hk x q hx.1 hx.2
    refine exact_start .grouping (by rw [hp'.kind_current]; exact .head _) ?_
    refine exact_advance_bind ((h hrest).bind_true (hn _) (fun _ => (steady_expect _).bind
      fun _ => steady_pure _) fun x q hx => ?_)
    exact exact_expect_bind hx.2.kind_peek (exact_pure ⟨hx.1, hx.2.cons.2⟩)
  joins := by
    intro room power left p k c R _ hp hpower hk
    have hn := steady_expressionWithin room
    have hp' : p.advance.At room
        (.mark .openParen "(" :: (inside ++ .mark .closeParen ")" :: k)) := by
      simpa [htokens] using hp
    have hpeek : p.peek.kind = .openParen := hp'.kind_peek
    obtain ⟨t, ts, rfl, ht⟩ := hinside
    have hfirst : p.advance.peek.kind ≠ .closeParen := by
      rw [hp'.cons.2.kind_peek]
      exact ht
    refine exact_continued_extend hn .call (by rw [hpeek]; exact hpower)
      (by rw [hpeek]; rfl) (Q := fun x q => Text.blanks x.render ≤
        Text.blanks left.render + Text.blanks e.render ∧ q.advance.At room k) ?_
      fun x q hx => hk x q hx.1 hx.2
    refine exact_current_bind (Exact.map (steady_arguments hn) (Q := fun xs q =>
      Text.blanks (commaSeparated (renderEach xs)) ≤ Text.blanks e.render ∧ q.advance.At room k)
      ?_ ?_)
    · refine (exact_arguments_cons hn hfirst (h hp'.cons.2) fun x q hx =>
        exact_moreArguments_close hn hx.2.kind_peek ⟨?_, hx.2.cons.2⟩).congr (and_iff_left trivial)
      simpa [renderEach, commaSeparated] using hx.1.le
    · intro xs q hx
      refine ⟨?_, hx.2⟩
      have := hx.1
      simp [render]
      omega

theorem Expr.readable_unary {t : Token} {op : String} {r : Expr}
    (h : (Expr.unary t op r).isWellFormed = true) (hr : r.Readable) :
    (Expr.unary t op r).Readable := by
  rw [isWellFormed, Bool.and_eq_true, Bool.and_eq_true, beq_iff_eq, Token.isProper_iff] at h
  obtain ⟨⟨⟨hk, -⟩, hop⟩, -⟩ := h
  have hclose : t.bare.kind ≠ .closeParen := by
    intro he
    rw [show t.kind = .closeParen from he] at hk
    exact absurd hk (by decide)
  refine readable_of_inside (t.bare :: r.tokens) rfl (by rw [tokens])
    ⟨t.bare, r.tokens, rfl, hclose⟩ ?_
  intro room p k hp
  have hneed : 1 + r.need ≤ room ↔ (Expr.unary t op r).need ≤ room + 1 := by
    rw [need]
    omega
  refine (exact_expressionWithin hp (Nat.lt_add_right _ Nat.one_pos) fun room hp => ?_).congr hneed
  have hn := steady_expressionWithin room
  obtain ⟨hc, hrest⟩ := hp.cons
  obtain ⟨hkc, hlc⟩ := Token.bare_eq_iff.1 hc
  have hright := hr.nested .prefixed hrest (by decide) (by simp [headKind, Token.mark])
    (show ¬ Power.prefixed < Kind.closeParen.power by decide)
  have hstart : (start (expressionWithin room)).Exact p.deepen (r.need ≤ room) fun x q =>
      (Expr.unary t op r).Rereads x ∧ q.advance.At room (.mark .closeParen ")" :: k) := by
    refine exact_start .unary (by rw [hkc]; exact hk) ?_
    refine exact_current_bind (exact_advance_bind (hright.map (hn _) fun x q hx => ⟨?_, hx.2⟩))
    have hoperator : p.deepen.current.literal = op := hlc.trans hop
    rw [hoperator]
    exact .unary hc hx.1
  refine (hstart.bind_true (steady_start hn) (fun _ => steady_continued hn _ _)
    fun x q hx => exact_continued_stop hn ?_ hx).congr (by omega)
  rw [hx.2.kind_peek]
  exact Power.not_lt_lowest _

theorem Expr.readable_binary {t : Token} {op : String} {l r : Expr}
    (h : (Expr.binary t l op r).isWellFormed = true) (hl : l.Readable) (hr : r.Readable) :
    (Expr.binary t l op r).Readable := by
  simp only [isWellFormed, Bool.and_eq_true, beq_iff_eq, Token.isProper_iff] at h
  obtain ⟨⟨⟨⟨hk, -⟩, hop⟩, -⟩, -⟩ := h
  obtain ⟨hpow, helse, hinfix⟩ := Kind.power_of_mem_binaryOperators hk
  have hlowest : Power.lowest < t.kind.power := Nat.pos_of_ne_zero fun h0 =>
    hpow (Power.rank_injective h0)
  have hcall : t.kind.power < .call := by
    revert hk
    cases t.kind <;> decide
  obtain ⟨u, us, hu, hrule, -⟩ := hl.starts
  have hclose : u.kind ≠ .closeParen := by
    rintro he
    rw [he] at hrule
    cases hrule
  refine readable_of_inside (l.tokens ++ t.bare :: r.tokens) rfl (by rw [tokens]; simp)
    ⟨u, us ++ t.bare :: r.tokens, by rw [hu]; rfl, hclose⟩ ?_
  intro room p k hp
  have hneed : max l.need (1 + r.need) ≤ room ↔ (Expr.binary t l op r).need ≤ room + 1 := by
    rw [need]
    omega
  have hp' : p.At room (l.tokens ++ t.bare :: (r.tokens ++ .mark .closeParen ")" :: k)) := by
    simpa using hp
  refine (exact_expressionWithin hp' (by omega) fun room hp => ?_).congr hneed
  have hn := steady_expressionWithin room
  refine (hl.reads (c := r.need ≤ room) hp (by decide) helse fun x q hx hq => ?_).congr (by omega)
  obtain ⟨hc, hrest⟩ := hq.cons
  obtain ⟨hkc, hlc⟩ := Token.bare_eq_iff.1 hc
  have hpeek : q.peek.kind = t.kind := hkc
  have hoperator : q.advance.current.literal = op := hlc.trans hop
  have hright := hr.nested t.kind.power hrest hcall (by simp [headKind, Token.mark])
    (Power.not_lt.2 (Nat.zero_le _))
  have hbinary : (continuing (expressionWithin room) x q.peek.kind.power .binary).Exact
      q.advance (r.need ≤ room) fun y s =>
        (Expr.binary t l op r).Rereads y ∧ s.advance.At room (.mark .closeParen ")" :: k) := by
    rw [hpeek]
    refine exact_current_bind (exact_advance_bind (hright.map (hn _) fun y s hy => ⟨?_, hy.2⟩))
    rw [hoperator]
    exact .binary hc hx hy.1
  refine (exact_continued_extend hn .binary (by rwa [hpeek]) (by rw [hpeek]; exact hinfix)
    hbinary fun y s hy => exact_continued_stop hn ?_ hy).congr (and_iff_left trivial)
  rw [hy.2.kind_peek]
  exact Power.not_lt_lowest _

/-! ## Calls -/

/-- The tokens of the arguments behind the first one. -/
def moreTokens (es : List Expr) : List Token := (tokensEach es).flatMap (.mark .comma "," :: ·)

theorem moreTokens_cons (e : Expr) (es : List Expr) :
    moreTokens (e :: es) = .mark .comma "," :: (e.tokens ++ moreTokens es) := by
  simp [moreTokens, tokensEach]

theorem separated_tokensEach_cons (e : Expr) (es : List Expr) :
    separated (tokensEach (e :: es)) = e.tokens ++ moreTokens es := by
  rw [tokensEach, separated, moreTokens]

/-- An argument ends at a comma or a parenthesis. -/
theorem headKind_moreTokens (es : List Expr) (k : List Token) :
    headKind (moreTokens es ++ .mark .closeParen ")" :: k) ≠ .elseKeyword ∧
      (headKind (moreTokens es ++ .mark .closeParen ")" :: k)).power = .lowest := by
  cases es with
  | nil => exact ⟨by simp [moreTokens, tokensEach, headKind, Token.mark], rfl⟩
  | cons e es =>
    rw [moreTokens_cons]
    exact ⟨by simp [headKind, Token.mark], rfl⟩

theorem exact_moreArguments {es : List Expr} (h : ∀ e ∈ es, e.Readable)
    (hp : p.advance.At room (moreTokens es ++ .mark .closeParen ")" :: k)) :
    (moreArguments (expressionWithin room)).Exact p (needEach es ≤ room) fun xs q =>
      RereadsEach es xs ∧ q.advance.At room k := by
  have hn := steady_expressionWithin room
  induction es generalizing p with
  | nil =>
    exact (exact_moreArguments_close hn hp.kind_peek ⟨rereadsEach_nil, hp.cons.2⟩).of_true
      (Nat.zero_le _)
  | cons e es ih =>
    have hp' : p.advance.At room
        (.mark .comma "," :: (e.tokens ++ (moreTokens es ++ .mark .closeParen ")" :: k))) := by
      simpa [moreTokens_cons] using hp
    obtain ⟨helse, hpower⟩ := headKind_moreTokens es k
    have hfirst := (h e (.head _)).nested .lowest hp'.cons.2 (by decide) helse
      (by rw [hpower]; exact Power.not_lt_lowest _)
    rw [needEach, Nat.max_le]
    refine exact_moreArguments_more hn hp'.kind_peek hfirst fun x q hx => ?_
    exact (ih (fun e he => h e (.tail _ he)) hx.2).mono
      fun xs r hxs => ⟨RereadsEach.cons hx.1 hxs.1, hxs.2⟩

theorem exact_arguments {es : List Expr} (h : ∀ e ∈ es, e.Readable)
    (hp : p.advance.At room (separated (tokensEach es) ++ .mark .closeParen ")" :: k)) :
    (arguments (expressionWithin room)).Exact p (needEach es ≤ room) fun xs q =>
      RereadsEach es xs ∧ q.advance.At room k := by
  have hn := steady_expressionWithin room
  cases es with
  | nil =>
    exact (exact_arguments_nil hp.kind_peek ⟨rereadsEach_nil, hp.cons.2⟩).of_true (Nat.zero_le _)
  | cons e es =>
    rw [separated_tokensEach_cons, List.append_assoc] at hp
    have he := h e (.head _)
    obtain ⟨t, ts, ht, hrule, -⟩ := he.starts
    have hopen : p.peek.kind ≠ .closeParen := by
      rw [hp.kind_peek, headKind_append ht]
      intro hk
      rw [hk] at hrule
      cases hrule
    obtain ⟨helse, hpower⟩ := headKind_moreTokens es k
    have hfirst := he.nested .lowest hp (by decide) helse
      (by rw [hpower]; exact Power.not_lt_lowest _)
    rw [needEach, Nat.max_le]
    refine exact_arguments_cons hn hopen hfirst fun x q hx => ?_
    exact (exact_moreArguments (fun e he => h e (.tail _ he)) hx.2).mono fun xs r hxs =>
      ⟨RereadsEach.cons hx.1 hxs.1, hxs.2⟩

/-- Behind an expression the parentheses of a call are read as one. -/
theorem exact_continued_call {t : Token} {left : Expr} {es : List Expr}
    (h : ∀ e ∈ es, e.Readable) (ht : t.kind = .openParen) (hpower : power < .call)
    (hp : p.advance.At room
      (t.bare :: (separated (tokensEach es) ++ .mark .closeParen ")" :: k)))
    (hk : ∀ u xs q, u.bare = t.bare → RereadsEach es xs → q.advance.At room k →
      (continued (expressionWithin room) power (.call u left xs)).Exact q c R) :
    (continued (expressionWithin room) power left).Exact p (needEach es ≤ room ∧ c) R := by
  have hn := steady_expressionWithin room
  obtain ⟨hc, hrest⟩ := hp.cons
  have hpeek : p.peek.kind = .openParen := (Token.bare_eq_iff.1 hc).1.trans ht
  refine exact_continued_extend hn .call (by rwa [hpeek]) (by rw [hpeek]; rfl)
    (Q := fun x q => ∃ u xs, x = .call u left xs ∧ u.bare = t.bare ∧ RereadsEach es xs ∧
      q.advance.At room k) ?_ ?_
  · exact exact_current_bind ((exact_arguments h hrest).map (steady_arguments hn) fun xs q hx =>
      ⟨_, xs, rfl, hc, hx⟩)
  · rintro _ q ⟨u, xs, rfl, hu, hxs, hq⟩
    exact hk u xs q hu hxs hq

theorem Expr.readable_call {t : Token} {f : Expr} {es : List Expr}
    (h : (Expr.call t f es).isWellFormed = true) (hf : f.Readable) (hes : ∀ e ∈ es, e.Readable) :
    (Expr.call t f es).Readable := by
  simp only [isWellFormed, Bool.and_eq_true, Token.isProper_singleton_iff] at h
  have ht := h.1.1.1
  have hneed {room : Nat} {c : Prop} : f.need ≤ room + 1 ∧ needEach es ≤ room ∧ c ↔
      (Expr.call t f es).need ≤ room + 1 ∧ c := by
    rw [need, ← and_assoc]
    refine and_congr_left fun _ => ?_
    omega
  have htokens (k : List Token) : (Expr.call t f es).tokens ++ k =
      f.tokens ++ t.bare :: (separated (tokensEach es) ++ .mark .closeParen ")" :: k) := by
    simp [tokens]
  have helse {k : List Token} : headKind (t.bare :: k) ≠ .elseKeyword := by
    rw [show headKind (t.bare :: k) = t.kind from rfl, ht]
    decide
  refine ⟨?_, ?_, ?_⟩
  · obtain ⟨u, us, hu, hrule, hparen⟩ := hf.starts
    exact ⟨u, us ++ t.bare :: (separated (tokensEach es) ++ [.mark .closeParen ")"]),
      by simp [tokens, hu], hrule, hparen⟩
  · intro room power p k c R hp hpower _ hk
    rw [htokens] at hp
    refine (hf.reads hp hpower helse fun x q hx hq => ?_).congr hneed
    exact exact_continued_call hes ht hpower hq fun u xs r hu hxs hr =>
      hk _ r (.call hu hx hxs) hr
  · intro room power left p k c R hparen hp hpower hk
    rw [htokens] at hp
    refine (hf.joins hparen hp hpower fun x q hx hq => ?_).congr hneed
    refine exact_continued_call hes ht hpower hq fun u xs r _ hxs hr => hk _ r ?_ hr
    have hle := hxs.le
    simp [render]
    omega

end ExprLang
