import ExprLang.Proofs.Rendering.Statements

/-!
# Reading every canonical text back

Every well-formed expression is `Readable`, one case for each kind of node: blocks are statements in
braces, and conditionals and functions are read by one rule each. Main statement (`exact_opened`):
from the first token of the canonical text of a well-formed program on, statements are read cleanly
exactly if no statement needs more than `maxNestingDepth` levels.
-/

set_option autoImplicit false

namespace ExprLang

open Step Rule ExprLang.Parser

variable {p q : Parser} {room : Nat} {k : List Token}

/-! ## Blocks -/

/-- The statements of the block are well formed and readable. -/
def Block.Readable (b : Block) : Prop :=
  b.isWellFormed = true ∧ ∀ s ∈ b.statements, s.value.Readable

theorem exact_readable_block {b : Block} (h : b.Readable) (hp : p.At room (b.tokens ++ k)) :
    (always (block (expressionWithin room))).Exact p (b.need ≤ room) fun c q =>
      b.Rereads c ∧ q.advance.At room k := by
  cases b with
  | mk t ss =>
    obtain ⟨hwf, hss⟩ := h
    rw [Block.isWellFormed, Bool.and_eq_true] at hwf
    have hn := steady_expressionWithin room
    have hp' : p.At room (t.bare :: (tokensBody ss ++ .mark .closeCurly "\x7d" :: k)) := by
      simpa [Block.tokens] using hp
    obtain ⟨hc, hrest⟩ := hp'.cons
    have hbody : (collected endsBlock (Rule.statement (expressionWithin room))).Exact p.advance
        (needBody ss ≤ room) fun rs q =>
          RereadsBody ss rs ∧ q.At room (.mark .closeCurly "\x7d" :: k) :=
      exact_body (steady_statement hn) (fun k hk => (Kind.startsStatement_ne hk).2.2.2) rfl
        (fun h => h) rfl rfl (fun s hs => ⟨isWellFormedBody_iff.1 hwf.2 s hs, hss s hs⟩) hrest
    exact exact_block hn hbody fun rs q hrs =>
      ⟨hrs.2.kind_current, Block.Rereads.mk hc hrs.1, hrs.2.cons.2⟩

theorem Block.headKind_tokens {b : Block} (h : b.isWellFormed = true) (k : List Token) :
    headKind (b.tokens ++ k) = .openCurly := by
  cases b with
  | mk t ss =>
    rw [isWellFormed, Bool.and_eq_true, Token.isProper_singleton_iff] at h
    exact h.1.1

/-! ## Conditionals -/

theorem exact_alternative {a : Option Block} (h : ∀ b ∈ a, b.Readable)
    (hp : p.advance.At room (tokensElse a ++ k)) (helse : headKind k ≠ .elseKeyword) :
    (alternative (expressionWithin room)).Exact p (needElse a ≤ room) fun z q =>
      RereadsElse a z ∧ q.advance.At room k := by
  have hn := steady_expressionWithin room
  cases a with
  | none =>
    have hpeek : p.peek.kind ≠ .elseKeyword := by rwa [hp.kind_peek]
    exact (exact_of_clean ((clean_alternative_iff hn).2 (.inl ⟨hpeek, rfl, rfl⟩))
      ⟨rereadsElse_none, hp⟩).of_true (Nat.zero_le _)
  | some b =>
    have hb := h b rfl
    have hp' : p.advance.At room (.mark .elseKeyword "else" :: (b.tokens ++ k)) := by
      simpa [tokensElse] using hp
    obtain ⟨-, hrest⟩ := hp'.cons
    refine exact_peek_bind ?_
    rw [if_pos (show p.peek.kind = .elseKeyword from hp'.kind_peek)]
    refine exact_advance_bind (exact_expect_bind
      (hrest.kind_peek.trans (b.headKind_tokens hb.1 k)) ?_)
    exact (exact_readable_block hb hrest).map (steady_block hn) fun c q hc =>
      ⟨RereadsElse.some hc.1, hc.2⟩

theorem Expr.readable_conditional {t : Token} {c : Expr} {b : Block} {a : Option Block}
    (h : (Expr.conditional t c b a).isWellFormed = true) (hc : c.Readable) (hb : b.Readable)
    (ha : ∀ b ∈ a, b.Readable) : (Expr.conditional t c b a).Readable := by
  simp only [isWellFormed, Bool.and_eq_true, Token.isProper_singleton_iff] at h
  have ht := h.1.1.1.1
  have hkind : t.bare.kind = .ifKeyword := ht
  refine readable_of_start rfl ⟨t.bare, _, by rw [tokens]; rfl, by rw [hkind]; rfl,
    by rw [hkind]; rfl⟩ ?_
  intro room p k hp helse
  have hn := steady_expressionWithin room
  have hp' : p.At room (t.bare :: .mark .openParen "(" :: (c.tokens ++
      .mark .closeParen ")" :: (b.tokens ++ (tokensElse a ++ k)))) := by
    simpa [tokens] using hp
  obtain ⟨hif, hopen⟩ := hp'.cons
  refine exact_start .conditional (by rw [hp'.kind_current]; exact List.mem_singleton.2 ht) ?_
  have hcondition := hc.nested .lowest hopen.cons.2 (by decide) (by simp [headKind, Token.mark])
    (Power.not_lt_lowest _)
  refine Exact.congr (exact_current_bind (exact_expect_bind hopen.kind_peek (exact_advance_bind
    (hcondition.bind (d := b.need ≤ room ∧ needElse a ≤ room) (hn _) (fun _ =>
      (steady_expect _).bind fun _ => (steady_expect _).bind fun _ => (steady_block hn).bind
        fun _ => (steady_alternative hn).bind fun _ => steady_pure _) fun x q hx => ?_)))) ?_
  · obtain ⟨hx, hq⟩ := hx
    obtain ⟨-, hrest⟩ := hq.cons
    refine exact_expect_bind hq.kind_peek (exact_expect_bind
      (hrest.kind_peek.trans (b.headKind_tokens hb.1 _)) ?_)
    refine (exact_readable_block hb hrest).bind (steady_block hn)
      (fun _ => (steady_alternative hn).bind fun _ => steady_pure _) fun y r hy => ?_
    exact (exact_alternative ha hy.2 helse).map (steady_alternative hn) fun z s hz =>
      ⟨.conditional hif hx hy.1 hz.1, hz.2⟩
  · rw [need]
    omega

/-! ## Functions -/

/-- The tokens of the parameters behind the first one. -/
def moreNames (xs : List Identifier) : List Token :=
  xs.flatMap fun x => [.mark .comma ",", x.token.bare]

theorem namesRead_of_parameters {x : Identifier} {xs : List Identifier}
    (h : ∀ y ∈ x :: xs, y.isWellFormed = true)
    (hp : p.advance.At room (x.token.bare :: (moreNames xs ++ .mark .closeParen ")" :: k))) :
    ∃ names q, NamesRead p names q ∧
      names.map Identifier.erased = (x :: xs).map Identifier.erased ∧ q.advance.At room k := by
  induction xs generalizing x p with
  | nil =>
    have hx := h x (.head _)
    obtain ⟨-, hrest⟩ := hp.cons
    have hname : p.peek.bare = x.token.bare := hp.cons.1
    have hpeek : p.peek.kind = .identifier := hp.kind_peek.trans (x.kind_token hx)
    refine ⟨_, _, .last hpeek hrest.kind_peek, ?_, hrest.cons.2⟩
    rw [List.map_cons, List.map_cons, x.erased_ofToken hx hname]
  | cons y ys ih =>
    have hx := h x (.head _)
    have hp' : p.advance.At room (x.token.bare :: .mark .comma "," :: y.token.bare ::
        (moreNames ys ++ .mark .closeParen ")" :: k)) := by
      simpa [moreNames] using hp
    obtain ⟨-, hcomma⟩ := hp'.cons
    have hname : p.peek.bare = x.token.bare := hp'.cons.1
    obtain ⟨-, hrest⟩ := hcomma.cons
    have hpeek : p.peek.kind = .identifier := hp.kind_peek.trans (x.kind_token hx)
    obtain ⟨names, q, hread, hnames, hq⟩ := ih (fun z hz => h z (.tail _ hz)) hrest
    refine ⟨_, q, .more hpeek hcomma.kind_peek hread, ?_, hq⟩
    rw [List.map_cons, hnames, x.erased_ofToken hx hname]
    rfl

theorem exact_parameters {xs : List Identifier} (h : ∀ x ∈ xs, x.isWellFormed = true)
    (hp : p.advance.At room (separated (xs.map fun x => [x.token.bare]) ++
      .mark .closeParen ")" :: k)) :
    parameters.Exact p True fun names q =>
      names.map Identifier.erased = xs.map Identifier.erased ∧ q.advance.At room k := by
  cases xs with
  | nil =>
    exact exact_of_clean (clean_parameters_iff.2 (.inl ⟨hp.kind_peek, rfl, rfl⟩)) ⟨rfl, hp.cons.2⟩
  | cons x xs =>
    have hp' : p.advance.At room
        (x.token.bare :: (moreNames xs ++ .mark .closeParen ")" :: k)) := by
      simpa [separated, moreNames, List.flatMap_map] using hp
    obtain ⟨names, q, hread, hnames, hq⟩ := namesRead_of_parameters h hp'
    exact exact_of_clean (clean_parameters_iff.2 (.inr hread)) ⟨hnames, hq⟩

theorem Expr.readable_function {t : Token} {ps : List Identifier} {b : Block}
    (h : (Expr.function t ps b).isWellFormed = true) (hb : b.Readable) :
    (Expr.function t ps b).Readable := by
  simp only [isWellFormed, Bool.and_eq_true, Token.isProper_singleton_iff, List.all_eq_true] at h
  obtain ⟨⟨⟨ht, -⟩, hps⟩, -⟩ := h
  have hkind : t.bare.kind = .fnKeyword := ht
  refine readable_of_start rfl ⟨t.bare, _, by rw [tokens]; rfl, by rw [hkind]; rfl,
    by rw [hkind]; rfl⟩ ?_
  intro room p k hp _
  have hn := steady_expressionWithin room
  have hp' : p.At room (t.bare :: .mark .openParen "(" ::
      (separated (ps.map fun x => [x.token.bare]) ++
        .mark .closeParen ")" :: (b.tokens ++ k))) := by
    simpa [tokens] using hp
  obtain ⟨hfn, hopen⟩ := hp'.cons
  refine exact_start .function (by rw [hp'.kind_current]; exact List.mem_singleton.2 ht) ?_
  refine Exact.congr (exact_current_bind (exact_expect_bind hopen.kind_peek
    ((exact_parameters hps hopen.cons.2).bind (d := b.need ≤ room) steady_parameters (fun _ =>
      (steady_expect _).bind fun _ => (steady_block hn).bind fun _ => steady_pure _)
      fun names q hq => ?_))) ?_
  · refine exact_expect_bind (hq.2.kind_peek.trans (b.headKind_tokens hb.1 k)) ?_
    exact (exact_readable_block hb hq.2).map (steady_block hn) fun c r hc =>
      ⟨.function hfn hq.1 hc.1, hc.2⟩
  · rw [need, true_and]
    omega

/-! ## All trees -/

mutual

/-- Every well-formed expression is read back wherever its canonical text stands. -/
theorem Expr.readable : (e : Expr) → e.isWellFormed = true → e.Readable
  | .identifier _, h => Expr.readable_identifier h
  | .integer _ _, h => Expr.readable_integer h
  | .boolean _ _, h => Expr.readable_boolean h
  | .unary t op r, h => by
    have hr : r.isWellFormed = true := by simp_all [Expr.isWellFormed]
    exact Expr.readable_unary h (Expr.readable r hr)
  | .binary t l op r, h => by
    have hl : l.isWellFormed = true := by simp_all [Expr.isWellFormed]
    have hr : r.isWellFormed = true := by simp_all [Expr.isWellFormed]
    exact Expr.readable_binary h (Expr.readable l hl) (Expr.readable r hr)
  | .conditional t c b a, h => by
    have hc : c.isWellFormed = true := by simp_all [Expr.isWellFormed]
    have hb : b.isWellFormed = true := by simp_all [Expr.isWellFormed]
    have ha : isWellFormedElse a = true := by simp_all [Expr.isWellFormed]
    exact Expr.readable_conditional h (Expr.readable c hc) (Block.readable b hb) (readableElse a ha)
  | .call t f es, h => by
    have hf : f.isWellFormed = true := by simp_all [Expr.isWellFormed]
    have hes : isWellFormedEach es = true := by simp_all [Expr.isWellFormed]
    exact Expr.readable_call h (Expr.readable f hf) (readableEach es hes)
  | .function t ps b, h => by
    have hb : b.isWellFormed = true := by simp_all [Expr.isWellFormed]
    exact Expr.readable_function h (Block.readable b hb)

theorem Block.readable : (b : Block) → b.isWellFormed = true → b.Readable
  | .mk t ss, h => by
    have hss : isWellFormedBody ss = true := by simp_all [Block.isWellFormed]
    exact ⟨h, readableBody ss hss⟩

theorem Stmt.readable : (s : Stmt) → s.isWellFormed = true → s.value.Readable
  | .binding _ _ v, h => Expr.readable v (by simp_all [Stmt.isWellFormed])
  | .result _ v, h => Expr.readable v (by simp_all [Stmt.isWellFormed])
  | .expression _ v, h => Expr.readable v h

theorem readableEach : (es : List Expr) → isWellFormedEach es = true → ∀ e ∈ es, e.Readable
  | [], _ => fun _ he => nomatch he
  | e :: es, h => by
    rw [isWellFormedEach, Bool.and_eq_true] at h
    have he := Expr.readable e h.1
    have hes := readableEach es h.2
    simpa using ⟨he, hes⟩

theorem readableBody : (ss : List Stmt) → isWellFormedBody ss = true → ∀ s ∈ ss, s.value.Readable
  | [], _ => fun _ hs => nomatch hs
  | s :: ss, h => by
    rw [isWellFormedBody, Bool.and_eq_true] at h
    have hs := Stmt.readable s h.1
    have hss := readableBody ss h.2
    simpa using ⟨hs, hss⟩

theorem readableElse : (a : Option Block) → isWellFormedElse a = true → ∀ b ∈ a, b.Readable
  | none, _ => fun _ hb => nomatch hb
  | some b, h => by
    have hb := Block.readable b h
    simpa using hb

end

/-! ## Programs -/

/-- The canonical text of a well-formed program, from its first token on. -/
theorem exact_opened {P : Program} (h : P.isWellFormed = true) (file : Option String)
    (options : Options) :
    (collected (· == .eof) loggedStatement).Exact (opened P.render file options)
      (needBody P.statements ≤ maxNestingDepth) fun rs _ => RereadsBody P.statements rs := by
  have hp : (opened P.render file options).At maxNestingDepth (tokensBody P.statements ++ []) := by
    refine ⟨Nat.zero_add _, ?_⟩
    rw [List.append_nil]
    exact Program.bare_ahead_render h _
  have hss : ∀ s ∈ P.statements, s.isWellFormed = true ∧ s.value.Readable := fun s hs =>
    ⟨isWellFormedBody_iff.1 h s hs, readableBody _ h s hs⟩
  refine (exact_body steady_loggedStatement ?_ rfl ?_ rfl rfl hss hp).mono fun rs q hrs => hrs.1
  · intro k hk
    exact beq_eq_false_iff_ne.2 (Kind.startsStatement_ne hk).2.2.1
  · intro p c k S hs
    refine hs.bind_true (steady_statement (steady_expressionWithin _)) (fun _ =>
      (steady_of_update fun p => precedes_note _ p).bind fun _ => steady_pure _) fun s q hq => ?_
    exact exact_of_clean (m := update (note (.completed s)) >>= fun _ => pure s) ⟨rfl, rfl⟩
      ⟨hq.1, hq.2.depth, hq.2.bare⟩

end ExprLang
