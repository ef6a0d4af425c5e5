import ExprLang.Proofs.Rendering.Readable

/-!
# Reading statements back

The statements of a list are read one by one as long as none of them runs into the next one. An
expression statement takes all statements behind it with it that start with a parenthesis, a `run`;
what is read then has the blanks of all of them, but not the blanks between them. Main statement
(`exact_body`): statements are read back if none of them needs more levels than there are.
-/

set_option autoImplicit false

namespace ExprLang

open Step Rule ExprLang.Parser

variable {p q : Parser} {room : Nat} {k : List Token}

/-! ## How a statement starts -/

/-- Whether the statement is taken to be part of an expression in front of it. -/
def Stmt.merges (s : Stmt) : Bool := s.isExpression && s.value.startsParen

theorem Stmt.startsParen_eq {s : Stmt} (h : s.isWellFormed = true) : s.startsParen = s.merges := by
  unfold startsParen merges
  cases s with
  | binding t x v =>
    simp only [isWellFormed, Bool.and_eq_true] at h
    simp only [render, String.toList_append, List.append_assoc,
      Token.literal_eq "let" h.1.1 (by decide +kernel)]
    rfl
  | result t v =>
    simp only [isWellFormed, Bool.and_eq_true] at h
    simp only [render, String.toList_append, List.append_assoc,
      Token.literal_eq "return" h.1 (by decide +kernel)]
    rfl
  | expression t v =>
    obtain ⟨c, cs, hc, hs⟩ := v.toList_render h
    have hparen : '('.isAlphanum = false := by decide
    rw [render, hc, isExpression, value, Bool.true_and, List.head?_cons]
    cases hv : v.startsParen with
    | true => simpa [hv] using hs
    | false =>
      rw [hv, if_neg Bool.false_ne_true] at hs
      rw [Option.some_beq_some, beq_eq_false_iff_ne]
      rintro rfl
      rw [hparen] at hs
      cases hs

theorem Stmt.headKind_tokens {s : Stmt} (h : s.isWellFormed = true) (hv : s.value.Readable)
    (k : List Token) : (headKind (s.tokens ++ k)).startsStatement = true ∧
      (s.merges = false → (headKind (s.tokens ++ k)).power = .lowest) := by
  cases s with
  | binding t x v =>
    simp only [isWellFormed, Bool.and_eq_true, Token.isProper_singleton_iff] at h
    rw [show headKind ((Stmt.binding t x v).tokens ++ k) = t.kind from rfl, h.1.1.1]
    exact ⟨rfl, fun _ => rfl⟩
  | result t v =>
    simp only [isWellFormed, Bool.and_eq_true, Token.isProper_singleton_iff] at h
    rw [show headKind ((Stmt.result t v).tokens ++ k) = t.kind from rfl, h.1.1]
    exact ⟨rfl, fun _ => rfl⟩
  | expression t v =>
    have hv : v.Readable := hv
    obtain ⟨u, us, hu, hrule, hs⟩ := hv.starts
    rw [tokens, headKind_append hu]
    refine ⟨by simp [Kind.startsStatement, hrule], fun hm => ?_⟩
    rwa [if_neg (by simpa [merges, isExpression, value] using hm)] at hs

/-! ## Single statements -/

theorem exact_terminator {R : Unit → Parser → Prop} (hk : p.peek.kind = .semicolon)
    (h : R () p.advance) : terminator.Exact p True R :=
  exact_of_clean (clean_terminator_iff.2 ⟨fun _ => hk, by rw [Parser.skip, if_pos hk]⟩) h

/-- What comes behind a value and its semicolon. -/
theorem exact_value {v : Expr} (hv : v.Readable)
    (hp : p.At room (v.tokens ++ .mark .semicolon ";" :: k)) {f : Expr → Stmt} {R : Stmt → Prop}
    (hf : ∀ x, v.Rereads x → R (f x)) :
    (expressionWithin room .lowest >>= fun x => terminator >>= fun _ => pure (f x)).Exact p
      (v.need ≤ room) fun r q => R r ∧ q.advance.At room k := by
  have hread := hv.nested .lowest hp (by decide) (by simp [headKind, Token.mark])
    (Power.not_lt_lowest _)
  refine hread.bind_true (steady_expressionWithin room _) (fun _ => steady_terminator.bind
    fun _ => steady_pure _) fun x q hx => ?_
  exact (exact_terminator hx.2.kind_peek hx.2.cons.2).map (Q := fun _ q => q.advance.At room k)
    steady_terminator fun _ q hq => ⟨hf x hx.1, hq⟩

theorem exact_binding {t : Token} {x : Identifier} {v : Expr}
    (h : (Stmt.binding t x v).isWellFormed = true) (hv : v.Readable)
    (hp : p.At room ((Stmt.binding t x v).tokens ++ k)) :
    (Rule.statement (expressionWithin room)).Exact p (v.need ≤ room) fun r q =>
      (Stmt.binding t x v).Rereads r ∧ q.advance.At room k := by
  rw [Stmt.isWellFormed, Bool.and_eq_true, Bool.and_eq_true, Token.isProper_singleton_iff] at h
  obtain ⟨⟨⟨ht, -⟩, hx⟩, -⟩ := h
  have hp' : p.At room (t.bare :: x.token.bare :: .mark .assignment "=" ::
      (v.tokens ++ .mark .semicolon ";" :: k)) := by simpa [Stmt.tokens] using hp
  obtain ⟨hlet, hname⟩ := hp'.cons
  obtain ⟨hnamed, hequals⟩ := hname.cons
  have hidentifier : p.peek.kind = .identifier := hname.kind_peek.trans (x.kind_token hx)
  have hassignment : p.advance.peek.kind = .assignment := hequals.kind_peek
  have herased := x.erased_ofToken hx hnamed
  refine exact_current_bind ?_
  rw [show p.current.kind = .letKeyword from hp'.kind_current.trans ht]
  refine exact_current_bind (exact_expect_bind hidentifier (exact_current_bind
    (exact_expect_bind hassignment (exact_advance_bind ?_))))
  exact exact_value hv hequals.cons.2 fun y hy => .binding hlet herased hy

theorem exact_result {t : Token} {v : Expr} (h : (Stmt.result t v).isWellFormed = true)
    (hv : v.Readable) (hp : p.At room ((Stmt.result t v).tokens ++ k)) :
    (Rule.statement (expressionWithin room)).Exact p (v.need ≤ room) fun r q =>
      (Stmt.result t v).Rereads r ∧ q.advance.At room k := by
  simp only [Stmt.isWellFormed, Bool.and_eq_true, Token.isProper_singleton_iff] at h
  have hp' : p.At room (t.bare :: (v.tokens ++ .mark .semicolon ";" :: k)) := by
    simpa [Stmt.tokens] using hp
  obtain ⟨hreturn, hrest⟩ := hp'.cons
  refine exact_current_bind ?_
  rw [show p.current.kind = .returnKeyword from hp'.kind_current.trans h.1.1]
  refine exact_current_bind (exact_advance_bind ?_)
  exact exact_value hv hrest fun y hy => .result hreturn hy

/-! ## Expression statements -/

/-- The blanks of statements without those behind them. -/
def runBlanks : List Stmt → Nat
  | [] => 0
  | s :: ss => Text.blanks s.render + runBlanks ss

/-- Statements that start with a parenthesis continue the expression in front of them. -/
theorem exact_continued_run {run : List Stmt}
    (h : ∀ s ∈ run, s.value.Readable ∧ s.merges = true) (hk : (headKind k).power = .lowest)
    {left : Expr} (hp : p.advance.At room (tokensBody run ++ k)) :
    (continued (expressionWithin room) .lowest left).Exact p (needBody run ≤ room + 1)
      fun x q => (Text.blanks x.render ≤ Text.blanks left.render + runBlanks run ∧
        (run = [] → x = left)) ∧ q.advance.At room k := by
  have hn := steady_expressionWithin room
  induction run generalizing p left with
  | nil =>
    refine (exact_continued_stop hn ?_ ⟨⟨Nat.le_refl _, fun _ => rfl⟩, hp⟩).of_true (Nat.zero_le _)
    rw [hp.kind_peek, show headKind (tokensBody [] ++ k) = headKind k from rfl, hk]
    exact Power.not_lt_lowest _
  | cons s run ih =>
    obtain ⟨hv, hm⟩ := h s (.head _)
    cases s with
    | binding t x v => cases hm
    | result t v => cases hm
    | expression t v =>
      have hp' : p.advance.At room (v.tokens ++ (tokensBody run ++ k)) := by
        simpa [tokensBody, Stmt.tokens] using hp
      have hv : v.Readable := hv
      rw [needBody, Nat.max_le]
      refine hv.joins hm hp' (by decide) fun x q hx hq => ?_
      refine (ih (fun s hs => h s (.tail _ hs)) hq).mono fun y r hy => ⟨⟨?_, ?_⟩, hy.2⟩
      · have hle := hy.1.1
        simp only [runBlanks, Stmt.render]
        omega
      · intro hnil
        cases hnil

/-- An expression statement is read together with the run behind it. -/
theorem exact_expressionStatement {t : Token} {v : Expr} (hv : v.Readable) {run : List Stmt}
    (h : ∀ s ∈ run, s.value.Readable ∧ s.merges = true) (hk : (headKind k).power = .lowest)
    (helse : headKind k ≠ .elseKeyword) (hsemi : headKind k ≠ .semicolon)
    (hp : p.At room (v.tokens ++ (tokensBody run ++ k))) :
    (Rule.statement (expressionWithin room)).Exact p (needBody (.expression t v :: run) ≤ room)
      fun r q => (Text.blanks r.render ≤ Text.blanks v.render + runBlanks run ∧
        (run = [] → (Stmt.expression t v).Rereads r)) ∧ q.advance.At room k := by
  have hn := steady_expressionWithin room
  have hnext : headKind (tokensBody run ++ k) ≠ .elseKeyword := by
    cases run with
    | nil => exact helse
    | cons s run =>
      obtain ⟨hs, hm⟩ := h s (.head _)
      cases s with
      | binding t x v => cases hm
      | result t v => cases hm
      | expression t v =>
        have hs : v.Readable := hs
        have hm : v.startsParen = true := hm
        obtain ⟨u, us, hu, -, hparen⟩ := hs.starts
        rw [if_pos hm] at hparen
        rw [tokensBody, Stmt.tokens, List.append_assoc, headKind_append hu, hparen]
        decide
  have hread : (expressionWithin room .lowest).Exact p (needBody (.expression t v :: run) ≤ room)
      fun x q => (Text.blanks x.render ≤ Text.blanks v.render + runBlanks run ∧
        (run = [] → v.Rereads x)) ∧ q.advance.At room k := by
    have hpos : 0 < needBody (.expression t v :: run) :=
      Nat.lt_of_lt_of_le v.need_pos (Nat.le_max_left _ _)
    refine exact_expressionWithin hp hpos fun room hp => ?_
    rw [needBody, Nat.max_le]
    refine hv.reads hp (by decide) hnext fun x q hx hq => ?_
    refine (exact_continued_run h hk hq).mono fun y r hy => ⟨⟨?_, fun hnil => ?_⟩, hy.2⟩
    · have hle := hx.le
      have hle' := hy.1.1
      omega
    · rwa [hy.1.2 hnil]
  have hrule : p.current.kind.statementRule? = none := by
    obtain ⟨u, us, hu, hrule, -⟩ := hv.starts
    rw [hp.kind_current, headKind_append hu]
    exact Kind.statementRule?_eq_none hrule
  refine exact_current_bind ?_
  rw [hrule]
  refine exact_current_bind (hread.bind_true (hn _) (fun _ => (steady_skip _).bind fun _ =>
    steady_pure _) fun x q hx => ?_)
  refine exact_skip_bind (exact_pure ?_)
  rw [Parser.skip, if_neg (by rwa [hx.2.kind_peek])]
  exact ⟨⟨hx.1.1, fun hnil => .expression (hx.1.2 hnil)⟩, hx.2⟩

/-! ## Lists of statements -/

theorem runBlanks_append_renderBody (run ss : List Stmt) :
    runBlanks run + run.length + Text.blanks (renderBody ss) =
      Text.blanks (renderBody (run ++ ss)) := by
  induction run with
  | nil => simp [runBlanks]
  | cons s run ih =>
    simp only [runBlanks, List.length_cons, List.cons_append, renderBody, Text.blanks_append,
      Text.blanks_fixed]
    omega

theorem tokensBody_append (ss rs : List Stmt) :
    tokensBody (ss ++ rs) = tokensBody ss ++ tokensBody rs := by
  induction ss with
  | nil => simp [tokensBody]
  | cons s ss ih => simp [tokensBody, ih]

theorem needBody_append (ss rs : List Stmt) :
    needBody (ss ++ rs) = max (needBody ss) (needBody rs) := by
  induction ss with
  | nil => simp [needBody]
  | cons s ss ih => rw [List.cons_append, needBody, needBody, ih, Nat.max_assoc]

theorem isWellFormedBody_iff {ss : List Stmt} :
    isWellFormedBody ss = true ↔ ∀ s ∈ ss, s.isWellFormed = true := by
  induction ss with
  | nil => simp [isWellFormedBody]
  | cons s ss ih => simp [isWellFormedBody, ih]

/-- An expression statement, the run behind it, and the statements behind that. -/
theorem rereadsBody_of_run {t : Token} {v : Expr} {run ss rs : List Stmt} {r : Stmt}
    (hwf : ∀ s ∈ run ++ ss, s.isWellFormed = true) (hrun : ∀ s ∈ run, s.merges = true)
    (hss : ∀ s ∈ ss.head?, s.merges = false)
    (hle : Text.blanks r.render ≤ Text.blanks v.render + runBlanks run)
    (hr : run = [] → (Stmt.expression t v).Rereads r) (hrs : RereadsBody ss rs) :
    RereadsBody (.expression t v :: (run ++ ss)) (r :: rs) := by
  cases run with
  | nil =>
    refine RereadsBody.cons (hr rfl) hrs ?_
    rw [List.nil_append, Stmt.isExpression, Bool.true_and]
    cases ss with
    | nil => rfl
    | cons s ss =>
      rw [List.head?_cons, Option.any_some, Stmt.startsParen_eq (hwf s (.head _))]
      exact hss s rfl
  | cons s run =>
    refine RereadsBody.merged ?_ ?_
    · rw [Stmt.isExpression, Bool.true_and, List.cons_append, List.head?_cons, Option.any_some,
        Stmt.startsParen_eq (hwf s (.head _))]
      exact hrun s (.head _)
    · have hbody := runBlanks_append_renderBody (s :: run) ss
      have hrest := ExprLang.Rereads.le hrs
      rw [List.length_cons] at hbody
      rw [Stmt.render]
      omega

/-- The run at the front of the statements, and the statements behind it. -/
theorem exists_run (ss : List Stmt) : ∃ run rest, ss = run ++ rest ∧
    (∀ s ∈ run, s.merges = true) ∧ ∀ s ∈ rest.head?, s.merges = false := by
  refine ⟨ss.takeWhile Stmt.merges, ss.dropWhile Stmt.merges,
    List.takeWhile_append_dropWhile.symm, fun s hs => List.mem_takeWhile_imp hs, fun s hs => ?_⟩
  have hhead := List.head?_dropWhile_not Stmt.merges ss
  rw [Option.mem_def.1 hs] at hhead
  simpa using hhead

/-- Nothing behind a run goes on with an expression. -/
theorem headKind_rest {ss : List Stmt} {tail : List Token}
    (h : ∀ s ∈ ss, s.isWellFormed = true ∧ s.value.Readable)
    (hhead : ∀ s ∈ ss.head?, s.merges = false) (hends : endsBlock (headKind tail) = true) :
    (headKind (tokensBody ss ++ tail)).power = .lowest ∧
      headKind (tokensBody ss ++ tail) ≠ .semicolon ∧
      headKind (tokensBody ss ++ tail) ≠ .elseKeyword := by
  cases ss with
  | nil => exact power_of_endsBlock hends
  | cons s ss =>
    obtain ⟨hwf, hv⟩ := h s (.head _)
    rw [tokensBody, List.append_assoc]
    obtain ⟨hstart, hpower⟩ := s.headKind_tokens hwf hv (tokensBody ss ++ tail)
    obtain ⟨helse, hsemi, -, -⟩ := Kind.startsStatement_ne hstart
    exact ⟨hpower (hhead s rfl), hsemi, helse⟩

section
variable {stop : Kind → Bool} {step : Step Stmt} {tail : List Token} (hs : step.Steady)
  (hstart : ∀ k, k.startsStatement = true → stop k = false) (hstop : stop .eof = true)
  (hstep : ∀ {p : Parser} {c : Prop} {k : List Token} {S : Stmt → Prop},
    (Rule.statement (expressionWithin room)).Exact p c (fun s q => S s ∧ q.advance.At room k) →
    step.Exact p c fun s q => S s ∧ q.advance.At room k)
include hs hstop hstep

/-- A statement with an end of its own. -/
theorem exact_collected_cons {s : Stmt} {ss : List Stmt} (hc : stop p.current.kind = false)
    (he : s.isExpression = false)
    (hone : (Rule.statement (expressionWithin room)).Exact p (s.need ≤ room) fun r q =>
      s.Rereads r ∧ q.advance.At room (tokensBody ss ++ tail))
    (hbody : ∀ q : Parser, q.At room (tokensBody ss ++ tail) →
      (collected stop step).Exact q (needBody ss ≤ room) fun rs q =>
        RereadsBody ss rs ∧ q.At room tail) :
    (collected stop step).Exact p (needBody (s :: ss) ≤ room) fun rs q =>
      RereadsBody (s :: ss) rs ∧ q.At room tail := by
  rw [needBody, Nat.max_le]
  refine exact_collected_round hs hstop hc (hstep hone) fun r q hr => ?_
  refine (hbody q.advance hr.2).mono fun rs q' hrs => ⟨?_, hrs.2⟩
  exact RereadsBody.cons hr.1 hrs.1 (by rw [he, Bool.false_and])

/-- An expression statement and the run behind it. -/
theorem exact_collected_run {t : Token} {v : Expr} {run rest : List Stmt}
    (hc : stop p.current.kind = false) (hv : v.Readable)
    (h : ∀ s ∈ run ++ rest, s.isWellFormed = true ∧ s.value.Readable)
    (hrun : ∀ s ∈ run, s.merges = true) (hrest : ∀ s ∈ rest.head?, s.merges = false)
    (hends : endsBlock (headKind tail) = true)
    (hp : p.At room (v.tokens ++ (tokensBody run ++ (tokensBody rest ++ tail))))
    (hbody : ∀ q : Parser, q.At room (tokensBody rest ++ tail) →
      (collected stop step).Exact q (needBody rest ≤ room) fun rs q =>
        RereadsBody rest rs ∧ q.At room tail) :
    (collected stop step).Exact p (needBody (.expression t v :: (run ++ rest)) ≤ room) fun rs q =>
      RereadsBody (.expression t v :: (run ++ rest)) rs ∧ q.At room tail := by
  obtain ⟨hpower, hsemi, helse⟩ :=
    headKind_rest (fun s hs => h s (List.mem_append_right _ hs)) hrest hends
  have hstmt := exact_expressionStatement (t := t) hv
    (fun s hs => ⟨(h s (List.mem_append_left _ hs)).2, hrun s hs⟩) hpower helse hsemi hp
  rw [← List.cons_append, needBody_append, Nat.max_le]
  refine exact_collected_round hs hstop hc (hstep hstmt) fun r q hr => ?_
  refine (hbody q.advance hr.2).mono fun rs q' hrs => ⟨?_, hrs.2⟩
  exact rereadsBody_of_run (fun s hs => (h s hs).1) hrun hrest hr.1.1 hr.1.2 hrs.1

include hstart

/-- Statements are read back up to what stops them. -/
theorem exact_body (htail : stop (headKind tail) = true) (hends : endsBlock (headKind tail) = true)
    {ss : List Stmt} (h : ∀ s ∈ ss, s.isWellFormed = true ∧ s.value.Readable)
    (hp : p.At room (tokensBody ss ++ tail)) :
    (collected stop step).Exact p (needBody ss ≤ room) fun rs q =>
      RereadsBody ss rs ∧ q.At room tail := by
  -- a round takes a whole run, so the induction is on the number of statements
  induction hn : ss.length using Nat.strong_induction_on generalizing ss p with
  | _ n ih =>
    cases ss with
    | nil =>
      have hc : stop p.current.kind = true := by rwa [hp.kind_current]
      exact (exact_collected_done hs hstop hc ⟨rereadsBody_nil, hp⟩).of_true (Nat.zero_le _)
    | cons s ss =>
      obtain ⟨hsw, hsv⟩ := h s (.head _)
      have hss : ∀ s ∈ ss, s.isWellFormed = true ∧ s.value.Readable := fun s hs => h s (.tail _ hs)
      have hlt : ss.length < n := by
        rw [← hn]
        exact Nat.lt_succ_self _
      have hp' : p.At room (s.tokens ++ (tokensBody ss ++ tail)) := by
        simpa [tokensBody] using hp
      have hc : stop p.current.kind = false := by
        rw [hp'.kind_current]
        exact hstart _ (s.headKind_tokens hsw hsv _).1
      cases s with
      | binding t x v =>
        exact exact_collected_cons hs hstop hstep hc rfl (exact_binding hsw hsv hp')
          fun q hq => ih _ hlt hss hq rfl
      | result t v =>
        exact exact_collected_cons hs hstop hstep hc rfl (exact_result hsw hsv hp')
          fun q hq => ih _ hlt hss hq rfl
      | expression t v =>
        obtain ⟨run, rest, rfl, hrun, hrest⟩ := exists_run ss
        have hp'' : p.At room (v.tokens ++ (tokensBody run ++ (tokensBody rest ++ tail))) := by
          simpa [Stmt.tokens, tokensBody_append] using hp'
        have hlt' : rest.length < n := by
          rw [List.length_append] at hlt
          omega
        exact exact_collected_run hs hstop hstep hc hsv hss hrun hrest hends hp'' fun q hq =>
          ih _ hlt' (fun s hs => hss s (List.mem_append_right _ hs)) hq rfl

end

end ExprLang
