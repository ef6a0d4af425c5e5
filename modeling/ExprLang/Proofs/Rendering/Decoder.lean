import ExprLang.Proofs.Rendering.Tokens
import ExprLang.Proofs.Tree.Built

/-!
# A decoder of canonical texts

The decoder knows how canonical texts are written, and needs no binding powers: an operation stands
in parentheses, and where a parenthesis follows an expression a call goes on. Blanks and line ends
are read like marks, so two statements are never taken for a call. The fuel bounds how often a
decoder calls itself. `Reads`: with enough fuel a decoder takes a given front part off a text;
decoders in sequence read what they read one by one (`Reads.bind`).
-/

set_option autoImplicit false

namespace ExprLang

/-- The kind of the lexeme at the front of a text. -/
def frontKind : List Char → Kind
  | [] => .eof
  | c :: cs => (Lexeme.first c cs).kind

/-- Takes something off the front of a text, or fails. -/
def Decoder (α : Type) : Type := List Char → Option (α × List Char)

namespace Decoder

variable {α β : Type}

instance : Monad Decoder where
  pure a := fun cs => some (a, cs)
  bind m f := fun cs => match m cs with
    | some (a, rest) => f a rest
    | none => none

theorem bind_of_some {m : Decoder α} {f : α → Decoder β} {cs rest : List Char} {a : α}
    (h : m cs = some (a, rest)) : (m >>= f) cs = f a rest := by
  change (match m cs with
    | some (a, rest) => f a rest
    | none => none) = _
  rw [h]

/-! ## Basic decoders -/

def fail : Decoder α := fun _ => none

/-- The kind of what comes next. -/
def front : Decoder Kind := fun cs => some (frontKind cs, cs)

/-- Whether the text starts like that. -/
def startsWith (text : String) : Decoder Bool := fun cs => some (text.toList.isPrefixOf cs, cs)

/-- Any token. -/
def token : Decoder Token
  | [] => none
  | c :: cs =>
    let lexeme := Lexeme.first c cs
    some (.mark lexeme.kind (String.ofList lexeme.text), (c :: cs).drop lexeme.text.length)

/-- A token of the given kind. -/
def mark (kind : Kind) : Decoder Unit := do
  let token ← token
  if token.kind = kind then return () else fail

/-- The given character, which may be layout. -/
def char (c : Char) : Decoder Unit
  | [] => none
  | d :: cs => if d = c then some ((), cs) else none

/-- A name. -/
def name : Decoder Identifier := do return .ofToken (← token)

/-- At least one item, with commas between them, and the closing parenthesis. -/
def items (item : Decoder α) : Nat → Decoder (List α)
  | 0 => fail
  | fuel + 1 => do
    let first ← item
    if (← front) = .comma then
      mark .comma
      return first :: (← items item fuel)
    else
      mark .closeParen
      return [first]

/-- Items with commas between them, and the closing parenthesis. -/
def list (item : Decoder α) (fuel : Nat) : Decoder (List α) := do
  if (← front) = .closeParen then
    mark .closeParen
    return []
  else items item fuel

/-! ## Trees -/

mutual

/-- An expression, with all calls of it. -/
def expression : Nat → Decoder Expr
  | 0 => fail
  | fuel + 1 => do calls fuel (← operand fuel)

/-- The calls of an expression. -/
def calls : Nat → Expr → Decoder Expr
  | 0, _ => fail
  | fuel + 1, callee => do
    if (← front) = .openParen then
      let token ← token
      let arguments ← list (expression fuel) fuel
      calls fuel (.call token callee arguments)
    else return callee

/-- An expression that is no call. -/
def operand : Nat → Decoder Expr
  | 0 => fail
  | fuel + 1 => do
    let token ← token
    match token.kind with
    | .identifier => return .identifier (.ofToken token)
    | .integer => return .integer token (Text.countedValue token.literal)
    | .trueKeyword => return .boolean token true
    | .falseKeyword => return .boolean token false
    | .openParen => operation fuel
    | .ifKeyword =>
      char ' '
      mark .openParen
      let condition ← expression fuel
      mark .closeParen
      char ' '
      let consequence ← block fuel
      return .conditional token condition consequence (← alternative fuel)
    | .fnKeyword =>
      mark .openParen
      let parameters ← list name fuel
      char ' '
      return .function token parameters (← block fuel)
    | _ => fail

/-- An operation behind its opening parenthesis. -/
def operation : Nat → Decoder Expr
  | 0 => fail
  | fuel + 1 => do
    if (← front) ∈ Kind.unaryOperators then
      let token ← token
      let right ← expression fuel
      mark .closeParen
      return .unary token token.literal right
    else
      let left ← expression fuel
      let token ← token
      let right ← expression fuel
      mark .closeParen
      return .binary token left token.literal right

/-- The alternative of a conditional, if it has one. -/
def alternative : Nat → Decoder (Option Block)
  | 0 => fail
  | fuel + 1 => do
    if ← startsWith " else " then
      char ' '
      mark .elseKeyword
      char ' '
      return some (← block fuel)
    else return none

def block : Nat → Decoder Block
  | 0 => fail
  | fuel + 1 => do
    let token ← token
    char ' '
    return .mk token (← body fuel)

/-- The statements of a block, and the closing brace. -/
def body : Nat → Decoder (List Stmt)
  | 0 => fail
  | fuel + 1 => do
    if (← front) = .closeCurly then
      mark .closeCurly
      return []
    else
      let statement ← statement fuel
      char ' '
      return statement :: (← body fuel)

def statement : Nat → Decoder Stmt
  | 0 => fail
  | fuel + 1 => do
    if (← front) = .letKeyword then
      let token ← token
      char ' '
      let name ← name
      char ' '
      mark .assignment
      char ' '
      let value ← expression fuel
      mark .semicolon
      return .binding token name value
    else if (← front) = .returnKeyword then
      let token ← token
      char ' '
      let value ← expression fuel
      mark .semicolon
      return .result token value
    else return .expression default (← expression fuel)

end

/-- The statements of a program, each on a line of its own. -/
def lines : Nat → Decoder (List Stmt)
  | 0 => fail
  | fuel + 1 => do
    if (← front) = .eof then return []
    else
      let statement ← statement fuel
      char '\n'
      return statement :: (← lines fuel)

/-! ## What decoders read -/

/-- With enough fuel the decoder takes `a` off the text and leaves `rest`. -/
def Reads (d : Nat → Decoder α) (cs : List Char) (a : α) (rest : List Char) : Prop :=
  ∃ enough, ∀ fuel ≥ enough, d fuel cs = some (a, rest)

variable {d : Nat → Decoder α} {f : Nat → α → Decoder β} {cs rest last : List Char} {a : α} {b : β}

theorem Reads.unique {a' : α} {rest' : List Char} (h : Reads d cs a rest)
    (h' : Reads d cs a' rest') : a = a' ∧ rest = rest' := by
  obtain ⟨n, hn⟩ := h
  obtain ⟨m, hm⟩ := h'
  have heq := (hn _ (Nat.le_max_left n m)).symm.trans (hm _ (Nat.le_max_right n m))
  exact Prod.mk.inj (Option.some.inj heq)

theorem reads_pure (a : α) (cs : List Char) : Reads (fun _ => pure a) cs a cs :=
  ⟨0, fun _ _ => rfl⟩

theorem Reads.shift (h : Reads d cs a rest) : Reads (fun fuel => d (fuel + 1)) cs a rest := by
  obtain ⟨n, hn⟩ := h
  exact ⟨n, fun fuel hle => hn _ (Nat.le_succ_of_le hle)⟩

/-- The decoder may use up fuel before it starts. -/
theorem Reads.of_succ (h : Reads (fun fuel => d (fuel + 1)) cs a rest) : Reads d cs a rest := by
  obtain ⟨n, hn⟩ := h
  refine ⟨n + 1, fun fuel hle => ?_⟩
  obtain ⟨m, rfl⟩ : ∃ m, fuel = m + 1 := ⟨fuel - 1, by omega⟩
  exact hn m (Nat.le_of_succ_le_succ hle)

theorem Reads.bind (hd : Reads d cs a rest) (hf : Reads (fun fuel => f fuel a) rest b last) :
    Reads (fun fuel => d fuel >>= f fuel) cs b last := by
  obtain ⟨n, hn⟩ := hd
  obtain ⟨m, hm⟩ := hf
  refine ⟨max n m, fun fuel hle => ?_⟩
  have hfirst := hn fuel (Nat.le_trans (Nat.le_max_left n m) hle)
  exact (bind_of_some hfirst).trans (hm fuel (Nat.le_trans (Nat.le_max_right n m) hle))

theorem Reads.map {g : α → β} (hd : Reads d cs a rest) :
    Reads (fun fuel => d fuel >>= fun a => pure (g a)) cs (g a) rest :=
  hd.bind (reads_pure _ _)

/-- A basic decoder needs no fuel. -/
theorem reads_bind {m : Decoder α} (hm : m cs = some (a, rest))
    (hf : Reads (fun fuel => f fuel a) rest b last) : Reads (fun fuel => m >>= f fuel) cs b last :=
  Reads.bind (d := fun _ => m) ⟨0, fun _ _ => hm⟩ hf

theorem reads_front_bind {f : Nat → Kind → Decoder β}
    (hf : Reads (fun fuel => f fuel (frontKind cs)) cs b last) :
    Reads (fun fuel => front >>= f fuel) cs b last := hf

theorem reads_if_pos {p : Kind → Prop} [DecidablePred p] {d e : Nat → Decoder β}
    (hp : p (frontKind cs)) (h : Reads d cs b last) :
    Reads (fun fuel => front >>= fun kind => if p kind then d fuel else e fuel) cs b last := by
  refine reads_front_bind ?_
  simp only [if_pos hp]
  exact h

theorem reads_if_neg {p : Kind → Prop} [DecidablePred p] {d e : Nat → Decoder β}
    (hp : ¬ p (frontKind cs)) (h : Reads e cs b last) :
    Reads (fun fuel => front >>= fun kind => if p kind then d fuel else e fuel) cs b last := by
  refine reads_front_bind ?_
  simp only [if_neg hp]
  exact h

theorem reads_char_bind {f : Nat → Unit → Decoder β} {c : Char}
    (hf : Reads (fun fuel => f fuel ()) cs b last) :
    Reads (fun fuel => char c >>= f fuel) (c :: cs) b last :=
  reads_bind (if_pos rfl) hf

/-! ## Tokens at the front -/

theorem frontKind_append {t : Token} (ht : t.isSpelled = true)
    (hj : ∀ c ∈ cs.head?, t.kind.joins c = false) :
    frontKind (t.literal.toList ++ cs) = t.kind := by
  obtain ⟨d, ds, hd, -, hfirst⟩ := Lexeme.first_of_isSpelled ht hj
  rw [hd, List.cons_append, frontKind, hfirst]

theorem token_append {t : Token} (ht : t.isSpelled = true)
    (hj : ∀ c ∈ cs.head?, t.kind.joins c = false) :
    token (t.literal.toList ++ cs) = some (t.bare, cs) := by
  obtain ⟨d, ds, hd, -, hfirst⟩ := Lexeme.first_of_isSpelled ht hj
  have hdrop : (d :: (ds ++ cs)).drop t.literal.toList.length = cs := by
    rw [hd, ← List.cons_append, List.drop_left]
  rw [hd, List.cons_append, token, hfirst]
  dsimp only
  rw [hdrop, String.ofList_toList]
  rfl

theorem mark_append {t : Token} (ht : t.isSpelled = true)
    (hj : ∀ c ∈ cs.head?, t.kind.joins c = false) :
    mark t.kind (t.literal.toList ++ cs) = some ((), cs) := by
  rw [mark, bind_of_some (token_append ht hj), if_pos (show t.bare.kind = t.kind from rfl)]
  rfl

/-- The marks of one character that no character joins. -/
def marks : List (Char × Kind) :=
  [('(', .openParen), (')', .closeParen), ('\x7b', .openCurly), ('\x7d', .closeCurly),
   (',', .comma), (';', .semicolon)]

theorem isSpelled_of_mem_marks {c : Char} {kind : Kind} (h : (c, kind) ∈ marks) :
    (Token.mark kind (String.ofList [c])).isSpelled = true ∧ ∀ d, kind.joins d = false := by
  simp only [marks, List.mem_cons, List.not_mem_nil, or_false, Prod.mk.injEq] at h
  rcases h with ⟨rfl, rfl⟩ | ⟨rfl, rfl⟩ | ⟨rfl, rfl⟩ | ⟨rfl, rfl⟩ | ⟨rfl, rfl⟩ | ⟨rfl, rfl⟩ <;>
    exact ⟨by decide +kernel, fun _ => rfl⟩

theorem frontKind_mark {c : Char} {kind : Kind} (h : (c, kind) ∈ marks) (cs : List Char) :
    frontKind (c :: cs) = kind := by
  obtain ⟨hs, hj⟩ := isSpelled_of_mem_marks h
  have hfront := frontKind_append hs fun d (_ : d ∈ cs.head?) => hj d
  simpa [Token.mark] using hfront

theorem token_mark {c : Char} {kind : Kind} (h : (c, kind) ∈ marks) (cs : List Char) :
    token (c :: cs) = some (.mark kind (String.ofList [c]), cs) := by
  obtain ⟨hs, hj⟩ := isSpelled_of_mem_marks h
  have htoken := token_append hs fun d (_ : d ∈ cs.head?) => hj d
  simpa [Token.mark, Token.bare] using htoken

theorem reads_mark_bind {f : Nat → Unit → Decoder β} {c : Char} {kind : Kind}
    (h : (c, kind) ∈ marks) (hf : Reads (fun fuel => f fuel ()) cs b last) :
    Reads (fun fuel => mark kind >>= f fuel) (c :: cs) b last := by
  obtain ⟨hs, hj⟩ := isSpelled_of_mem_marks h
  have hmark := mark_append hs fun d (_ : d ∈ cs.head?) => hj d
  simp only [Token.mark, String.toList_ofList, List.cons_append, List.nil_append] at hmark
  exact reads_bind hmark hf

end Decoder

end ExprLang
