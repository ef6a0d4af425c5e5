import ExprLang.Proofs.Parser.Cursor
import ExprLang.Proofs.Token.Concatenation

/-!
# Errors describe the tokens they point at

An error is recorded at the current token or at the one behind it, and quotes the same token: its
kind and spelling are those of the token at its position, and that token is one that the fault can
be found in (`Fault.Describes`). This is kept by each move of the cursor (`Described.move`), so by
every parse, also where it goes on behind other errors. Main statement (`describes_of_mem_errors`):
each error of a source points at one token of the source and describes it.
-/

set_option autoImplicit false

namespace ExprLang

open Cursor

/-! ## Descriptions -/

/-- The fault is one of the token `t`, in a source that has the tokens `front` before it. -/
def Fault.Describes (options : Options) (front : List Token) (t : Token) : Fault → Prop
  | illegalToken token => token = t.literal ∧ t.kind = .illegal
  | noPrefixRule kind token =>
    kind = t.kind ∧ token = t.literal ∧ t.kind ≠ .illegal ∧ t.kind.prefixRule? = none
  | unexpectedToken expected found token =>
    found = t.kind ∧ token = t.literal ∧ expected ≠ found ∧
      (expected = .semicolon → options.requireSemicolons = true) ∧
      (expected = .closeCurly → t.kind = .eof)
  | unexpectedTokenDetailed token _ =>
    token = t.literal ∧ t.kind ≠ .comma ∧ t.kind ≠ .closeParen ∧
      ∃ name, front.getLast? = some name ∧ name.kind = .identifier
  | invalidNumber token =>
    token = t.literal ∧ t.kind = .integer ∧ Text.maxInt64 < Text.decimalValue token.toList
  | nestingTooDeep limit => limit = maxNestingDepth

/-- The fault is one of a token that starts at the error's position. -/
def Diagnostic.Describes (options : Options) (tokens : List Token) (d : Diagnostic) : Prop :=
  ∃ front t behind, tokens = front ++ t :: behind ∧ d.position = t.span.start ∧
    d.fault.Describes options front t

/-! ## Tokens of a stream -/

namespace TokenStream

variable {s : TokenStream} {tokens : List Token}

theorem toList_advance_suffix (s : TokenStream) : s.advance.toList <:+ s.toList := by
  by_cases h : s.current.kind = .eof
  · have hnil := kind_current_eq_eof_iff.1 h
    simp [toList, hnil]
  · rw [toList_advance h]
    exact List.suffix_cons _ _

/-- Where a stream is left of the tokens, they are split at its current token. -/
theorem exists_front (h : s.toList <:+ tokens) :
    ∃ front, tokens = front ++ s.current :: s.toList.tail := by
  obtain ⟨front, hfront⟩ := h
  rw [toList_eq_cons] at hfront
  exact ⟨front, hfront.symm⟩

theorem current_mem (h : s.toList <:+ tokens) : s.current ∈ tokens := by
  refine h.subset ?_
  rw [toList_eq_cons]
  exact List.mem_cons_self

end TokenStream

/-- A parse starts in front of all tokens but the end of the source. -/
theorem mem_ahead_opened {source : String} {file : Option String} {options : Options} {t : Token}
    (ht : t ∈ tokenize source file) (hk : t.kind ≠ .eof) :
    t ∈ (Parser.opened source file options).ahead := by
  refine (List.mem_append.1 ht).resolve_right fun hfinal => ?_
  rw [List.mem_singleton.1 hfinal] at hk
  exact hk (TokenStream.final_eq_eof _)

/-- The numbers of a source that are not read are those out of range. -/
theorem Token.lt_decimalValue_of_mem {source : String} {file : Option String} {t : Token}
    (ht : t ∈ tokenize source file) (hk : t.kind = .integer) :
    Text.readInt64? t.literal.toList = none ↔
      Text.maxInt64 < Text.decimalValue t.literal.toList := by
  have hspelled : t.isSpelled = true := by
    rcases List.mem_append.1 ht with ht | ht
    · exact TokenStream.isSpelled_of_mem_ahead ht (by simp [hk])
    · rw [List.mem_singleton.1 ht, TokenStream.final_eq_eof] at hk
      cases hk
  unfold Token.isSpelled at hspelled
  rw [hk] at hspelled
  have hsome := Text.isSome_readInt64? hspelled
  rw [← Nat.not_le, ← hsome, Option.not_isSome_iff_eq_none]

/-! ## Moves of the cursor -/

section
variable {source : String} {file : Option String} {options : Options}

/-- All that is recorded describes tokens of the source, some of which are still ahead. -/
structure Described (source : String) (file : Option String) (options : Options) (p : Parser) :
    Prop where
  stream : p.stream.toList <:+ tokenize source file
  options_eq : p.options = options
  recorded : ∀ d ∈ p.recorded, d.Describes options (tokenize source file)

namespace Described

variable {p : Parser} {fault : Fault} (h : Described source file options p)
include h

theorem recordAt {position : Position}
    (hf : Diagnostic.Describes options (tokenize source file) ⟨fault, position⟩) :
    Described source file options (p.recordAt fault position) :=
  ⟨h.stream, h.options_eq, List.forall_mem_cons.2 ⟨hf, h.recorded⟩⟩

theorem advance : Described source file options p.advance :=
  ⟨p.stream.toList_advance_suffix.trans h.stream, h.options_eq, h.recorded⟩

/-- A description of the current token that does not ask for what is in front of it. -/
theorem describes_current (hf : ∀ front, fault.Describes options front p.current) :
    Diagnostic.Describes options (tokenize source file) ⟨fault, p.current.span.start⟩ := by
  obtain ⟨front, hfront⟩ := TokenStream.exists_front h.stream
  exact ⟨front, p.current, _, hfront, rfl, hf front⟩

theorem record (hf : ∀ front, fault.Describes options front p.current) :
    Described source file options (p.record fault) :=
  h.recordAt (h.describes_current hf)

/-- Behind a parameter, the token in front is known. -/
theorem parameter (hk : p.current.kind = .identifier) (hcomma : p.peek.kind ≠ .comma)
    (hparen : p.peek.kind ≠ .closeParen) {message : String} :
    Described source file options
      (p.advance.record (.unexpectedTokenDetailed p.peek.literal message)) := by
  obtain ⟨front, hfront⟩ := h.stream
  have hne : p.stream.current.kind ≠ .eof := by
    intro he
    rw [show p.stream.current.kind = .identifier from hk] at he
    cases he
  rw [TokenStream.toList_advance hne, TokenStream.toList_eq_cons p.stream.advance,
    List.append_cons] at hfront
  refine h.advance.recordAt ⟨_, p.peek, _, hfront.symm, rfl, rfl, hcomma, hparen, ?_⟩
  exact ⟨p.current, List.getLast?_concat, hk⟩

end Described

theorem described_opened : Described source file options (.opened source file options) :=
  ⟨List.suffix_refl _, rfl, fun _ hd => absurd hd List.not_mem_nil⟩

theorem Described.move {c d : Cursor} (h : c.Move d) (hc : Described source file options c.parser) :
    Described source file options d.parser := by
  cases h with
  | note | take | closeBlock => exact ⟨hc.stream, hc.options_eq, hc.recorded⟩
  | advance | resume => exact hc.advance
  | openBlock => exact hc.advance.advance
  | number hk hnone =>
    have hmem := TokenStream.current_mem hc.stream
    exact hc.record fun _ => ⟨rfl, hk, (Token.lt_decimalValue_of_mem hmem hk).1 hnone⟩
  | reject hr =>
    refine hc.record fun _ => ?_
    cases hr with
    | illegal hk => exact ⟨rfl, hk⟩
    | noPrefixRule hk hnone => exact ⟨rfl, rfl, hk, hnone⟩
    | tooDeep => rfl
  | parameter hk hcomma hparen => exact hc.parameter hk hcomma hparen
  | unexpected hkind hstrict hne =>
    refine hc.recordAt (hc.advance.describes_current fun _ => ?_)
    refine ⟨rfl, rfl, hne.symm, fun hk => hc.options_eq ▸ hstrict hk, fun hk => ?_⟩
    rw [hk] at hkind
    exact absurd hkind (by decide)
  | unclosed hk => exact hc.record fun _ => ⟨hk.symm, rfl, nofun, nofun, fun _ => hk⟩

/-- Every error that is recorded describes a token of the source. -/
theorem describes_errors {d : Diagnostic} (hd : d ∈ (parse source file options).errors) :
    d.Describes options (tokenize source file) := by
  obtain ⟨q, hq, -, herrors⟩ := parse_keeps (I := fun c => Described source file options c.parser)
    Described.move described_opened
  rw [herrors] at hd
  exact hq.recorded d (List.mem_reverse.1 hd)

end

/-! ## One token at each position -/

theorem pairwise_start_tokenize {source : String} {file : Option String}
    (hlen : source.utf8ByteSize ≤ Position.maxOffset) :
    (tokenize source file).Pairwise fun t u => t.span.start.offset < u.span.start.offset := by
  rw [← Text.byteLength_toList] at hlen
  exact (tiling_tokenize source file).pairwise_start_lt hlen

/-- An error points at one token of the source and describes it. -/
theorem describes_of_mem_errors {source : String} {file : Option String} {options : Options}
    (hlen : source.utf8ByteSize ≤ Position.maxOffset) {e : Diagnostic}
    (he : e ∈ (parse source file options).errors) :
    ∃ front t behind, tokenize source file = front ++ t :: behind ∧ t.span.start = e.position ∧
      (∀ u ∈ front ++ behind, u.span.start ≠ e.position) ∧ e.fault.Describes options front t := by
  obtain ⟨front, t, behind, htokens, hposition, hdescribes⟩ := describes_errors he
  refine ⟨front, t, behind, htokens, hposition.symm, fun u hu hstart => ?_, hdescribes⟩
  obtain ⟨-, hbehind, hfront⟩ := List.pairwise_append.1 (htokens ▸ pairwise_start_tokenize hlen)
  rw [hposition] at hstart
  rcases List.mem_append.1 hu with hu | hu
  · have := hfront u hu t List.mem_cons_self
    rw [hstart] at this
    exact Nat.lt_irrefl _ this
  · have := (List.pairwise_cons.1 hbehind).1 u hu
    rw [hstart] at this
    exact Nat.lt_irrefl _ this

/-- A parameter list that goes on with a number, and a number that is out of range behind it. -/
theorem describes_of_mem_errors_parameter :
    ("fn(a 7) 9223372036854775808".utf8ByteSize ≤ Position.maxOffset ∧
      ⟨.unexpectedTokenDetailed "7" "expected `,` or `)` in parameter list", ⟨5, "shell"⟩⟩ ∈
        (parse "fn(a 7) 9223372036854775808" none {}).errors) ∧
    (parse "fn(a 7) 9223372036854775808" none {}).errors.length = 3 ∧
    ∃ front t behind, tokenize "fn(a 7) 9223372036854775808" none = front ++ t :: behind ∧
      t.span.start = ⟨5, "shell"⟩ ∧ (∀ u ∈ front ++ behind, u.span.start ≠ ⟨5, "shell"⟩) ∧
      (Fault.unexpectedTokenDetailed "7" "expected `,` or `)` in parameter list").Describes {}
        front t := by
  have hlen : "fn(a 7) 9223372036854775808".utf8ByteSize ≤ Position.maxOffset := by decide
  have hmem : ⟨.unexpectedTokenDetailed "7" "expected `,` or `)` in parameter list",
      ⟨5, "shell"⟩⟩ ∈ (parse "fn(a 7) 9223372036854775808" none {}).errors := by decide +kernel
  exact ⟨⟨hlen, hmem⟩, by decide +kernel, describes_of_mem_errors hlen hmem⟩

end ExprLang
