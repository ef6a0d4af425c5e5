import ExprLang.Proofs.Token.LongestMatch

/-!
# Tokens of a text that goes on

If the last lexeme of a text does not join the text behind it, the tokens of the whole are those of
the first text followed by those of the second, which lie further on by the length of the first
(`tokenize_append`). A tiling of the whole is put together from the two tilings, and there is only
one. Offsets that are shifted stop at the largest offset, as all offsets do; where the whole is not
longer than that, they do not stop (`tokenize_append_of_le`), and no two tokens start at the same
place (`pairwise_start_lt`).
-/

set_option autoImplicit false

namespace ExprLang

/-! ## Moving tokens -/

namespace Position

/-- The position further on by a number of bytes. -/
def add (bytes : Nat) (p : Position) : Position := ⟨p.offset + bytes, p.file⟩

/-- The position further on by a number of bytes, up to the largest offset. -/
def shift (bytes : Nat) (p : Position) : Position := .clamped p.file (p.offset + bytes)

theorem shift_clamped (bytes : Nat) (file : String) (offset : Nat) :
    shift bytes (clamped file offset) = clamped file (bytes + offset) := by
  simp only [shift, clamped, Position.mk.injEq, and_true]
  omega

theorem shift_of_le {bytes : Nat} {p : Position} (h : p.offset + bytes ≤ maxOffset) :
    shift bytes p = add bytes p := by
  rw [shift, clamped, Nat.min_eq_left h, add]

end Position

/-- The span with its ends moved. -/
def Span.relocate (f : Position → Position) (s : Span) : Span := ⟨f s.start, f s.stop⟩

/-- The token with its place moved. -/
def Token.relocate (f : Position → Position) (t : Token) : Token :=
  { t with span := t.span.relocate f }

@[simp] theorem Token.kind_relocate (f : Position → Position) (t : Token) :
    (t.relocate f).kind = t.kind := rfl

@[simp] theorem Token.literal_relocate (f : Position → Position) (t : Token) :
    (t.relocate f).literal = t.literal := rfl

/-! ## Slices of a text that goes on -/

namespace Text

theorem dropBytes?_add (front : List Char) (n : Nat) (cs : List Char) :
    dropBytes? (byteLength front + n) (front ++ cs) = dropBytes? n cs := by
  induction front with
  | nil => simp
  | cons c front ih =>
    rw [List.cons_append, dropBytes?_cons (by simp only [byteLength_cons]; omega), byteLength_cons,
      ← ih]
    congr 1
    omega

theorem slice?_eq_some_iff {start stop : Nat} {cs mid : List Char} :
    slice? start stop cs = some mid ↔ ∃ front rest, cs = front ++ (mid ++ rest) ∧
      byteLength front = start ∧ stop = start + byteLength mid := by
  constructor
  · intro h
    unfold slice? at h
    split at h
    next hle =>
      obtain ⟨text, hdrop, htake⟩ := Option.bind_eq_some_iff.1 h
      obtain ⟨front, rfl, hfront⟩ := dropBytes?_eq_some_iff.1 hdrop
      obtain ⟨rest, rfl, hmid⟩ := takeBytes?_eq_some_iff.1 htake
      exact ⟨front, rest, rfl, hfront, by omega⟩
    next => cases h
  · rintro ⟨front, rest, rfl, rfl, rfl⟩
    exact slice?_append_eq_some_iff.2 ⟨rest, rfl, rfl⟩

/-- A slice of a text is a slice of every text that goes on from it. -/
theorem slice?_append_right {start stop : Nat} {cs mid : List Char} (ds : List Char)
    (h : slice? start stop cs = some mid) : slice? start stop (cs ++ ds) = some mid := by
  obtain ⟨front, rest, rfl, hstart, hstop⟩ := slice?_eq_some_iff.1 h
  exact slice?_eq_some_iff.2 ⟨front, rest ++ ds, by simp, hstart, hstop⟩

/-- A slice of a text lies further on in a text with something in front. -/
theorem slice?_append_left {start stop : Nat} {cs mid : List Char} (ds : List Char)
    (h : slice? start stop cs = some mid) :
    slice? (byteLength ds + start) (byteLength ds + stop) (ds ++ cs) = some mid := by
  obtain ⟨front, rest, rfl, hstart, hstop⟩ := slice?_eq_some_iff.1 h
  refine slice?_eq_some_iff.2 ⟨ds ++ front, rest, by simp, by simp [hstart], by omega⟩

theorem slice?_le {start stop : Nat} {cs mid : List Char} (h : slice? start stop cs = some mid) :
    stop = start + byteLength mid ∧ stop ≤ byteLength cs := by
  obtain ⟨front, rest, rfl, hstart, hstop⟩ := slice?_eq_some_iff.1 h
  refine ⟨hstop, ?_⟩
  simp only [byteLength_append]
  omega

theorem slice?_join {start middle stop : Nat} {cs mid mid' : List Char}
    (h : slice? start middle cs = some mid) (h' : slice? middle stop cs = some mid') :
    slice? start stop cs = some (mid ++ mid') := by
  obtain ⟨front, rest, rfl, hstart, rfl⟩ := slice?_eq_some_iff.1 h
  rw [← hstart, ← byteLength_append, ← List.append_assoc] at h'
  obtain ⟨rest', rfl, rfl⟩ := slice?_append_eq_some_iff.1 h'
  refine slice?_eq_some_iff.2 ⟨front, rest', by simp, hstart, by simp [← hstart, Nat.add_assoc]⟩

end Text

/-! ## Tilings -/

namespace Token

/-- A token that does not join what follows is still there when the text goes on. -/
theorem AtFront.append {text rest ds : List Char} {t : Token} (h : t.AtFront text)
    (hrest : text = t.literal.toList ++ rest)
    (hjoin : ∀ c ∈ (rest ++ ds).head?, t.kind.joins c = false) : t.AtFront (text ++ ds) := by
  rcases h.isMunched with ⟨-, hspell⟩ | ⟨c, cs, rfl, hone, hk, hc, hnone⟩
  · obtain ⟨d, es, hd, hlay, hfirst⟩ := Lexeme.first_of_isSpelled hspell hjoin
    exact ⟨d, es ++ (rest ++ ds), by rw [hrest, hd]; simp, hlay, hfirst⟩
  · exact atFront_iff_isMunched.2 (.inr ⟨c, cs ++ ds, rfl, hone, hk, hc, hnone⟩)

end Token

namespace Tiling

variable {source front ds : List Char} {file : String} {offset start : Nat} {ts us : List Token}
  {fits : List Char → Token → Prop}

theorem ne_nil (h : Tiling fits source file offset ts) : ts ≠ [] := by
  cases h <;> exact List.cons_ne_nil _ _

/-- Layout in front of a tiling belongs to it. -/
theorem of_layout {gap : List Char} (h : Tiling fits source file start ts)
    (hgap : Text.slice? offset start source = some gap) (hlay : ∀ c ∈ gap, Text.isLayout c = true) :
    Tiling fits source file offset ts := by
  have hboth {gap' : List Char} (hlay' : ∀ c ∈ gap', Text.isLayout c = true) :
      ∀ c ∈ gap ++ gap', Text.isLayout c = true := by
    simpa [or_imp, forall_and] using ⟨hlay, hlay'⟩
  cases h with
  | final hgap' hlay' => exact .final (Text.slice?_join hgap hgap') (hboth hlay')
  | token hgap' hlay' hslice hspan htext hfit h =>
    exact .token (Text.slice?_join hgap hgap') (hboth hlay') hslice hspan htext hfit h

/-- A tiling lies further on in a text with something in front. -/
theorem shift (h : Tiling Token.AtFront source file offset ts) (front : List Char) :
    Tiling Token.AtFront (front ++ source) file (Text.byteLength front + offset)
      (ts.map (Token.relocate (.shift (Text.byteLength front)))) := by
  induction h with
  | final hgap hlay =>
    have hlast := Text.slice?_append_left front hgap
    rw [← Text.byteLength_append] at hlast
    have hfinal : Tiling Token.AtFront (front ++ source) file _ _ := .final hlast hlay
    simpa [Token.relocate, Span.relocate, Position.shift_clamped] using hfinal
  | @token offset start stop gap text t ts hgap hlay hslice hspan htext hfit _ ih =>
    refine .token (Text.slice?_append_left front hgap) hlay
      (Text.slice?_append_left front hslice) ?_ ?_ hfit ih
    · simp [Token.relocate, hspan, Span.relocate, Position.shift_clamped]
    · rw [Text.dropBytes?_add, htext]

/-- Nothing but the end lies behind the last byte. -/
theorem dropLast_of_end (h : Tiling Token.AtFront source file (Text.byteLength source) ts) :
    ts.dropLast = [] := by
  cases h with
  | final => rfl
  | token hgap _ hslice _ htext hfit _ =>
    obtain ⟨c, cs, rfl, -, -⟩ := hfit
    have := c.utf8Size_pos
    obtain ⟨-, -, -, -, hstart⟩ := Text.slice?_eq_some_iff.1 hgap
    obtain ⟨front, rfl, hfront⟩ := Text.dropBytes?_eq_some_iff.1 htext
    simp only [Text.byteLength_append, Text.byteLength_cons] at hstart
    omega

/-- Only a token that reaches up to the end can be joined by what is behind. -/
theorem append (h : Tiling Token.AtFront source file offset ts)
    (h' : Tiling Token.AtFront ds file 0 us)
    (hjoin : ∀ t, ts.dropLast.getLast? = some t →
      t.span.stop = .clamped file (Text.byteLength source) →
      ∀ c ∈ ds.head?, t.kind.joins c = false) :
    Tiling Token.AtFront (source ++ ds) file offset
      (ts.dropLast ++ us.map (Token.relocate (.shift (Text.byteLength source)))) := by
  induction h with
  | final hgap hlay => exact (h'.shift source).of_layout (Text.slice?_append_right ds hgap) hlay
  | @token offset start stop gap text t ts hgap hlay hslice hspan htext hfit hts ih =>
    rw [List.dropLast_cons_of_ne_nil hts.ne_nil] at hjoin ⊢
    obtain ⟨front, rfl, hstart⟩ := Text.dropBytes?_eq_some_iff.1 htext
    have hcut := hslice
    rw [← hstart] at hcut
    obtain ⟨rest, hrest, rfl⟩ := Text.slice?_append_eq_some_iff.1 hcut
    refine .token (Text.slice?_append_right ds hgap) hlay (Text.slice?_append_right ds hslice) hspan
      (?_ : Text.dropBytes? start _ = some (text ++ ds)) (hfit.append hrest ?_)
      (ih fun u hu => hjoin u ?_)
    · rw [List.append_assoc, ← hstart, Text.dropBytes?_append]
    · cases rest with
      | cons d rest =>
        have := hfit.isMunched.not_joins
        rw [hrest, List.drop_left] at this
        exact this
      | nil =>
        -- the token reaches up to the end, so it is the last one
        rw [List.append_nil] at hrest
        rw [hrest, ← Text.byteLength_append] at hts
        refine hjoin t (by rw [hts.dropLast_of_end]; rfl) ?_
        rw [hspan, hrest, Text.byteLength_append]
    · rw [List.getLast?_cons, hu]
      rfl

theorem offset_le (h : Tiling fits source file offset ts) {t : Token} (ht : t ∈ ts) :
    t.span.start.offset ≤ Text.byteLength source ∧
      t.span.stop.offset ≤ Text.byteLength source := by
  induction h with
  | final =>
    obtain rfl := List.mem_singleton.1 ht
    exact ⟨Nat.min_le_left _ _, Nat.min_le_left _ _⟩
  | @token offset start stop gap text u us hgap hlay hslice hspan htext hfit hts ih =>
    rcases List.mem_cons.1 ht with rfl | ht
    · rw [hspan]
      have hstart := (Text.slice?_le hgap).2
      have hstop := (Text.slice?_le hslice).2
      exact ⟨Nat.le_trans (Nat.min_le_left _ _) hstart, Nat.le_trans (Nat.min_le_left _ _) hstop⟩
    · exact ih ht

section
variable (hlen : Text.byteLength source ≤ Position.maxOffset)
include hlen

theorem le_start (h : Tiling fits source file offset ts) {t : Token} (ht : t ∈ ts) :
    offset ≤ t.span.start.offset := by
  induction h with
  | final hgap =>
    obtain rfl := List.mem_singleton.1 ht
    rw [Position.offset_clamped_of_le hlen]
    exact Nat.le.intro (Text.slice?_le hgap).1.symm
  | @token offset start stop gap text u us hgap hlay hslice hspan htext hfit hts ih =>
    obtain ⟨hstart, hle⟩ := Text.slice?_le hgap
    rcases List.mem_cons.1 ht with rfl | ht
    · rw [hspan, Position.offset_clamped_of_le (Nat.le_trans hle hlen)]
      exact Nat.le.intro hstart.symm
    · have hstop := (Text.slice?_le hslice).1
      exact Nat.le_trans (by omega) (ih ht)

/-- Every token starts behind the start of the one before. -/
theorem pairwise_start_lt (h : Tiling Token.AtFront source file offset ts) :
    ts.Pairwise fun t u => t.span.start.offset < u.span.start.offset := by
  induction h with
  | final => exact List.pairwise_singleton _ _
  | @token offset start stop gap text u us hgap hlay hslice hspan htext hfit hts ih =>
    refine List.pairwise_cons.2 ⟨fun v hv => ?_, ih⟩
    have hle := hts.le_start hlen hv
    have hstop := (Text.slice?_le hslice).1
    have hpos : 0 < Text.byteLength u.literal.toList :=
      Nat.pos_of_ne_zero (mt Text.byteLength_eq_zero_iff.1 hfit.literal_ne_nil)
    rw [hspan, Position.offset_clamped_of_le (Nat.le_trans (Text.slice?_le hgap).2 hlen)]
    omega

end

end Tiling

/-! ## Sources -/

section
variable {a b : String} {file : Option String}

/-- Only the last token can be joined by what is behind, and only if it reaches up to the end. -/
theorem tokenize_append_of_stop (hjoin : ∀ t, (tokenize a file).dropLast.getLast? = some t →
      t.span.stop = .clamped (file.getD defaultFile) a.utf8ByteSize →
      ∀ c ∈ b.toList.head?, t.kind.joins c = false) :
    tokenize (a ++ b) file =
      (tokenize a file).dropLast ++
        (tokenize b file).map (Token.relocate (.shift a.utf8ByteSize)) := by
  rw [← Text.byteLength_toList] at hjoin
  have h := (tiling_tokenize a file).append (tiling_tokenize b file) hjoin
  rw [← String.toList_append, Text.byteLength_toList] at h
  exact (tiling_iff.1 h).symm

/-- Offsets that all fit are shifted without stopping. -/
theorem map_shift_tokenize {n : Nat} (hlen : n + b.utf8ByteSize ≤ Position.maxOffset) :
    (tokenize b file).map (Token.relocate (.shift n)) =
      (tokenize b file).map (Token.relocate (.add n)) := by
  refine List.map_congr_left fun t ht => ?_
  obtain ⟨hstart, hstop⟩ := (tiling_tokenize b file).offset_le ht
  rw [Text.byteLength_toList] at hstart hstop
  rw [Token.relocate, Token.relocate, Span.relocate, Span.relocate, Position.shift_of_le (by omega),
    Position.shift_of_le (by omega)]

variable (hjoin : ∀ t, (tokenize a file).dropLast.getLast? = some t →
    ∀ c ∈ b.toList.head?, t.kind.joins c = false)
include hjoin

theorem tokenize_append : tokenize (a ++ b) file =
    (tokenize a file).dropLast ++
      (tokenize b file).map (Token.relocate (.shift a.utf8ByteSize)) :=
  tokenize_append_of_stop fun t ht _ => hjoin t ht

theorem dropLast_tokenize_append : (tokenize (a ++ b) file).dropLast =
    (tokenize a file).dropLast ++
      (tokenize b file).dropLast.map (Token.relocate (.shift a.utf8ByteSize)) := by
  have hne : (tokenize b file).map (Token.relocate (.shift a.utf8ByteSize)) ≠ [] :=
    List.map_eq_nil_iff.not.2 (tiling_tokenize b file).ne_nil
  rw [tokenize_append hjoin, List.dropLast_append_of_ne_nil hne, List.map_dropLast]

theorem tokenize_append_of_le (hlen : a.utf8ByteSize + b.utf8ByteSize ≤ Position.maxOffset) :
    tokenize (a ++ b) file =
      (tokenize a file).dropLast ++
        (tokenize b file).map (Token.relocate (.add a.utf8ByteSize)) := by
  rw [tokenize_append hjoin, map_shift_tokenize hlen]

end

end ExprLang
