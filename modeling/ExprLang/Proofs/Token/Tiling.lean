import ExprLang.Token.Stream
import Mathlib.Data.List.TakeWhile

/-!
# Tokens tile their source

`Tiling fits source file offset ts`: from the byte `offset` on, the source is the tokens `ts`, each
in its place and one behind the other, with nothing but layout before, between and behind them; and
`fits text t` holds of every token `t`, where `text` is the source from that token on. Main
statement (`tokenize_tiles`): the tokens of every source tile it.
-/

set_option autoImplicit false

namespace ExprLang

/-! ## Slices -/

namespace Text

/-- The text of the first `n` bytes, unless `n` falls inside a character or behind the end. -/
def takeBytes? : Nat → List Char → Option (List Char)
  | 0, _ => some []
  | _ + 1, [] => none
  | n + 1, c :: cs =>
    if c.utf8Size ≤ n + 1 then (takeBytes? (n + 1 - c.utf8Size) cs).map (c :: ·) else none

/-- The text between two byte offsets, which must be in order and between characters. -/
def slice? (start stop : Nat) (cs : List Char) : Option (List Char) :=
  if start ≤ stop then (dropBytes? start cs).bind (takeBytes? (stop - start)) else none

theorem takeBytes?_append (front rest : List Char) :
    takeBytes? (byteLength front) (front ++ rest) = some front := by
  induction front with
  | nil => simp [takeBytes?]
  | cons c cs ih =>
    have := c.utf8Size_pos
    obtain ⟨n, hn⟩ : ∃ n, byteLength (c :: cs) = n + 1 := ⟨byteLength (c :: cs) - 1, by simp; omega⟩
    have hsub : n + 1 - c.utf8Size = byteLength cs := by rw [← hn]; simp
    rw [hn, List.cons_append, takeBytes?, if_pos (by rw [← hn]; simp), hsub, ih]
    rfl

theorem takeBytes?_eq_some_iff {n : Nat} {cs front : List Char} :
    takeBytes? n cs = some front ↔ ∃ rest, cs = front ++ rest ∧ byteLength front = n := by
  refine ⟨fun h => ?_, fun ⟨rest, hcs, hn⟩ => hcs ▸ hn ▸ takeBytes?_append front rest⟩
  fun_induction takeBytes? n cs generalizing front with
  | case1 cs => cases h; exact ⟨cs, rfl, rfl⟩
  | case2 => cases h
  | case3 n c cs hc ih =>
    obtain ⟨front', hfront, rfl⟩ := Option.map_eq_some_iff.1 h
    obtain ⟨rest, hcs, hn⟩ := ih hfront
    exact ⟨rest, by rw [hcs]; rfl, by rw [byteLength_cons, hn]; omega⟩
  | case4 => cases h

/-- Slices from the end of a front part on. -/
theorem slice?_append_eq_some_iff {front text mid : List Char} {stop : Nat} :
    slice? (byteLength front) stop (front ++ text) = some mid ↔
      ∃ rest, text = mid ++ rest ∧ stop = byteLength front + byteLength mid := by
  unfold slice?
  rw [dropBytes?_append, Option.bind_some]
  constructor
  · intro h
    split at h
    next hle =>
      obtain ⟨rest, htext, hmid⟩ := takeBytes?_eq_some_iff.1 h
      exact ⟨rest, htext, by omega⟩
    next => cases h
  · rintro ⟨rest, htext, rfl⟩
    rw [if_pos (Nat.le_add_right _ _), Nat.add_sub_cancel_left, htext, takeBytes?_append]

end Text

/-- A token is known by its spelling and by where it starts and ends. -/
theorem Token.eq_placed {t : Token} {file : String} {start : Nat}
    (h : t.span = ⟨.clamped file start, .clamped file (start + Text.byteLength t.literal.toList)⟩) :
    t = .placed file start t.kind t.literal := by
  rw [Text.byteLength_toList] at h
  rw [placed, Span.clamped, ← h]

/-! ## Tilings -/

/-- The tokens are the source from the byte `offset` on, but for layout (module doc). -/
inductive Tiling (fits : List Char → Token → Prop) (source : List Char) (file : String) :
    Nat → List Token → Prop
  | final {offset : Nat} {gap : List Char} :
      Text.slice? offset (Text.byteLength source) source = some gap →
      (∀ c ∈ gap, Text.isLayout c = true) →
      Tiling fits source file offset [⟨.eof, "",
        ⟨.clamped file (Text.byteLength source), .clamped file (Text.byteLength source)⟩⟩]
  | token {offset start stop : Nat} {gap text : List Char} {t : Token} {ts : List Token} :
      Text.slice? offset start source = some gap → (∀ c ∈ gap, Text.isLayout c = true) →
      Text.slice? start stop source = some t.literal.toList →
      t.span = ⟨.clamped file start, .clamped file stop⟩ →
      Text.dropBytes? start source = some text → fits text t →
      Tiling fits source file stop ts → Tiling fits source file offset (t :: ts)

theorem Tiling.mono {fits fits' : List Char → Token → Prop} {source : List Char} {file : String}
    {offset : Nat} {ts : List Token} (h : Tiling fits source file offset ts)
    (hfits : ∀ text t, fits text t → fits' text t) : Tiling fits' source file offset ts := by
  induction h with
  | final hgap hlay => exact .final hgap hlay
  | token hgap hlay hslice hspan htext hfit _ ih =>
    exact .token hgap hlay hslice hspan htext (hfits _ _ hfit) ih

/-- Each token stands at a place of the source, and the last one at its end. -/
theorem Tiling.exists_start {fits : List Char → Token → Prop} {source : List Char} {file : String}
    {offset : Nat} {ts : List Token} {t : Token} (h : Tiling fits source file offset ts)
    (ht : t ∈ ts) : ∃ front rest, source = front ++ rest ∧
      t.span.start = .clamped file (Text.byteLength front) ∧
      (t.kind = .eof ∧ rest = [] ∨ fits rest t) := by
  induction h with
  | final =>
    obtain rfl := List.mem_singleton.1 ht
    exact ⟨source, [], (List.append_nil _).symm, rfl, .inl ⟨rfl, rfl⟩⟩
  | token hgap hlay hslice hspan htext hfit hts ih =>
    rcases List.mem_cons.1 ht with rfl | ht
    · obtain ⟨front, hsource, rfl⟩ := Text.dropBytes?_eq_some_iff.1 htext
      exact ⟨front, _, hsource, by rw [hspan], .inr hfit⟩
    · exact ih ht

/-! ## Reading a text -/

/-- The token is what stands at the front of the text, behind all layout. -/
def Token.AtFront (text : List Char) (t : Token) : Prop :=
  ∃ c cs, text = c :: cs ∧ Text.isLayout c = false ∧
    Lexeme.first c cs = ⟨t.kind, t.literal.toList⟩

theorem Token.AtFront.literal_ne_nil {text : List Char} {t : Token} (h : t.AtFront text) :
    t.literal.toList ≠ [] := by
  obtain ⟨c, cs, -, -, hfirst⟩ := h
  have hne := Lexeme.text_ne_nil c cs
  rwa [hfirst] at hne

namespace TokenStream

variable {file : String} {fuel : Nat} {s : Suffix}

/-- Layout is read as the end of the source. -/
theorem toList_read_of_layout (h : ∀ c ∈ s.text, Text.isLayout c = true)
    (hf : s.text.length ≤ fuel) :
    (read file fuel s).toList = [.placed file (s.offset + Text.byteLength s.text) .eof ""] := by
  cases fuel with
  | zero =>
    have hnil : s.text = [] := List.length_eq_zero_iff.1 (Nat.le_zero.1 hf)
    rw [hnil]
    rfl
  | succ fuel =>
    have hdrop : (s.dropWhile Text.isLayout).text = [] := List.dropWhile_eq_nil_iff.2 h
    have htake : s.text.takeWhile Text.isLayout = s.text := List.takeWhile_eq_self_iff.2 h
    have hnext : (s.nextToken file).1 =
        .placed file (s.offset + Text.byteLength s.text) .eof "" := by
      rw [Suffix.nextToken_of_nil hdrop, Suffix.dropWhile, htake]
    unfold read
    dsimp only
    rw [dif_pos (Suffix.kind_nextToken_eq_eof_iff.2 hdrop)]
    exact congrArg (fun t => [t]) hnext

/-- Behind layout the first lexeme is read, and then the rest of the text. -/
theorem toList_read_of_lexeme {gap cs : List Char} {c : Char} (htext : s.text = gap ++ c :: cs)
    (hgap : ∀ d ∈ gap, Text.isLayout d = true) (hc : Text.isLayout c = false)
    (hf : s.text.length ≤ fuel) :
    ∃ fuel' t, t.text.length ≤ fuel' ∧ t.text = (c :: cs).drop (Lexeme.first c cs).text.length ∧
      t.offset = s.offset + Text.byteLength gap + Text.byteLength (Lexeme.first c cs).text ∧
      (read file fuel s).toList =
        .placed file (s.offset + Text.byteLength gap) (Lexeme.first c cs).kind
          (String.ofList (Lexeme.first c cs).text) :: (read file fuel' t).toList := by
  have hdrop : s.dropWhile Text.isLayout = ⟨s.offset + Text.byteLength gap, c :: cs⟩ := by
    unfold Suffix.dropWhile
    rw [htext, List.takeWhile_append_of_pos hgap, List.dropWhile_append_of_pos hgap,
      List.takeWhile_cons_of_neg (by simp [hc]), List.dropWhile_cons_of_neg (by simp [hc]),
      List.append_nil]
  have hnext := @Suffix.nextToken_of_cons file s c cs (congrArg Suffix.text hdrop)
  rw [hdrop] at hnext
  have hk : (s.nextToken file).1.kind ≠ .eof := by
    rw [hnext]
    exact Lexeme.kind_first_ne_eof c cs
  have hlt := Suffix.length_nextToken_lt hk
  obtain ⟨fuel, rfl⟩ : ∃ n, fuel = n + 1 := ⟨fuel - 1, by omega⟩
  refine ⟨fuel, (s.nextToken file).2, by omega, ?_, ?_, ?_⟩
  · rw [hnext]
    rfl
  · have htake : (c :: cs).take (Lexeme.first c cs).text.length = (Lexeme.first c cs).text :=
      (List.prefix_iff_eq_take.1 (Lexeme.isPrefix_first c cs)).symm
    rw [hnext]
    simp only [Suffix.drop, htake]
  · rw [read, dif_neg hk]
    exact congrArg (· :: _) (congrArg Prod.fst hnext)

end TokenStream

section
variable {source : List Char} {file : String}

/-- The tokens that are read from a suffix of the source tile it. -/
theorem tiling_read (front : List Char) {fuel : Nat} {s : Suffix} (hs : source = front ++ s.text)
    (hoffset : s.offset = Text.byteLength front) (hf : s.text.length ≤ fuel) :
    Tiling Token.AtFront source file s.offset (TokenStream.read file fuel s).toList := by
  induction hn : s.text.length using Nat.strongRecOn generalizing front fuel s with
  | _ n ih =>
    subst hn
    have hsplit := List.takeWhile_append_dropWhile (p := Text.isLayout) (l := s.text)
    have hlay : ∀ c ∈ s.text.takeWhile Text.isLayout, Text.isLayout c = true :=
      fun c hc => List.mem_takeWhile_imp hc
    cases hd : s.text.dropWhile Text.isLayout with
    | nil =>
      rw [hd, List.append_nil] at hsplit
      rw [hsplit] at hlay
      have hlen : s.offset + Text.byteLength s.text = Text.byteLength source := by
        rw [hs, Text.byteLength_append, hoffset]
      rw [TokenStream.toList_read_of_layout hlay hf, hlen]
      refine .final ?_ hlay
      rw [hoffset, hs, Text.slice?_append_eq_some_iff]
      exact ⟨[], by simp, by simp⟩
    | cons c cs =>
      have hc : Text.isLayout c = false := by
        have := List.head?_dropWhile_not Text.isLayout s.text
        simpa [hd] using this
      rw [hd] at hsplit
      generalize s.text.takeWhile Text.isLayout = gap at hsplit hlay
      obtain ⟨fuel', t, hft, ht, htoffset, hread⟩ :=
        @TokenStream.toList_read_of_lexeme file fuel s gap cs c hsplit.symm hlay hc hf
      have hrest := Lexeme.text_append_rest c cs
      have hne := List.length_pos_iff.2 (Lexeme.text_ne_nil c cs)
      rw [← ht] at hrest
      generalize hfirst : Lexeme.first c cs = lexeme at *
      rw [hread]
      have htile := ih t.text.length (by rw [← hsplit, ← hrest]; simp; omega)
        (front ++ gap ++ lexeme.text) (by rw [hs, ← hsplit, ← hrest]; simp)
        (by rw [htoffset, hoffset]; simp [Nat.add_assoc]) hft rfl
      have hgap : Text.slice? s.offset (s.offset + Text.byteLength gap) source = some gap := by
        rw [hoffset, hs, Text.slice?_append_eq_some_iff]
        exact ⟨c :: cs, hsplit.symm, rfl⟩
      refine .token hgap hlay ?_ ?_ ?_ ⟨c, cs, rfl, hc, by simp [hfirst, Token.placed]⟩ htile
      · rw [hoffset, hs, ← hsplit, ← List.append_assoc, ← Text.byteLength_append,
          Text.slice?_append_eq_some_iff]
        refine ⟨t.text, ?_, ?_⟩
        · simp [Token.placed, hrest]
        · rw [htoffset, hoffset]
          simp [Token.placed]
      · simp [Token.placed, Span.clamped, Text.utf8ByteSize_ofList, htoffset]
      · rw [hoffset, hs, ← hsplit, ← List.append_assoc, ← Text.byteLength_append,
          Text.dropBytes?_append]

/-- Nothing else than the tokens that are read tiles the source so. -/
theorem Tiling.eq_toList_read {offset fuel : Nat} {ts : List Token} {s : Suffix}
    (h : Tiling Token.AtFront source file offset ts) (front : List Char)
    (hs : source = front ++ s.text) (hoffset : offset = Text.byteLength front)
    (hsoffset : s.offset = offset) (hf : s.text.length ≤ fuel) :
    ts = (TokenStream.read file fuel s).toList := by
  induction h generalizing front fuel s with
  | @final offset gap hgap hlay =>
    subst hoffset
    have hslice : Text.slice? (Text.byteLength front) (Text.byteLength source) (front ++ s.text) =
        some gap := by rw [← hs]; exact hgap
    obtain ⟨rest, htext, hlen⟩ := Text.slice?_append_eq_some_iff.1 hslice
    have hbytes : Text.byteLength rest = 0 := by
      rw [hs, htext] at hlen
      simp only [Text.byteLength_append] at hlen
      omega
    rw [Text.byteLength_eq_zero_iff.1 hbytes, List.append_nil] at htext
    rw [← htext] at hlay
    rw [TokenStream.toList_read_of_layout hlay hf, hlen, hsoffset, htext]
    rfl
  | @token offset start stop gap text t ts hgap hlay hslice hspan htext hfit _ ih =>
    subst hoffset
    rw [hs] at hgap hslice htext
    obtain ⟨rest, hrest, rfl⟩ := Text.slice?_append_eq_some_iff.1 hgap
    rw [hrest, ← List.append_assoc, ← Text.byteLength_append] at hslice htext
    rw [Text.dropBytes?_append, Option.some.injEq] at htext
    obtain ⟨behind, hbehind, rfl⟩ := Text.slice?_append_eq_some_iff.1 hslice
    obtain ⟨c, cs, rfl, hc, hfirst⟩ := hfit
    rw [htext] at hrest
    obtain ⟨fuel', u, hfu, hu, huoffset, hread⟩ :=
      @TokenStream.toList_read_of_lexeme file fuel s gap cs c hrest hlay hc hf
    rw [hfirst] at hu huoffset hread
    have hutext : u.text = behind := by rw [hu, ← htext, hbehind, List.drop_left]
    have hts : ts = (TokenStream.read file fuel' u).toList :=
      ih (front ++ gap ++ t.literal.toList) (by rw [hutext, hs, hrest, ← htext, hbehind]; simp)
        (Text.byteLength_append _ _).symm
        (by rw [huoffset, hsoffset, Text.byteLength_append]) hfu
    rw [Text.byteLength_append] at hspan
    rw [hread, ← hts, hsoffset, String.ofList_toList]
    exact congrArg (· :: ts) (Token.eq_placed hspan)

end

theorem tiling_tokenize (source : String) (file : Option String) :
    Tiling Token.AtFront source.toList (file.getD defaultFile) 0 (tokenize source file) :=
  tiling_read (s := .ofSource source) [] rfl rfl (Nat.le_refl _)

theorem TokenStream.file_ofSource (source : String) (file : Option String) :
    (ofSource source (file.getD defaultFile)).file = file.getD defaultFile := by
  have hfinal : (ofSource source (file.getD defaultFile)).final ∈ tokenize source file :=
    List.mem_append_right _ (List.mem_singleton_self _)
  obtain ⟨front, rest, -, hstart, -⟩ := (tiling_tokenize source file).exists_start hfinal
  rw [TokenStream.file, hstart, Position.file_clamped]

theorem tiling_iff {source : String} {file : Option String} {ts : List Token} :
    Tiling Token.AtFront source.toList (file.getD defaultFile) 0 ts ↔ ts = tokenize source file :=
  ⟨fun h => h.eq_toList_read (s := .ofSource source) [] rfl rfl rfl (Nat.le_refl _),
    fun h => h ▸ tiling_tokenize source file⟩

/-- The tokens of a source tile it; only the last one is its end, and all others have a spelling. -/
theorem tokenize_tiles (source : String) (file : Option String) :
    Tiling (fun _ t => t.kind ≠ .eof ∧ t.literal ≠ "") source.toList (file.getD defaultFile) 0
      (tokenize source file) := by
  refine (tiling_tokenize source file).mono ?_
  rintro text t ⟨c, cs, rfl, -, hfirst⟩
  refine ⟨fun hk => ?_, fun hl => ?_⟩
  · exact Lexeme.kind_first_ne_eof c cs (by rw [hfirst, hk])
  · exact Lexeme.text_ne_nil c cs (by rw [hfirst, hl]; rfl)

end ExprLang
