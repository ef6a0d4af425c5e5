import ExprLang.Source.Line
import Mathlib.Data.List.Basic

/-!
# Lines and columns

An offset of a source counts bytes, and it may fall inside a character; the line is still found by
the characters. What is found can be said of the bytes alone, since the line feed is the one
character with a byte of this value in its form: the number counts the line feeds in front of the
offset, the column goes back to behind the last one of them, and the text goes on from there to the
next one (`LinePosition.Locates`). There is at most one such line (`Locates.unique`), and it is
where the source is cut by the offset (`locates_of_cut`). Main statement: `lineAt?_locates`.
-/

set_option autoImplicit false

namespace ExprLang

/-! ## Bytes of a text -/

namespace Text

/-- The UTF-8 form of a text. -/
def bytes (text : String) : List UInt8 := text.toByteArray.data.toList

/-- The UTF-8 form of a list of characters. -/
def utf8 (cs : List Char) : List UInt8 := cs.flatMap String.utf8EncodeChar

/-- The byte of the line feed. -/
def lineFeed : UInt8 := 10

/-- The bytes up to and including the first line feed. -/
def throughLineFeed (bs : List UInt8) : List UInt8 :=
  bs.takeWhile (· != lineFeed) ++ (bs.dropWhile (· != lineFeed)).take 1

theorem bytes_eq_utf8 (text : String) : bytes text = utf8 text.toList := by
  obtain ⟨cs, rfl⟩ : ∃ cs, text = String.ofList cs := ⟨text.toList, String.ofList_toList.symm⟩
  rw [bytes, utf8, String.toByteArray_ofList, String.toList_ofList, List.utf8Encode,
    List.toList_data_toByteArray]

theorem bytes_injective {s t : String} (h : bytes s = bytes t) : s = t := by
  rw [← String.toByteArray_inj]
  exact ByteArray.ext (Array.toList_inj.1 h)

@[simp] theorem utf8_nil : utf8 [] = [] := rfl

@[simp] theorem utf8_cons (c : Char) (cs : List Char) :
    utf8 (c :: cs) = String.utf8EncodeChar c ++ utf8 cs := rfl

@[simp] theorem utf8_append (cs ds : List Char) : utf8 (cs ++ ds) = utf8 cs ++ utf8 ds :=
  List.flatMap_append

@[simp] theorem length_utf8 (cs : List Char) : (utf8 cs).length = byteLength cs := by
  induction cs with
  | nil => rfl
  | cons c cs ih => simp [ih]

/-! ## Line feeds -/

theorem lineFeed_eq_ofNat_iff {n : Nat} : lineFeed = UInt8.ofNat n ↔ n % 256 = 10 := by
  rw [← UInt8.toNat_inj, UInt8.toNat_ofNat', eq_comm]
  rfl

/-- No other character has the byte of the line feed in its form. -/
theorem lineFeed_mem_utf8EncodeChar_iff {c : Char} :
    lineFeed ∈ String.utf8EncodeChar c ↔ c = '\n' := by
  have hval : lineFeed ∈ String.utf8EncodeChar c ↔ c.val.toNat = 10 := by
    fun_cases String.utf8EncodeChar c <;>
      simp only [List.mem_cons, List.not_mem_nil, or_false, lineFeed_eq_ofNat_iff] <;> omega
  rw [hval, ← Char.val_inj, ← UInt32.toNat_inj]
  rfl

theorem utf8EncodeChar_lineFeed : String.utf8EncodeChar '\n' = [lineFeed] := rfl

theorem lineFeed_mem_utf8_iff {cs : List Char} : lineFeed ∈ utf8 cs ↔ '\n' ∈ cs := by
  simp [utf8, lineFeed_mem_utf8EncodeChar_iff]

theorem count_lineFeed_utf8 (cs : List Char) : (utf8 cs).count lineFeed = cs.count '\n' := by
  induction cs with
  | nil => rfl
  | cons c cs ih =>
    rw [utf8_cons, List.count_append, ih]
    by_cases hc : c = '\n'
    · rw [hc, List.count_cons_self, utf8EncodeChar_lineFeed, List.count_singleton_self,
        Nat.add_comm]
    · rw [List.count_cons_of_ne hc, List.count_eq_zero.2 (mt lineFeed_mem_utf8EncodeChar_iff.1 hc),
        Nat.zero_add]

theorem throughLineFeed_append {bs : List UInt8} (h : lineFeed ∉ bs) (bs' : List UInt8) :
    throughLineFeed (bs ++ bs') = bs ++ throughLineFeed bs' := by
  have hall : ∀ b ∈ bs, (b != lineFeed) = true := fun b hb =>
    bne_iff_ne.2 fun he => h (he ▸ hb)
  rw [throughLineFeed, List.takeWhile_append_of_pos hall, List.dropWhile_append_of_pos hall,
    List.append_assoc, throughLineFeed]

theorem throughLineFeed_lineFeed (bs : List UInt8) :
    throughLineFeed (lineFeed :: bs) = [lineFeed] := by
  simp [throughLineFeed]

end Text

namespace LinePosition

open Text

theorem firstLine_append {front : List Char} (h : '\n' ∉ front) (rest : List Char) :
    firstLine (front ++ rest) = front ++ firstLine rest := by
  induction front with
  | nil => rfl
  | cons c front ih =>
    rw [List.mem_cons, not_or] at h
    rw [List.cons_append, firstLine, if_neg (Ne.symm h.1), ih h.2, List.cons_append]

theorem utf8_firstLine (cs : List Char) : utf8 (firstLine cs) = throughLineFeed (utf8 cs) := by
  induction cs with
  | nil => rfl
  | cons c cs ih =>
    rw [firstLine, utf8_cons]
    by_cases hc : c = '\n'
    · rw [if_pos hc, hc, utf8EncodeChar_lineFeed, List.singleton_append, throughLineFeed_lineFeed]
      rfl
    · rw [if_neg hc, utf8_cons, ih,
        throughLineFeed_append (mt lineFeed_mem_utf8EncodeChar_iff.1 hc)]

/-! ## Cutting a source -/

/--
The offset is `within` bytes behind the text `before ++ front`, whose last line is `front`, and
inside the first character of `rest` if not in front of it.
-/
structure Cut (source : List Char) (offset : Nat) (before front rest : List Char) (within : Nat) :
    Prop where
  source_eq : source = before ++ (front ++ rest)
  offset_eq : offset = byteLength before + (byteLength front + within)
  unbroken : '\n' ∉ front
  starts : before = [] ∨ before.getLast? = some '\n'
  inside : within = 0 ∨ ∃ c cs, rest = c :: cs ∧ within < c.utf8Size

/-- Behind the last line feed of a text is its last line. -/
theorem exists_last_line (cs : List Char) : ∃ before front, cs = before ++ front ∧
    '\n' ∉ front ∧ (before = [] ∨ before.getLast? = some '\n') := by
  induction cs with
  | nil => exact ⟨[], [], rfl, List.not_mem_nil, .inl rfl⟩
  | cons c cs ih =>
    obtain ⟨before, front, rfl, hfront, hbefore⟩ := ih
    rcases hbefore with rfl | hlast
    · by_cases hc : c = '\n'
      · exact ⟨[c], front, rfl, hfront, .inr (by rw [hc]; rfl)⟩
      · exact ⟨[], c :: front, rfl, by simp [hfront, Ne.symm hc], .inl rfl⟩
    · exact ⟨c :: before, front, rfl, hfront, .inr (by simp [List.getLast?_cons, hlast])⟩

theorem exists_front {cs : List Char} {offset : Nat} (h : offset ≤ byteLength cs) :
    ∃ front rest within, cs = front ++ rest ∧ offset = byteLength front + within ∧
      (within = 0 ∨ ∃ c cs, rest = c :: cs ∧ within < c.utf8Size) := by
  induction cs generalizing offset with
  | nil => exact ⟨[], [], 0, rfl, by simpa using h, .inl rfl⟩
  | cons c cs ih =>
    by_cases hlt : offset < c.utf8Size
    · exact ⟨[], c :: cs, offset, rfl, by simp, .inr ⟨c, cs, rfl, hlt⟩⟩
    · rw [byteLength_cons] at h
      have hle : offset - c.utf8Size ≤ byteLength cs := by omega
      obtain ⟨front, rest, within, rfl, hoffset, hin⟩ := ih hle
      have hcons : offset = byteLength (c :: front) + within := by
        rw [byteLength_cons, Nat.add_assoc, ← hoffset, Nat.add_sub_cancel' (Nat.le_of_not_lt hlt)]
      exact ⟨c :: front, rest, within, rfl, hcons, hin⟩

theorem exists_cut {source : List Char} {offset : Nat} (h : offset ≤ byteLength source) :
    ∃ before front rest within, Cut source offset before front rest within := by
  obtain ⟨text, rest, within, rfl, hoffset, hin⟩ := exists_front h
  obtain ⟨before, front, rfl, hfront, hbefore⟩ := exists_last_line text
  refine ⟨before, front, rest, within, by simp, ?_, hfront, hbefore, hin⟩
  rw [hoffset, byteLength_append, Nat.add_assoc]

/-! ## The search -/

variable {number column within distance offset : Nat} {line before front rest : List Char}

theorem search?_front (hfront : '\n' ∉ front)
    (hin : within = 0 ∨ ∃ c cs, rest = c :: cs ∧ within < c.utf8Size) :
    search? number line column (byteLength front + within) (front ++ rest) =
      some ⟨number, String.ofList (firstLine line), column + (byteLength front + within)⟩ := by
  induction front generalizing column with
  | nil =>
    rw [List.nil_append, byteLength_nil, Nat.zero_add]
    cases rest with
    | nil =>
      have hzero : within = 0 := hin.resolve_right nofun
      rw [search?, if_pos hzero, hzero, Nat.add_zero]
    | cons c cs =>
      have hlt : within < c.utf8Size := by
        rcases hin with rfl | ⟨d, ds, hd, hlt⟩
        · exact c.utf8Size_pos
        · rwa [(List.cons.inj hd).1]
      rw [search?, if_pos hlt]
  | cons c front ih =>
    rw [List.mem_cons, not_or] at hfront
    rw [List.cons_append, search?, if_neg (by rw [byteLength_cons]; omega),
      if_neg (Ne.symm hfront.1), byteLength_cons,
      show c.utf8Size + byteLength front + within - c.utf8Size = byteLength front + within by omega,
      ih hfront.2]
    simp only [Nat.add_assoc]

/-- Behind a line feed the search starts anew, with the number of the line that it has come to. -/
theorem search?_before (h : before.getLast? = some '\n') :
    search? number line column (byteLength before + distance) (before ++ rest) =
      search? (number + before.count '\n') rest 0 distance rest := by
  induction before generalizing number line column with
  | nil => cases h
  | cons c cs ih =>
    rw [List.cons_append, search?, if_neg (by rw [byteLength_cons]; omega), byteLength_cons,
      show c.utf8Size + byteLength cs + distance - c.utf8Size = byteLength cs + distance by omega]
    cases cs with
    | nil =>
      obtain rfl : c = '\n' := Option.some.inj h
      rw [if_pos rfl]
      simp
    | cons d cs =>
      rw [List.getLast?_cons_cons] at h
      by_cases hc : c = '\n'
      · rw [if_pos hc, ih h, hc, List.count_cons_self, Nat.add_assoc, Nat.add_comm 1]
      · rw [if_neg hc, ih h, List.count_cons_of_ne hc]

theorem lineAt?_of_cut {source : String} (h : Cut source.toList offset before front rest within) :
    lineAt? source offset = some ⟨1 + before.count '\n', String.ofList (front ++ firstLine rest),
      byteLength front + within⟩ := by
  rw [lineAt?, h.source_eq, h.offset_eq]
  rcases h.starts with rfl | hlast
  · rw [List.nil_append, byteLength_nil, Nat.zero_add, search?_front h.unbroken h.inside,
      firstLine_append h.unbroken, Nat.zero_add]
    rfl
  · rw [search?_before hlast, search?_front h.unbroken h.inside, firstLine_append h.unbroken,
      Nat.zero_add]

/-! ## The line of an offset -/

/-- The line is that of an offset into the bytes of a source (module doc). -/
structure Locates (bs : List UInt8) (offset : Nat) (line : LinePosition) : Prop where
  number : line.number = 1 + (bs.take offset).count lineFeed
  column_le : line.column ≤ offset
  starts : offset - line.column = 0 ∨ bs[offset - line.column - 1]? = some lineFeed
  unbroken : lineFeed ∉ (bs.take offset).drop (offset - line.column)
  text : bytes line.text = throughLineFeed (bs.drop (offset - line.column))

section Cut

variable {source : List Char}

theorem Cut.take_utf8 (h : Cut source offset before front rest within) :
    (utf8 source).take offset = utf8 before ++ (utf8 front ++ (utf8 rest).take within) := by
  rw [h.source_eq, h.offset_eq, utf8_append, utf8_append, ← length_utf8 before,
    List.take_length_add_append, ← length_utf8 front, List.take_length_add_append]

theorem Cut.drop_utf8 (h : Cut source offset before front rest within) :
    (utf8 source).drop (byteLength before) = utf8 front ++ utf8 rest := by
  rw [h.source_eq, utf8_append, ← length_utf8 before, List.drop_left, utf8_append]

/-- An offset that is inside a character is not inside a line feed. -/
theorem Cut.unbroken_within (h : Cut source offset before front rest within) :
    lineFeed ∉ (utf8 rest).take within := by
  rcases h.inside with rfl | ⟨c, cs, rfl, hlt⟩
  · simp
  · intro hmem
    rw [utf8_cons, List.take_append_of_le_length
      (by rw [String.length_utf8EncodeChar]; exact Nat.le_of_lt hlt)] at hmem
    obtain rfl := lineFeed_mem_utf8EncodeChar_iff.1 (List.mem_of_mem_take hmem)
    obtain rfl : within = 0 := Nat.lt_one_iff.1 hlt
    cases hmem

theorem Cut.getElem?_utf8 (h : Cut source offset before front rest within) :
    byteLength before = 0 ∨ (utf8 source)[byteLength before - 1]? = some lineFeed := by
  rcases h.starts with rfl | hlast
  · exact .inl rfl
  · refine .inr ?_
    obtain ⟨init, rfl⟩ := List.getLast?_eq_some_iff.1 hlast
    have hindex : byteLength (init ++ ['\n']) - 1 = (utf8 init).length := by
      rw [byteLength_append, length_utf8]
      rfl
    rw [hindex, h.source_eq, utf8_append, utf8_append, List.append_assoc,
      List.getElem?_append_right (Nat.le_refl _), Nat.sub_self]
    rfl

theorem locates_of_cut (h : Cut source offset before front rest within) :
    Locates (utf8 source) offset ⟨1 + before.count '\n', String.ofList (front ++ firstLine rest),
      byteLength front + within⟩ := by
  have hstart : offset - (byteLength front + within) = byteLength before := by
    rw [h.offset_eq, Nat.add_sub_cancel]
  have hbroken : lineFeed ∉ utf8 front ++ (utf8 rest).take within := by
    rw [List.mem_append, not_or]
    exact ⟨mt lineFeed_mem_utf8_iff.1 h.unbroken, h.unbroken_within⟩
  constructor
  case number =>
    rw [h.take_utf8, List.count_append, count_lineFeed_utf8, List.count_eq_zero.2 hbroken,
      Nat.add_zero]
  case column_le =>
    rw [h.offset_eq]
    exact Nat.le_add_left _ _
  case starts =>
    rw [hstart]
    exact h.getElem?_utf8
  case unbroken =>
    rwa [hstart, h.take_utf8, ← length_utf8 before, List.drop_left]
  case text =>
    rw [hstart, h.drop_utf8, bytes_eq_utf8, String.toList_ofList, utf8_append, utf8_firstLine,
      throughLineFeed_append (mt lineFeed_mem_utf8_iff.1 h.unbroken)]

end Cut

namespace Locates

variable {bs : List UInt8} {line line' : LinePosition}

/-- Otherwise the line feed that the shorter line starts behind would be inside the longer one. -/
theorem column_le_column (h : line.Locates bs offset) (h' : line'.Locates bs offset) :
    line.column ≤ line'.column := by
  by_contra hlt
  have hcolumn := h.column_le
  have hfeed := h'.starts.resolve_left (by omega)
  refine h.unbroken (List.mem_iff_getElem?.2 ⟨line.column - line'.column - 1, ?_⟩)
  rw [List.getElem?_drop, List.getElem?_take_of_lt (by omega), ← hfeed]
  congr 1
  omega

theorem unique (h : line.Locates bs offset) (h' : line'.Locates bs offset) : line = line' := by
  have hnumber := h.number.trans h'.number.symm
  have hcolumn := Nat.le_antisymm (h.column_le_column h') (h'.column_le_column h)
  have htext : line.text = line'.text :=
    bytes_injective (by rw [h.text, h'.text, hcolumn])
  cases line
  cases line'
  simp only at hnumber hcolumn htext
  rw [hnumber, hcolumn, htext]

end Locates

end LinePosition

/--
Every offset up to the length of a source, and no other, has a line; the line is the one whose
number, column and text fit the bytes of the source; and it is empty at the end of the source if
that is empty or ends in a line feed.
-/
theorem lineAt?_locates (source : String) (offset : Nat) :
    (lineAt? source offset = none ↔ source.utf8ByteSize < offset) ∧
      (∀ line, lineAt? source offset = some line ↔
        offset ≤ source.utf8ByteSize ∧ line.Locates (Text.bytes source) offset) ∧
      (source = "" ∨ source.toList.getLast? = some '\n' →
        ∀ line, lineAt? source source.utf8ByteSize = some line → line.text = "") := by
  have hsize : Text.byteLength source.toList = source.utf8ByteSize := Text.byteLength_toList source
  have hsome : (lineAt? source offset).isSome = true ↔ offset ≤ source.utf8ByteSize :=
    hsize ▸ isSome_lineAt?
  refine ⟨?_, fun line => ⟨fun hline => ?_, fun ⟨hle, hlocates⟩ => ?_⟩, fun hend line hline => ?_⟩
  · rw [← Option.not_isSome_iff_eq_none, hsome, Nat.not_le]
  · have hle : offset ≤ source.utf8ByteSize := hsome.1 (by rw [hline]; rfl)
    obtain ⟨before, front, rest, within, hcut⟩ := LinePosition.exists_cut (hsize ▸ hle)
    rw [LinePosition.lineAt?_of_cut hcut] at hline
    rw [Text.bytes_eq_utf8, ← Option.some.inj hline]
    exact ⟨hle, LinePosition.locates_of_cut hcut⟩
  · obtain ⟨before, front, rest, within, hcut⟩ := LinePosition.exists_cut (hsize ▸ hle)
    rw [Text.bytes_eq_utf8] at hlocates
    rw [LinePosition.lineAt?_of_cut hcut, (LinePosition.locates_of_cut hcut).unique hlocates]
  · have hcut : LinePosition.Cut source.toList source.utf8ByteSize source.toList [] [] 0 := by
      refine ⟨by simp, by simp [hsize], List.not_mem_nil, hend.imp_left ?_, .inl rfl⟩
      rintro rfl
      rfl
    rw [LinePosition.lineAt?_of_cut hcut] at hline
    rw [← Option.some.inj hline]
    rfl

/-- A line feed is on the line that it ends, and the end of the source behind it on the next one. -/
example : lineAt? "é\n" 2 = some ⟨1, "é\n", 2⟩ ∧ lineAt? "é\n" 3 = some ⟨2, "", 0⟩ := by decide

end ExprLang
