import ExprLang.Proofs.Diagnostic.Description
import ExprLang.Proofs.Source.Lines
import Mathlib.Data.List.DropRight
import Mathlib.Data.List.TakeDrop

/-!
# The caret of a report

An error has a byte offset; the caret below its line stands in a column of characters, and the line
is shown behind its number, without its indentation. These fit together since an error is at the
start of a token: no offset inside a character, and none inside the indentation (`indentation_le`).
White space that is cut off the end of a line moves nothing in front of it (`Text.trimEnd_append`),
so that what stands above the caret is the token, unless all of the line from there on is cut off.
Main statement: `caret_below_token`.
-/

set_option autoImplicit false

namespace ExprLang

/-! ## Trimming and padding -/

namespace Text

theorem trimEnd_prefix (cs : List Char) : trimEnd cs <+: cs :=
  List.rdropWhile_prefix isWhiteSpace cs

/-- What is in front of a character that stays is kept. -/
theorem trimEnd_append (front : List Char) {cs : List Char}
    (h : ∃ c ∈ cs, isWhiteSpace c = false) : trimEnd (front ++ cs) = front ++ trimEnd cs := by
  obtain ⟨c, hc, hwhite⟩ := h
  have hne : (cs.reverse.dropWhile isWhiteSpace).isEmpty = false := by
    rw [List.isEmpty_eq_false_iff, Ne, List.dropWhile_eq_nil_iff]
    intro hall
    rw [hall c (List.mem_reverse.2 hc)] at hwhite
    cases hwhite
  rw [trimEnd, List.reverse_append, List.dropWhile_append, hne, if_neg Bool.false_ne_true,
    List.reverse_append, List.reverse_reverse, trimEnd]

theorem head?_trimEnd {cs : List Char} (h : ∃ c ∈ cs, isWhiteSpace c = false) :
    (trimEnd cs).head? = cs.head? := by
  obtain ⟨tail, htail⟩ := trimEnd_prefix cs
  have hne : trimEnd cs ≠ [] := by
    obtain ⟨c, hc, hwhite⟩ := h
    intro hnil
    rw [List.rdropWhile_eq_nil_iff.1 hnil c hc] at hwhite
    cases hwhite
  conv_rhs => rw [← htail]
  rw [List.head?_append_of_ne_nil _ hne]

/-- A line feed at the end is cut off. -/
theorem lineFeed_not_mem_trimEnd {cs : List Char} (h : '\n' ∉ cs.dropLast) :
    '\n' ∉ trimEnd cs := by
  intro hmem
  have hne : trimEnd cs ≠ [] := List.ne_nil_of_mem hmem
  have hlast : ¬ isWhiteSpace ((trimEnd cs).getLast hne) = true := List.rdropWhile_last_not _ _ hne
  obtain ⟨tail, htail⟩ := trimEnd_prefix cs
  rw [← List.dropLast_append_getLast hne, List.mem_append, List.mem_singleton] at hmem
  rcases hmem with hfront | hfeed
  · refine h ?_
    rw [← htail, ← List.dropLast_append_getLast hne, List.append_assoc,
      List.dropLast_append_of_ne_nil (by simp)]
    exact List.mem_append_left _ hfront
  · exact hlast (by rw [← hfeed]; decide)

end Text

theorem toList_padLeft (fill : Char) (width : Nat) (text : String) :
    (padLeft fill width text).toList =
      List.replicate (width - text.toList.length) fill ++ text.toList := by
  rw [padLeft, String.toList_ofList, List.leftpad]

/-! ## The line of a report -/

namespace LinePosition

theorem lineFeed_not_mem_dropLast_firstLine (cs : List Char) :
    '\n' ∉ (firstLine cs).dropLast := by
  induction cs with
  | nil => exact List.not_mem_nil
  | cons c cs ih =>
    rw [firstLine]
    split
    next => exact List.not_mem_nil
    next hc =>
      cases hline : firstLine cs with
      | nil => exact List.not_mem_nil
      | cons d ds =>
        rw [hline] at ih
        rw [List.dropLast_cons_cons, List.mem_cons, not_or]
        exact ⟨Ne.symm hc, ih⟩

theorem head?_firstLine (cs : List Char) : (firstLine cs).head? = cs.head? := by
  cases cs with
  | nil => rfl
  | cons c cs =>
    rw [firstLine]
    split <;> rfl

variable {line : LinePosition} {before behind : List Char}

/-- The line above the caret. -/
def echoed (line : LinePosition) : List Char :=
  (toString line.number).toList ++ [' ', '|', ' '] ++
    Text.trimEnd (line.text.toList.drop line.indentation)

theorem toList_shown (line : LinePosition) :
    line.shown.toList = Text.trimEnd (line.text.toList.drop line.indentation) := by
  have hdrop : line.text.toList.dropWhile Text.isIndent =
      line.text.toList.drop line.indentation := by
    conv_rhs => rw [← List.takeWhile_append_dropWhile (p := Text.isIndent) (l := line.text.toList)]
    rw [indentation, List.drop_left]
  rw [shown, String.toList_ofList, hdrop]

theorem characterColumn_of_append (htext : line.text.toList = before ++ behind)
    (hcolumn : Text.byteLength before = line.column) : line.characterColumn = before.length := by
  rw [characterColumn, htext, ← hcolumn, Text.dropBytes?_append, List.length_append]
  exact Nat.add_sub_cancel ..

theorem indentation_le (htext : line.text.toList = before ++ behind)
    (hbehind : ∀ c, behind.head? = some c → Text.isIndent c = false) :
    line.indentation ≤ before.length := by
  have hnil : behind.takeWhile Text.isIndent = [] := by
    cases behind with
    | nil => rfl
    | cons c cs => exact List.takeWhile_cons_of_neg (by simp [hbehind c rfl])
  rw [indentation, htext, List.takeWhile_append]
  split
  next => rw [hnil, List.append_nil]
  next => exact (List.takeWhile_sublist _).length_le

theorem lineFeed_not_mem_number (n : Nat) : '\n' ∉ (toString n).toList := by
  rw [Nat.toString_eq_repr, Nat.toList_repr]
  intro hmem
  have := Nat.isDigit_of_mem_toDigits (by decide) (by decide) hmem
  exact absurd this (by decide)

theorem lineFeed_not_mem_echoed (h : '\n' ∉ line.text.toList.dropLast) : '\n' ∉ line.echoed := by
  have hshown : '\n' ∉ Text.trimEnd (line.text.toList.drop line.indentation) := by
    refine Text.lineFeed_not_mem_trimEnd ?_
    rw [List.dropLast_drop_eq_drop_dropLast]
    exact fun hmem => h (List.mem_of_mem_drop hmem)
  rw [echoed, List.mem_append, List.mem_append, not_or, not_or]
  exact ⟨⟨lineFeed_not_mem_number _, by decide⟩, hshown⟩

/-- Above the caret stands what is at the position, if that is not cut off. -/
theorem getElem?_echoed (htext : line.text.toList = before ++ behind)
    (hindent : line.indentation ≤ before.length)
    (hstays : ∃ c ∈ behind, Text.isWhiteSpace c = false) :
    line.echoed[(toString line.number).length + 3 + (before.length - line.indentation)]? =
      behind.head? := by
  have hlength : ((toString line.number).toList ++ [' ', '|', ' ']).length =
      (toString line.number).length + 3 := by
    rw [List.length_append, String.length_toList]
    rfl
  rw [echoed, List.getElem?_append_right (by rw [hlength]; exact Nat.le_add_right _ _), hlength,
    Nat.add_sub_cancel_left, htext, List.drop_append_of_le_length hindent,
    Text.trimEnd_append _ hstays,
    List.getElem?_append_right (by rw [List.length_drop]), List.length_drop,
    Nat.sub_self, ← List.head?_eq_getElem?, Text.head?_trimEnd hstays]

theorem toList_excerpt (line : LinePosition) : line.excerpt.toList =
    line.margin.toList ++ '\n' :: (line.echoed ++ '\n' :: (line.margin.toList ++
      ' ' :: List.replicate (line.characterColumn - line.indentation) '-' ++ ['^'])) := by
  simp [excerpt, echoed, toList_shown, toList_padLeft, caretWidth]

end LinePosition

/-! ## The end of a report -/

/--
The last line of the report ends in its only caret, which is in the given column, and the line above
is the given one.
-/
def EndsInCaret (report : String) (above : List Char) (column : Nat) : Prop :=
  ∃ head front, report.toList = head ++ '\n' :: (above ++ '\n' :: (front ++ ['^'])) ∧
    '\n' ∉ above ∧ '\n' ∉ front ∧ '^' ∉ front ∧ front.length = column

theorem LinePosition.endsInCaret_excerpt {line : LinePosition}
    (h : '\n' ∉ line.text.toList.dropLast) (heading : String) :
    EndsInCaret (heading ++ line.excerpt) line.echoed
      ((toString line.number).length + 3 + (line.characterColumn - line.indentation)) := by
  have hmargin : line.margin.toList =
      List.replicate ((toString line.number).length + 1) ' ' ++ ['|'] := by
    rw [margin, toList_padLeft]
    rfl
  refine ⟨heading.toList ++ line.margin.toList, line.margin.toList ++
    ' ' :: List.replicate (line.characterColumn - line.indentation) '-', ?_,
    lineFeed_not_mem_echoed h, ?_, ?_, ?_⟩
  · rw [String.toList_append, toList_excerpt, List.append_assoc, List.append_assoc]
  · simp [hmargin, List.mem_replicate]
  · simp [hmargin, List.mem_replicate]
  · rw [hmargin]
    simp
    omega

namespace Diagnostic

variable {e : Diagnostic} {source : String} {line : LinePosition}

theorem report?_eq_none_iff_of_lineAt? (h : lineAt? source e.position.offset = some line) :
    e.report? source = none ↔ 65535 < line.caretWidth := by
  rw [report?_eq_none_iff, h]
  simp [maxCaretWidth]

theorem endsInCaret_report? (h : lineAt? source e.position.offset = some line)
    (hline : '\n' ∉ line.text.toList.dropLast) {report : String}
    (hreport : e.report? source = some report) : EndsInCaret report line.echoed
      ((toString line.number).length + 3 + (line.characterColumn - line.indentation)) := by
  rw [report?, h] at hreport
  obtain ⟨-, hsome⟩ := Option.ite_none_right_eq_some.1 hreport
  rw [← Option.some.inj hsome]
  exact LinePosition.endsInCaret_excerpt hline _

end Diagnostic

/-! ## Errors at tokens -/

theorem Token.AtFront.head?_literal {text : List Char} {t : Token} (h : t.AtFront text) :
    t.literal.toList.head? = text.head? := by
  obtain ⟨c, cs, rfl, -, hfirst⟩ := h
  obtain ⟨rest, hrest⟩ := Lexeme.isPrefix_first c cs
  have hne := Lexeme.text_ne_nil c cs
  rw [hfirst] at hne hrest
  rw [← hrest, List.head?_append_of_ne_nil _ hne]

theorem Token.AtFront.not_isIndent {text : List Char} {t : Token} (h : t.AtFront text) {c : Char}
    (hc : text.head? = some c) : Text.isIndent c = false := by
  obtain ⟨d, ds, rfl, hlay, -⟩ := h
  obtain rfl : d = c := Option.some.inj hc
  by_contra hindent
  rw [Text.isLayout_of_isIndent (Bool.of_not_eq_false hindent)] at hlay
  cases hlay

/-- The line of a place in a source, where it is cut in two. -/
theorem exists_lineAt? {source : String} {text rest : List Char}
    (h : source.toList = text ++ rest) :
    ∃ line before, lineAt? source (Text.byteLength text) = some line ∧
      line.text.toList = before ++ LinePosition.firstLine rest ∧
      Text.byteLength before = line.column ∧ '\n' ∉ line.text.toList.dropLast := by
  obtain ⟨before, front, rfl, hfront, hstarts⟩ := LinePosition.exists_last_line text
  have hcut : LinePosition.Cut source.toList (Text.byteLength (before ++ front)) before front
      rest 0 := ⟨by rw [h, List.append_assoc], Text.byteLength_append .., hfront, hstarts, .inl rfl⟩
  refine ⟨_, front, LinePosition.lineAt?_of_cut hcut, String.toList_ofList, rfl, ?_⟩
  rw [String.toList_ofList, ← LinePosition.firstLine_append hfront]
  exact LinePosition.lineFeed_not_mem_dropLast_firstLine _

section
variable {source : String} {file : Option String} {options : Options}

/--
An error is at a token. Its line is cut by the position behind the indentation, into `before` and
`behind`; there is no report if the caret would be too far to the right, and else the report ends in
the line and the caret below it, which is below the first character of the token if one of the
characters from there on is shown.
-/
theorem caret_below_token (hlen : source.utf8ByteSize ≤ Position.maxOffset) {e : Diagnostic}
    (he : e ∈ (parse source file options).errors) :
    ∃ t ∈ tokenize source file, t.span.start = e.position ∧
      ∃ line before behind, lineAt? source e.position.offset = some line ∧
        line.text.toList = before ++ behind ∧ Text.byteLength before = line.column ∧
        line.indentation ≤ before.length ∧
        (e.report? source = none ↔ 65535 < before.length - line.indentation + 1) ∧
        (∀ report, e.report? source = some report → EndsInCaret report line.echoed
          ((toString line.number).length + 3 + (before.length - line.indentation))) ∧
        (t.kind ≠ .eof → (∃ c ∈ behind, Text.isWhiteSpace c = false) →
          ∃ c, t.literal.toList.head? = some c ∧
            line.echoed[(toString line.number).length + 3 + (before.length - line.indentation)]? =
              some c) := by
  obtain ⟨front, t, ts, htokens, hposition, -⟩ := describes_errors he
  have ht : t ∈ tokenize source file := htokens ▸ by simp
  obtain ⟨text, rest, hsource, hstart, hfit⟩ := (tiling_tokenize source file).exists_start ht
  have hoffset : e.position.offset = Text.byteLength text := by
    rw [hposition, hstart]
    refine Position.offset_clamped_of_le (Nat.le_trans ?_ hlen)
    rw [← Text.byteLength_toList, hsource, Text.byteLength_append]
    exact Nat.le_add_right _ _
  obtain ⟨line, before, hline, htext, hcolumn, hbroken⟩ := exists_lineAt? hsource
  rw [← hoffset] at hline
  have hindent : line.indentation ≤ before.length := by
    refine LinePosition.indentation_le htext fun c hc => ?_
    rw [LinePosition.head?_firstLine] at hc
    rcases hfit with ⟨-, rfl⟩ | hfit
    · cases hc
    · exact hfit.not_isIndent hc
  have hcharacters := LinePosition.characterColumn_of_append htext hcolumn
  refine ⟨t, ht, hposition.symm, line, before, LinePosition.firstLine rest, hline, htext, hcolumn,
    hindent, ?_, fun report hreport => ?_, fun hk hstays => ?_⟩
  · rw [Diagnostic.report?_eq_none_iff_of_lineAt? hline, LinePosition.caretWidth, hcharacters]
  · rw [← hcharacters]
    exact Diagnostic.endsInCaret_report? hline hbroken hreport
  · have hfront : t.AtFront rest := hfit.resolve_left fun h => hk h.1
    obtain ⟨c, cs, hliteral⟩ := List.exists_cons_of_ne_nil hfront.literal_ne_nil
    refine ⟨c, by rw [hliteral]; rfl, ?_⟩
    rw [LinePosition.getElem?_echoed htext hindent hstays, LinePosition.head?_firstLine,
      ← hfront.head?_literal, hliteral]
    rfl

/-- A caret behind a tab, a character of two bytes and a space. -/
theorem caret_below_token_indented :
    ("1;\n\té é;".utf8ByteSize ≤ Position.maxOffset ∧
      ⟨.illegalToken "é", ⟨7, "shell"⟩⟩ ∈ (parse "1;\n\té é;" none {}).errors) ∧
    ∃ t ∈ tokenize "1;\n\té é;" none, t.span.start = ⟨7, "shell"⟩ ∧
      ∃ line before behind, lineAt? "1;\n\té é;" 7 = some line ∧
        line.text.toList = before ++ behind ∧ Text.byteLength before = line.column ∧
        line.indentation ≤ before.length ∧
        (Diagnostic.report? ⟨.illegalToken "é", ⟨7, "shell"⟩⟩ "1;\n\té é;" = none ↔
          65535 < before.length - line.indentation + 1) ∧
        (∀ report, Diagnostic.report? ⟨.illegalToken "é", ⟨7, "shell"⟩⟩ "1;\n\té é;" = some report →
          EndsInCaret report line.echoed
            ((toString line.number).length + 3 + (before.length - line.indentation))) ∧
        (t.kind ≠ .eof → (∃ c ∈ behind, Text.isWhiteSpace c = false) →
          ∃ c, t.literal.toList.head? = some c ∧
            line.echoed[(toString line.number).length + 3 + (before.length - line.indentation)]? =
              some c) := by
  have hlen : "1;\n\té é;".utf8ByteSize ≤ Position.maxOffset := by decide
  have hmem : ⟨.illegalToken "é", ⟨7, "shell"⟩⟩ ∈ (parse "1;\n\té é;" none {}).errors := by
    decide +kernel
  exact ⟨⟨hlen, hmem⟩, caret_below_token hlen hmem⟩

end

end ExprLang
