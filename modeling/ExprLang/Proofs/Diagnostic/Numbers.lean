import ExprLang.Proofs.Diagnostic.Account
import ExprLang.Proofs.Diagnostic.Order
import ExprLang.Proofs.Parser.Assembly
import ExprLang.Proofs.Parser.Building
import ExprLang.Proofs.Tree.Node
import ExprLang.Tree.Equality
import ExprLang.Tree.Render
import ExprLang.Tree.Value
import Mathlib.Data.List.Pairwise

/-!
# Numbers are exact

A number has any number of digits, and its node the value of these digits, or else zero and an error
at its token. That the error is there is kept by every production: what is recorded stays, and a
production that takes a number has recorded it if it is out of range (`Assembly.Reports`). That no
other error of this sort is at the token follows from what errors describe, since tokens start at
different places. Main statement: `integer_of_contains`.
-/

set_option autoImplicit false

namespace ExprLang

namespace Assembly

/--
Between two states of the records, the numbers that are out of range among the entries have been
recorded.
-/
structure Reports (before : List Diagnostic) (es : List Entry) (after : List Diagnostic) :
    Prop where
  kept : before <:+ after
  misread (t : Token) : .node t ∈ es → t.kind = .integer → t.misread ⊆ after

namespace Reports

variable {before between after : List Diagnostic} {es fs : List Entry} {t : Token}

theorem nil (h : before <:+ after) : Reports before [] after := ⟨h, nofun⟩

theorem append (h : Reports before es between) (h' : Reports between fs after) :
    Reports before (es ++ fs) after := by
  refine ⟨h.kept.trans h'.kept, fun t ht hk => ?_⟩
  rcases List.mem_append.1 ht with ht | ht
  · exact List.Subset.trans (h.misread t ht hk) h'.kept.subset
  · exact h'.misread t ht hk

theorem then_kept (h : Reports before es between) (hkept : between <:+ after) :
    Reports before es after :=
  List.append_nil es ▸ h.append (.nil hkept)

/-- A token that is no number has nothing to record. -/
theorem node (hk : t.kind ≠ .integer) (h : Reports before es after) :
    Reports before (.node t :: es) after := by
  refine ⟨h.kept, fun u hu hku => ?_⟩
  rcases List.mem_cons.1 hu with hu | hu
  · cases hu
    exact absurd hku hk
  · exact h.misread u hu hku

theorem number (h : after = t.misread ++ before) : Reports before [.node t] after := by
  refine ⟨h ▸ List.suffix_append _ _, fun u hu _ => ?_⟩
  cases List.mem_singleton.1 hu
  rw [h]
  exact List.subset_append_left _ _

theorem begins {e : Expr} (h : Reports before es after) :
    Reports before (.begins t e :: es) after :=
  ⟨h.kept, fun u hu => h.misread u ((List.mem_cons.1 hu).resolve_left nofun)⟩

end Reports

theorem reports_namesRead {p q : Parser} {names : List Identifier} (h : Rule.NamesRead p names q) :
    Reports p.recorded (names.map fun name => .node name.token) q.recorded := by
  induction h with
  | last hname _ => exact .node (kind_ne_of_eq hname (by decide)) (.nil (List.suffix_refl _))
  | more hname _ _ ih => exact .node (kind_ne_of_eq hname (by decide)) ih

theorem Names.reports {p q : Parser} {names : List Identifier} : Names p names q →
    Reports p.recorded (names.map fun name => .node name.token) q.recorded
  | .none _ => .nil (List.suffix_refl _)
  | .some h => reports_namesRead h

/-! ## One production after the other -/

mutual

theorem Inner.reports {p q : Parser} {e : Expr} : Inner p e q →
    Reports p.recorded e.entries q.recorded
  | .identifier hk => .node (kind_ne_of_eq hk (by decide)) (.nil (List.suffix_refl _))
  | .integer _ _ _ hrecorded => .number hrecorded
  | .boolean hk => .node (kind_ne_of_mem hk (by decide)) (.nil (List.suffix_refl _))
  | .unary hk hright => .node (kind_ne_of_mem hk (by decide)) hright.reports
  | .grouping _ he _ => he.reports
  | .conditional hk _ hcondition _ hconsequence halternative =>
    .node (kind_ne_of_eq hk (by decide))
      (hcondition.reports.append (hconsequence.reports.append halternative.reports))
  | .function hk _ hnames hbody =>
    .node (kind_ne_of_eq hk (by decide)) (hnames.reports.append hbody.reports)
  | .binary hleft hk hright =>
    hleft.reports.append (.node (kind_ne_of_mem hk (by decide)) hright.reports)
  | .call hcallee hk harguments =>
    hcallee.reports.append (.node (kind_ne_of_eq hk (by decide)) harguments.reports)

theorem Nested.reports {p q : Parser} {e : Expr} : Nested p e q →
    Reports p.recorded e.entries q.recorded
  | .mk _ he => he.reports

theorem Arguments.reports {p q : Parser} {es : List Expr} : Arguments p es q →
    Reports p.recorded (entriesEach es) q.recorded
  | .none _ => .nil (List.suffix_refl _)
  | .some he hmore => he.reports.append hmore.reports

theorem More.reports {p q : Parser} {es : List Expr} : More p es q →
    Reports p.recorded (entriesEach es) q.recorded
  | .close _ => .nil (List.suffix_refl _)
  | .more _ he hmore => he.reports.append hmore.reports

theorem Alternative.reports {p q : Parser} {b : Option Block} : Alternative p b q →
    Reports p.recorded (entriesElse b) q.recorded
  | .none => .nil (List.suffix_refl _)
  | .some _ hblock => hblock.reports

theorem Braces.reports {p q : Parser} {b : Block} : Braces p b q →
    Reports p.recorded b.entries q.recorded
  | .mk hk hstatements =>
    .node (kind_ne_of_eq hk (by decide))
      (hstatements.reports.then_kept (Rule.precedes_closeBlock _).recorded)

theorem Statements.reports {p q : Parser} {ss : List Stmt} : Statements p ss q →
    Reports p.recorded (entriesBody ss) q.recorded
  | .nil => .nil (List.suffix_refl _)
  | .cons hs hss => hs.reports.append hss.reports
  | .failed hpast hss => (Reports.nil hpast.recorded).append hss.reports

theorem Statement.reports {p q : Parser} {s : Stmt} : Statement p s q →
    Reports p.recorded s.entries q.recorded
  | .binding hk hname _ hvalue hq =>
    .node (kind_ne_of_eq hk (by decide))
      (.node (kind_ne_of_eq hname (by decide)) (hvalue.reports.then_kept hq.recorded))
  | .result hk hvalue hq =>
    .node (kind_ne_of_eq hk (by decide)) (hvalue.reports.then_kept hq.recorded)
  | .expression hvalue hq => .begins (hvalue.reports.then_kept hq.recorded)

end

end Assembly

/-! ## The errors at a number -/

/-- The errors about numbers at a token. -/
def Outcome.numberErrors (o : Outcome) (t : Token) : List Diagnostic :=
  o.errors.filter fun d => d.fault.isNumber && d.position == t.span.start

section
variable {source : String} {file : Option String} {options : Options} {t u : Token} {value : Int64}

/-- What is to be recorded of a number of the program is among the errors. -/
theorem misread_subset_errors
    (h : (parse source file options).program.Contains (.expression (.integer t value)))
    (hk : t.kind = .integer) : t.misread ⊆ (parse source file options).errors := by
  obtain ⟨q, hq, herrors⟩ := exists_assembly_of_parse source file options
  intro d hd
  rw [herrors]
  exact List.mem_reverse.2 (hq.reports.misread t (h.entries (List.mem_singleton_self _)) hk hd)

variable (hlen : source.utf8ByteSize ≤ Position.maxOffset)
include hlen

/-- Tokens that start at the same place are the same. -/
theorem eq_of_start_eq (ht : t ∈ tokenize source file) (hu : u ∈ tokenize source file)
    (h : t.span.start = u.span.start) : t = u := by
  have hpairwise : (tokenize source file).Pairwise fun t u => t.span.start ≠ u.span.start :=
    (pairwise_start_tokenize hlen).imp fun hlt he => absurd (congrArg _ he) (Nat.ne_of_lt hlt)
  have hsymm : Std.Symm fun t u : Token => t.span.start ≠ u.span.start := ⟨fun _ _ => Ne.symm⟩
  by_contra hne
  exact hpairwise.forall ht hu hne h

/-- An error about a number is what is to be recorded of it. -/
theorem mem_misread_of_mem_errors (ht : t ∈ tokenize source file) {d : Diagnostic}
    (hd : d ∈ (parse source file options).errors) (hnumber : d.fault.isNumber = true)
    (hposition : d.position = t.span.start) : d ∈ t.misread := by
  obtain ⟨front, u, behind, htokens, hstart, hdescribes⟩ := describes_errors hd
  have hu : u ∈ tokenize source file := htokens ▸ List.mem_append_right _ List.mem_cons_self
  cases eq_of_start_eq hlen ht hu (hposition.symm.trans hstart)
  rcases d with ⟨fault, position⟩
  cases fault <;> cases hnumber
  obtain ⟨rfl, hk, hrange⟩ := hdescribes
  rw [Token.misread, (Token.lt_decimalValue_of_mem ht hk).2 hrange]
  exact List.mem_singleton.2 (congrArg _ hstart)

/-- At most one error about a number is at a token. -/
theorem length_numberErrors_le (ht : t ∈ tokenize source file) (hk : t.kind ≠ .eof) :
    ((parse source file options).numberErrors t).length ≤ 1 := by
  have hexpected {fault : Fault} (h : fault.isNumber = true) : fault.isUnexpected = false := by
    cases fault <;> cases h
    rfl
  have hincreasing : (Parser.opened source file options).stream.Increasing :=
    pairwise_start_tokenize hlen
  have hlast : t.span.start.offset ≠ endOffset source file options :=
    Nat.ne_of_lt (hincreasing.lt_final (mem_ahead_opened ht hk))
  have hpairwise : (parse source file options).errors.Pairwise
      (Diagnostic.Before (endOffset source file options)) := pairwise_errors hlen
  rw [Outcome.numberErrors, ← List.countP_eq_length_filter]
  refine countP_le_one hpairwise fun d e hd he => ?_
  simp only [Bool.and_eq_true, beq_iff_eq] at hd he
  exact Diagnostic.not_before (hd.2.trans he.2.symm)
    ((hexpected hd.1).trans (hexpected he.1).symm) (hd.2 ▸ hlast)

/-- At a number of the program, the errors about numbers are those that are to be recorded. -/
theorem numberErrors_eq
    (h : (parse source file options).program.Contains (.expression (.integer t value)))
    (ht : t ∈ tokenize source file) (hk : t.kind = .integer) :
    (parse source file options).numberErrors t = t.misread := by
  have hnone : (parse source file options).numberErrors t ⊆ t.misread := by
    intro d hd
    obtain ⟨hmem, hd⟩ := List.mem_filter.1 hd
    rw [Bool.and_eq_true, beq_iff_eq] at hd
    exact mem_misread_of_mem_errors hlen ht hmem hd.1 hd.2
  by_cases hread : (Text.readInt64? t.literal.toList).isSome = true
  · have hmisread : t.misread = [] := if_pos hread
    rw [hmisread] at hnone ⊢
    exact List.subset_nil.1 hnone
  · have hmisread : t.misread = [⟨.invalidNumber t.literal, t.span.start⟩] := if_neg hread
    have hmem := misread_subset_errors h hk (hmisread ▸ List.mem_singleton_self _)
    have hsome : ⟨.invalidNumber t.literal, t.span.start⟩ ∈
        (parse source file options).numberErrors t :=
      List.mem_filter.2 ⟨hmem, by simp [Fault.isNumber]⟩
    have hone : ((parse source file options).numberErrors t).length ≤ 1 :=
      length_numberErrors_le hlen ht (by simp [hk])
    rw [hmisread]
    exact ((List.singleton_sublist.2 hsome).eq_of_length_le hone).symm

/--
A number of a program has the value of its digits, or it is out of range, and counts as zero. There
is an error about a number at its token in the second case, a single one, and none in the first.
-/
theorem integer_of_contains
    (h : (parse source file options).program.Contains (.expression (.integer t value))) :
    let n := Text.decimalValue t.literal.toList
    let errors := (parse source file options).numberErrors t
    t ∈ tokenize source file ∧ Text.isNumeral t.literal = true ∧
      (n ≤ Text.maxInt64 ∧ value.toInt = n ∧
          Value.ofLiteral? (.integer t value) = some (.integer value) ∧ errors = [] ∨
        Text.maxInt64 < n ∧ value = 0 ∧ (Expr.integer t value).render = t.literal ∧
          errors = [⟨.invalidNumber t.literal, t.span.start⟩]) := by
  obtain ⟨⟨hmem, hspelled⟩, hk, hvalue⟩ := (builtFrom_parse source file options).node h
  have ht : t ∈ tokenize source file := List.dropLast_subset _ hmem
  have hnumeral : Text.isNumeral t.literal = true := by
    have hs : t.isSpelled = true := hspelled (by simp [hk])
    rwa [Token.isSpelled, hk] at hs
  intro n errors
  refine ⟨ht, hnumeral, ?_⟩
  have herrors : errors = t.misread := numberErrors_eq hlen h ht hk
  rw [herrors, Token.misread]
  cases hread : Text.readInt64? t.literal.toList with
  | some v =>
    have hv : value = v := by rw [hvalue, Text.countedValue, hread, Option.getD_some]
    have hrange : n ≤ Text.maxInt64 := (Text.isSome_readInt64? hnumeral).1 (by rw [hread]; rfl)
    have hexact : value.toInt = n := hv ▸ (Text.readInt64?_eq_some_iff hnumeral).1 hread
    exact .inl ⟨hrange, hexact, rfl, rfl⟩
  | none =>
    have hv : value = 0 := by rw [hvalue, Text.countedValue, hread, Option.getD_none]
    have hrange : Text.maxInt64 < n := (Token.lt_decimalValue_of_mem ht hk).1 hread
    exact .inr ⟨hrange, hv, rfl, rfl⟩

end

/-- The largest number behind leading zeros, and the next one, in a source with another error. -/
theorem integer_of_contains_limits :
    let source := "@ 0009223372036854775807+9223372036854775808"
    let o := parse source none {}
    let low := Token.placed defaultFile 2 .integer "0009223372036854775807"
    let high := Token.placed defaultFile 25 .integer "9223372036854775808"
    source.utf8ByteSize ≤ Position.maxOffset ∧ o.errors.length = 2 ∧
      o.program.Contains (.expression (.integer low 9223372036854775807)) ∧
      o.program.Contains (.expression (.integer high 0)) ∧ o.numberErrors low = [] ∧
      o.numberErrors high = [⟨.invalidNumber "9223372036854775808", ⟨25, "shell"⟩⟩] := by
  intro source o low high
  have hlen : source.utf8ByteSize ≤ Position.maxOffset := by decide +kernel
  let plus := Token.placed defaultFile 24 .plus "+"
  let sum := Expr.binary plus (.integer low 9223372036854775807) "+" (.integer high 0)
  have hs : Stmt.expression low sum ∈ o.program.statements := by decide +kernel
  have hsum : o.program.Contains (.expression sum) :=
    .inside (.top hs) (List.mem_singleton_self _)
  have hlow : o.program.Contains (.expression (.integer low 9223372036854775807)) :=
    hsum.inside List.mem_cons_self
  have hhigh : o.program.Contains (.expression (.integer high 0)) :=
    hsum.inside (List.mem_cons_of_mem _ (List.mem_singleton_self _))
  obtain ⟨-, -, hsmall⟩ := integer_of_contains hlen hlow
  obtain ⟨-, -, hlarge⟩ := integer_of_contains hlen hhigh
  refine ⟨hlen, by decide +kernel, hlow, hhigh, ?_, ?_⟩
  · exact (hsmall.resolve_right fun h => absurd h.1 (by decide +kernel)).2.2.2
  · exact (hlarge.resolve_left fun h => absurd h.1 (by decide +kernel)).2.2.2

end ExprLang
