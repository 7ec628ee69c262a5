/-
  AsmListing.Proofs.OperandLabels — operands and lines call an address by one name. Where an
  operand shows the label of an address, the lines of its instructions show the same text
  in the same style, and say the same of a function that never returns.

  The name of an operand needs a reference to its address, or a symbol, or a function; the
  name of a line does not. The entry of a decompiled function is the only address whose
  label a line leaves out.

  Proved, for every scene:
  - `labelTokens_eq`: a label is one token, behind the remark of functions that never return.
  - `instruction_named` / `rowsAll_named`: where labels are shown, the rows of a tree name
    their instructions (`Scene.Named`), echoes too.
  - `lines_show_operand_labels`: the same for the rendering of a function, beside what the
    operand shows.
-/

import AsmListing.Proofs.Layout
import AsmListing.Proofs.NamingRules

namespace AsmListing

/-! ## Labels in a line -/

/-- The lowest bit, whatever the others are. -/
theorem FunctionAttributes.contains_noreturn (f : FunctionAttributes) :
    f.contains .noreturn = true ↔ f.bits.toNat.testBit 0 = true := by
  have hbit : f.bits &&& 1 = 1 ↔ f.bits.toNat % 2 = 1 := by
    rw [← UInt32.toNat_inj, UInt32.toNat_and, UInt32.toNat_one, Nat.and_one_is_mod]
  rw [contains, beq_iff_eq, Nat.testBit_zero, decide_eq_true_eq]
  exact hbit

/-- The label as a token. -/
def Label.token (l : Label) (colon noColor : Bool) : Token :=
  ⟨if colon then l.text ++ ":" else l.text, if noColor then .plain else l.style, false⟩

namespace Scene

variable (s : Scene)

/-- Said of a function that never returns, right before its label. -/
def noreturnRemark : Token := s.styled .comment "__noreturn__ "

/-- A function with the attribute bit of those that never return. -/
def NeverReturns (a : Address) : Prop :=
  s.analysis.kindOf a = .function ∧ ∃ f, s.analysis.flags a = some f ∧ f.bits.toNat.testBit 0 = true

theorem neverReturns_iff (a : Address) :
    s.NeverReturns a ↔ s.analysis.kindOf a = .function ∧ s.analysis.isNoreturn a = true := by
  simp [NeverReturns, Analysis.isNoreturn, Option.any_eq_true, FunctionAttributes.contains_noreturn]

instance (a : Address) : Decidable (s.NeverReturns a) := decidable_of_iff _ (s.neverReturns_iff a).symm

def remarks (a : Address) : List Token := if s.NeverReturns a then [s.noreturnRemark] else []

/-- Among the tokens stands `t` for `a`, right behind the remark if, and only if, `a` is a
    function that never returns. -/
def ShowsLabel (a : Address) (t : Token) (tokens : List Token) : Prop :=
  ∃ before behind, tokens = before ++ t :: behind ∧
    (before.getLast? = some s.noreturnRemark ↔ s.analysis.kindOf a = .function ∧ s.analysis.isNoreturn a = true)

variable {s} {a : Address}

theorem labelTokens_eq {l : Label} (hkind : l.kind = s.analysis.kindOf a) (colon noColor : Bool) :
    s.labelTokens a l colon noColor = s.remarks a ++ [l.token colon noColor] := by
  have hremark : (l.kind.isFunction && s.analysis.isNoreturn a) = true ↔ s.NeverReturns a := by
    rw [neverReturns_iff, hkind, Bool.and_eq_true]
    cases s.analysis.kindOf a <;> simp [MemoryKind.isFunction]
  simp only [labelTokens, remarks, hremark]
  rfl

theorem labelTokens_shown {l : Label} (hkind : l.kind = s.analysis.kindOf a) (colon : Bool) {lead : List Token}
    (hlead : s.noreturnRemark ∉ lead) (behind : List Token) :
    s.ShowsLabel a ⟨if colon then l.text ++ ":" else l.text, l.style, false⟩
      (lead ++ s.labelTokens a l colon false ++ behind) := by
  refine ⟨lead ++ s.remarks a, behind, by rw [labelTokens_eq hkind]; simp [Label.token], ?_⟩
  rw [← neverReturns_iff]
  by_cases hnever : s.NeverReturns a
  · rw [remarks, if_pos hnever, List.getLast?_concat]
    exact iff_of_true rfl hnever
  · rw [remarks, if_neg hnever, List.append_nil]
    exact iff_of_false (fun h => hlead (List.mem_of_getLast? h)) hnever

theorem remark_not_mem_indent (level : Nat) : s.noreturnRemark ∉ s.indent level := by
  intro h
  unfold indent at h
  split at h
  · cases h
  · have hstyle := congrArg Token.style (List.mem_singleton.mp h)
    cases hstyle

theorem remark_not_mem_echoMark (echoed : Bool) : s.noreturnRemark ∉ s.echoMark echoed := by
  intro h
  unfold echoMark at h
  split at h
  · have htext : "__noreturn__ " = "# " := congrArg Token.text (List.mem_singleton.mp h)
    exact absurd htext (by decide)
  · cases h

variable (s)

/-- The label stands in the row, and no remark before it. -/
def RowShows (label : List Token) (r : Row) : Prop :=
  ∃ lead behind, r.line.tokens = lead ++ label ++ behind ∧ s.noreturnRemark ∉ lead

/-- The rows name their instructions, each on its own row, or on the one above where labels
    have lines of their own. -/
def Named (rs : List Row) : Prop :=
  ∀ line r a label, rs[line]? = some r → r.tag = some a → s.headingLabel a true = some label →
    ∃ named shown, line = named + (if s.settings.labelOwnLine then 1 else 0) ∧
      rs[named]? = some shown ∧ s.RowShows label shown

variable {s}

namespace Named

variable {rs qs : List Row}

theorem of_untagged (h : ∀ r ∈ rs, r.tag = none) : s.Named rs := by
  intro line r a label hr htag
  rw [h r (List.mem_of_getElem? hr)] at htag
  cases htag

theorem bare (lines : List (List Token)) : s.Named (lines.map .bare) := by
  refine of_untagged fun r hr => ?_
  obtain ⟨ts, _, rfl⟩ := List.mem_map.mp hr
  rfl

theorem append (hr : s.Named rs) (hq : s.Named qs) : s.Named (rs ++ qs) := by
  intro line r a label hline htag hlabel
  -- the row with the label is in the same part as the row it names
  by_cases hlt : line < rs.length
  · rw [List.getElem?_append_left hlt] at hline
    obtain ⟨named, shown, hnamed, hshown, hshows⟩ := hr line r a label hline htag hlabel
    exact ⟨named, shown, hnamed, by rw [List.getElem?_append_left (by omega), hshown], hshows⟩
  · rw [List.getElem?_append_right (by omega)] at hline
    obtain ⟨named, shown, hnamed, hshown, hshows⟩ := hq _ r a label hline htag hlabel
    refine ⟨rs.length + named, shown, by omega, ?_, hshows⟩
    rw [List.getElem?_append_right (by omega), Nat.add_sub_cancel_left, hshown]

end Named

variable (s)

/-- An instruction with the row of its label, where that has one. -/
theorem instruction_named (a : Address) (level : Nat) (sec : Option Section) (echoed : Bool)
    (code beside : List Token) :
    s.Named (s.labelRows a level true ++
      [.ofInstruction a (s.lineStart a level sec true echoed ++ code) beside]) := by
  intro line r b label hline htag hlabel
  -- a row above the instruction's has no tag
  have hb : b = a := by
    rcases List.mem_append.mp (List.mem_of_getElem? hline) with hr | hr
    · unfold labelRows at hr
      split at hr
      · split at hr
        · rw [List.mem_singleton.mp hr] at htag; cases htag
        · cases hr
      · cases hr
    · rw [List.mem_singleton.mp hr] at htag; cases htag; rfl
  subst hb
  unfold labelRows lineStart at hline ⊢
  simp only [hlabel] at hline ⊢
  by_cases own : s.settings.labelOwnLine = true
  · simp only [own, if_true] at hline ⊢
    match line with
    | 0 => cases hline; cases htag
    | 1 =>
      refine ⟨0, _, rfl, rfl, s.indent level, [], ?_, remark_not_mem_indent level⟩
      exact (List.append_nil _).symm
    | n + 2 => cases hline
  · simp only [own, Bool.false_eq_true, if_false] at hline ⊢
    match line with
    | 0 =>
      refine ⟨0, _, rfl, rfl, s.indent level ++ s.echoMark echoed, .plain " " :: (code ++ beside), ?_, ?_⟩
      · simp [Row.ofInstruction, Line.extend, Line.markHere]
      · intro h
        rcases List.mem_append.mp h with h | h
        · exact remark_not_mem_indent level h
        · exact remark_not_mem_echoMark echoed h
    | n + 1 => cases hline

end Scene

namespace Pass

variable {p : Pass} (hlabels : p.settings.printLabels = true)

include hlabels

theorem codeRows_named {beside : Instruction → List Token} {st : Step} {rs : List Row}
    (h : p.codeRows beside st = .ok rs) : p.Named rs := by
  cases st with
  | visit i level =>
    simp only [codeRows] at h
    split at h
    · cases h; exact .bare []
    · unfold ownRows at h
      split at h
      · rw [ownLabelRows, ownStart, if_pos hlabels, if_pos hlabels, List.append_assoc] at h
        cases h
        exact p.instruction_named _ _ _ _ _ _
      · cases h
  | echo i level => cases h; exact p.instruction_named _ _ _ _ _ _
  | openCond jump fused level =>
    simp only [codeRows] at h
    split at h
    · cases h; exact .bare [_]
    · cases h
  | closeCond level => cases h; exact .bare [_]
  | unwritable => cases h

theorem rowsAll_named {blank : Bool} {ss : List Step} {rs : List Row} (h : p.rowsAll blank ss = .ok rs) :
    p.Named rs := by
  induction ss generalizing blank rs with
  | nil => cases h; exact .bare []
  | cons st ss ih =>
    obtain ⟨code, rest, hcode, hrest, rfl⟩ := p.rowsAll_cons h
    exact ((Scene.Named.bare _).append (codeRows_named hlabels hcode)).append (ih hrest)

end Pass

/-! ## The rendering of a function -/

/-- An operand and the lines of its address show one label, the lines with a colon. -/
theorem lines_show_operand_labels {p : Pass} (hlabels : p.settings.printLabels = true) {entry : Address} {tree : Tree}
    {r : Rendering} (h : p.function entry tree = .ok r) {a : Address} {l : Label} (hl : p.operandLabel? a = some l)
    (hentry : p.context.mode = .decompiled → a ≠ p.context.entry) {line : Nat} (hline : r.addressOf line = some a) :
    (∃ operand, p.operandLabel a = some operand ∧ p.ShowsLabel a ⟨l.text, l.style, false⟩ operand) ∧
      ∃ named shown, line = named + (if p.settings.labelOwnLine then 1 else 0) ∧ r.lines[named]? = some shown ∧
        p.ShowsLabel a ⟨l.text ++ ":", l.style, false⟩ shown.tokens := by
  have hlabel := Scene.label?_of_operandLabel? hl
  have hkind := Scene.label?_kind hlabel
  refine ⟨⟨p.labelTokens a l false false, ?_, ?_⟩, ?_⟩
  · rw [Scene.operandLabel, hl]; rfl
  · simpa using Scene.labelTokens_shown hkind false (List.not_mem_nil) []
  · obtain ⟨rs, hrs, rfl⟩ := p.ok_of_function h
    obtain ⟨row, hrow, htag⟩ := (Rendering.addressOf_ofRows _ _ _ _).mp hline
    have hunnamed : p.isNamedByHeader a = false := by
      unfold Scene.isNamedByHeader Context.isDump
      cases hmode : p.context.mode with
      | dump => rfl
      | decompiled => simpa using hentry hmode
    have hheading : p.headingLabel a true = some (p.labelTokens a l true false) := by
      rw [Scene.headingLabel, hunnamed, Scene.label, hlabel]; rfl
    have hrows : p.Named ((p.frontLines entry).map .bare ++ rs ++ [.bare Pass.closingLine]) :=
      ((Scene.Named.bare _).append (p.rowsAll_named hlabels hrs)).append (.bare [Pass.closingLine])
    obtain ⟨named, shown, hnamed, hshown, lead, behind, htokens, hlead⟩ := hrows line row a _ hrow htag hheading
    refine ⟨named, shown.line, hnamed, (Rendering.lines_ofRows _ _ _).trans (congrArg _ hshown), ?_⟩
    rw [htokens]
    exact Scene.labelTokens_shown hkind true hlead behind

/-- The merged pair, where the comparison starts a function that never returns. -/
def abortPass : Pass :=
  { mergedPass with
    analysis :=
      { mergedPass.analysis with
        kindOf := fun a => if a = ⟨0x1000⟩ then .function else .code
        flags := fun a => if a = ⟨0x1000⟩ then some .noreturn else none } }

/-- The comparison is only echoed, below its label. -/
theorem echoed_comparison_named :
    ∃ r, abortPass.function ⟨0x1000⟩ mergedTree = .ok r ∧ r.addressOf 6 = some ⟨0x1000⟩ ∧
      ∃ shown, r.lines[5]? = some shown ∧
        abortPass.ShowsLabel ⟨0x1000⟩ ⟨"sub_1000:", .symbol, false⟩ shown.tokens := by
  obtain ⟨r, h, hline⟩ :
      ∃ r, abortPass.function ⟨0x1000⟩ mergedTree = .ok r ∧ r.addressOf 6 = some ⟨0x1000⟩ := ⟨_, rfl, rfl⟩
  have hl : abortPass.operandLabel? ⟨0x1000⟩ = some ⟨"sub_1000", .symbol, .function, false⟩ := rfl
  obtain ⟨_, named, shown, hnamed, hshown, hshows⟩ :=
    lines_show_operand_labels rfl h hl (fun hmode => by cases hmode) hline
  have hfive : named = 5 := (Nat.succ.inj hnamed).symm
  subst hfive
  exact ⟨r, h, hline, shown, hshown, hshows⟩

end AsmListing
