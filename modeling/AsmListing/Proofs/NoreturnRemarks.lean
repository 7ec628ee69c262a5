/-
  AsmListing.Proofs.NoreturnRemarks — what is said of a function that never returns,
  wherever its name is written: `__noreturn__ ` right before the label. The address has to
  be of a function and its lowest attribute bit set; the other bits do not matter.

  Six steps write the label of an address, each with tokens of its own around it, and one of
  them on two lines. So they are compared by the tokens they add to all that was written
  before (`Pass.Emits`). A token that only looks like the remark can be the tag of a section
  of that name, or the label of a symbol of that name.

  Proved, for every scene and every listing:
  - `bare_tells` / `labelOrAddress_tells` / `heading_emits` / `immediate_tells` /
    `header_tells`: the ways to write a label, whether or not there is one.
  - `labels_follow_rules_and_remark`: by which rule an address is named, in which style, and
    that each of the six steps tells of it as it should.
-/

import AsmListing.Proofs.Echoes
import AsmListing.Proofs.OperandLabels

namespace AsmListing

/-! ## Tokens added -/

namespace Listing

/-- All tokens in reading order, and `none` at the end of each line but the last. -/
def script (l : Listing) : List (Option Token) := l.finished.flatMap (·.map some ++ [none]) ++ l.current.map some

theorem script_put (l : Listing) (ts : List Token) : (l.put ts).script = l.script ++ ts.map some := by simp [script]

theorem script_putLine (l : Listing) {ts : List Token} (h : ts ≠ []) :
    (l.putLine ts).script = l.script ++ (ts.map some ++ [none]) := by
  have hcurrent : (l.put ts).current ≠ [] := by
    rw [current_put]
    exact List.append_ne_nil_of_right_ne_nil _ h
  simp [putLine, script, finished_newLine (tokenLines_ne_nil hcurrent)]

theorem script_put? (l : Listing) (ts : Option (List Token)) :
    (l.put? ts).listing.script = l.script ++ (ts.getD []).map some := by
  cases ts with
  | none => simp [put?]
  | some ts => exact l.script_put ts

end Listing

/-- The step adds these tokens and line ends. -/
def Pass.Emits (p : Pass) (l : Listing) (op : Operation) (added : List (Option Token)) : Prop :=
  (p.run l op).listing.script = l.script ++ added

/-! ## The remark -/

namespace Scene

variable (s : Scene)

/-- No token is the remark, but for the tag of a section of that name. -/
def Unremarked (sec : Option Section) (added : List (Option Token)) : Prop :=
  some s.noreturnRemark ∈ added → s.noreturnRemark ∈ s.sectionTag sec

/-- What is written where `a` may be named. A label has the remark right before it, on its
    line, just if `a` never returns; and there is no other remark. -/
inductive Tells (a : Address) (sec : Option Section) : Option Token → List (Option Token) → Prop
  | named (label : Token) {lead : List Token} {behind : List (Option Token)} (hlead : s.noreturnRemark ∉ lead)
      (hbehind : s.Unremarked sec behind) :
      Tells a sec (some label) ((lead ++ s.remarks a ++ [label]).map some ++ behind)
  | unnamed {added : List (Option Token)} (h : s.Unremarked sec added) : Tells a sec none added

variable {s} {a : Address} {sec : Option Section}

/-! ## Labels -/

theorem label_eq (colon noColor : Bool) :
    s.label a colon noColor = ((s.label? a).map (·.token colon noColor)).map fun t => s.remarks a ++ [t] := by
  rw [label]
  cases h : s.label? a with
  | none => rfl
  | some l => simp only [Option.map_some, labelTokens_eq (label?_kind h)]

theorem operandLabel_eq :
    s.operandLabel a = ((s.operandLabel? a).map (·.token false false)).map fun t => s.remarks a ++ [t] := by
  rw [operandLabel]
  cases h : s.operandLabel? a with
  | none => rfl
  | some l => simp only [Option.map_some, labelTokens_eq (label?_kind (label?_of_operandLabel? h))]

namespace Unremarked

theorem nil : s.Unremarked sec [] := nofun

theorem of_not_mem {ts : List Token} (h : s.noreturnRemark ∉ ts) : s.Unremarked sec (ts.map some) := by
  intro hmem
  obtain ⟨t, ht, hremark⟩ := List.mem_map.mp hmem
  cases hremark
  exact absurd ht h

theorem append {added more : List (Option Token)} (h : s.Unremarked sec added) (h' : s.Unremarked sec more) :
    s.Unremarked sec (added ++ more) :=
  fun hmem => (List.mem_append.mp hmem).elim h h'

/-- Only the remark is in the style of comments. -/
theorem of_style {ts : List Token} (h : ∀ t ∈ ts, t.style ≠ .comment) : s.Unremarked sec (ts.map some) :=
  of_not_mem fun hmem => h _ hmem rfl

end Unremarked

theorem address_ne_remark (a : Address) (after : String) : a.text ++ after ≠ "__noreturn__ " := by
  intro h
  have hfirst : (a.text ++ after).toList.head? = some '0' := by
    rw [Address.text_eq]
    simp
  rw [h] at hfirst
  exact absurd hfirst (by decide)

theorem address_unremarked (colon ownStyle : Bool) : s.Unremarked sec ((s.address a sec colon ownStyle).map some) := by
  intro hmem
  obtain ⟨t, ht, hremark⟩ := List.mem_map.mp hmem
  cases hremark
  rcases List.mem_append.mp ht with ht | ht
  · exact ht
  · have htext : (if colon then a.text ++ ": " else a.text) = "__noreturn__ " :=
      congrArg Token.text (List.mem_singleton.mp ht).symm
    cases colon with
    | true => exact absurd htext (address_ne_remark a ": ")
    | false => exact absurd (by simpa using htext) (address_ne_remark a "")

theorem valueAddress_unremarked : s.Unremarked sec ((s.valueAddress a).map some) := by
  refine .of_not_mem fun hmem => ?_
  have htext : "__noreturn__ " = a.text := congrArg Token.text (List.mem_singleton.mp hmem)
  exact address_ne_remark a "" (by simpa using htext.symm)

theorem preview_unremarked (within : Section) (o : ImmediateOptions) :
    s.Unremarked sec ((s.preview a within o).map some) := by
  refine .of_style fun t ht => ?_
  unfold preview at ht
  split at ht
  · dsimp only at ht
    split at ht
    · cases ht
    · simp only [List.mem_cons, List.not_mem_nil, or_false] at ht
      rcases ht with rfl | rfl <;> simp [Token.plain, styled]
  · cases ht

theorem literal_unremarked (l : Literal) : s.Unremarked sec [some (s.literal l)] := by
  have hstyle : ∀ t ∈ [s.literal l], t.style ≠ .comment := by
    intro t ht
    rw [List.mem_singleton.mp ht, literal]
    split <;> simp [Token.plain, styled]
  exact .of_style hstyle

/-- The start of a line up to where the label comes. -/
theorem remark_not_mem_lead (level : Nat) (echoed : Bool) : s.noreturnRemark ∉ s.indent level ++ s.echoMark echoed := by
  intro h
  rcases List.mem_append.mp h with h | h
  · exact remark_not_mem_indent level h
  · exact remark_not_mem_echoMark echoed h

/-! ## The ways to write a label -/

/-- Nothing stands in front of the label. -/
theorem tells_of_label (label : Token) {behind : List (Option Token)} (h : s.Unremarked sec behind) :
    s.Tells a sec (some label) ((s.remarks a ++ [label]).map some ++ behind) := by
  have htells : s.Tells a sec (some label) (([] ++ s.remarks a ++ [label]).map some ++ behind) :=
    .named label List.not_mem_nil h
  exact htells

/-- A label with nothing around it, or nothing. -/
theorem bare_tells (label : Option Token) :
    s.Tells a sec label (((label.map fun t => s.remarks a ++ [t]).getD []).map some) := by
  cases label with
  | none => exact .unnamed .nil
  | some t => simpa using tells_of_label t .nil

theorem labelOrAddress_tells (level : Nat) (colon : Bool) :
    s.Tells a sec ((s.label? a).map (·.token colon false)) ((s.labelOrAddress a level sec colon).map some) := by
  rw [labelOrAddress, label_eq, List.map_append]
  cases s.label? a with
  | none => exact .unnamed (.append (.of_not_mem (remark_not_mem_indent level)) (address_unremarked colon false))
  | some l =>
    have htells : s.Tells a sec (some (l.token colon false))
        ((s.indent level ++ s.remarks a ++ [l.token colon false]).map some ++ []) :=
      .named _ (remark_not_mem_indent level) .nil
    simpa using htells

theorem immediate_tells (v : Int64) (size : UInt64) (given : Option Section) (o : ImmediateOptions) :
    s.Tells ⟨v.toUInt64⟩ none ((s.operandLabel? ⟨v.toUInt64⟩).map (·.token false false))
      ((s.immediate v size given o).1.map some) := by
  simp only [immediate, operandLabel_eq]
  cases s.operandLabel? ⟨v.toUInt64⟩ with
  | none =>
    cases s.sectionFor ⟨v.toUInt64⟩ given with
    | none => exact .unnamed (literal_unremarked _)
    | some within =>
      simp only [Option.map_none, List.map_append]
      exact .unnamed (.append valueAddress_unremarked (preview_unremarked within o))
  | some l =>
    have hlabel : s.Tells ⟨v.toUInt64⟩ none (some (l.token false false))
        ((s.remarks ⟨v.toUInt64⟩ ++ [l.token false false]).map some) := by
      simpa using tells_of_label (l.token false false) .nil
    cases s.sectionFor ⟨v.toUInt64⟩ given with
    | none => exact hlabel
    | some within =>
      simp only [Option.map_some]
      split
      · exact hlabel
      · rw [List.map_append]
        exact tells_of_label _ (preview_unremarked within o)

/-- The label of the entry in a header has no color. -/
theorem header_tells (entry : Address) :
    s.Tells entry none ((s.label? entry).map (·.token false true)) ((s.header entry).map some) := by
  have hsection : s.Unremarked none ((s.headerSection (s.binary.sectionOf entry)).map some) := by
    apply Unremarked.of_style
    cases s.binary.sectionOf entry <;> simp [headerSection, Token.plain, styled]
  have hkeyword : s.noreturnRemark ∉ [s.styled .keyword "function "] := by simp [noreturnRemark, styled]
  rw [header, headerName, label_eq]
  cases s.label? entry with
  | none =>
    have hname : s.Unremarked none ([Token.plain entry.text].map some) := .of_style (by simp [Token.plain])
    have hline := (Unremarked.of_not_mem hkeyword).append (hname.append hsection)
    exact .unnamed (by simpa using hline)
  | some l =>
    have htells : s.Tells entry none (some (l.token false true))
        (([s.styled .keyword "function "] ++ s.remarks entry ++ [l.token false true]).map some ++
          (s.headerSection (s.binary.sectionOf entry)).map some) := .named _ hkeyword hsection
    simpa using htells

end Scene

namespace Pass

open Listing

variable {p : Pass} {l : Listing} {a : Address} {sec : Option Section}

/-- The label at the start of a line, which may have the line to itself. -/
theorem heading_emits (level : Nat) (colon echoed : Bool) :
    ∃ added, p.Emits l (.heading a level sec colon echoed) added ∧
      p.Tells a sec (if p.isNamedByHeader a then none else (p.label? a).map (·.token colon false)) added := by
  have hlead := Scene.remark_not_mem_lead (s := p.toScene) level echoed
  have hbare : p.Unremarked sec ((p.indent level ++ p.echoMark echoed ++ p.address a sec colon false).map some) := by
    rw [List.map_append]
    exact .append (.of_not_mem hlead) (Scene.address_unremarked colon false)
  unfold Emits
  simp only [run, run.wrote, Scene.heading, Scene.headingLabel, Scene.label_eq]
  cases p.isNamedByHeader a with
  | true => exact ⟨_, script_put _ _, .unnamed hbare⟩
  | false =>
    cases p.label? a with
    | none => exact ⟨_, script_put _ _, .unnamed hbare⟩
    | some label =>
      by_cases hown : p.settings.labelOwnLine = true
      · have hbelow : p.Unremarked sec
            (none :: (p.indent level ++ p.echoMark echoed ++ p.address a sec colon true).map some) := by
          rw [List.map_append]
          have hend : p.Unremarked sec [none] := by simp [Scene.Unremarked]
          exact hend.append (.append (.of_not_mem hlead) (Scene.address_unremarked colon true))
        refine ⟨_, ?_, .named (label.token colon false) (Scene.remark_not_mem_indent level) hbelow⟩
        simp [hown, script_put, script_putLine]
      · have hgap : p.Unremarked sec ((if colon then [Token.plain " "] else []).map some) :=
          .of_style (by cases colon <;> simp [Token.plain])
        refine ⟨_, ?_, .named (label.token colon false) hlead hgap⟩
        simp [hown, script_put]

theorem firstLine_of_function {entry : Address} {tree : Tree} {r : Rendering} (h : p.function entry tree = .ok r) :
    ∃ line, r.lines[0]? = some line ∧ line.tokens = p.header entry := by
  obtain ⟨rs, -, rfl⟩ := p.ok_of_function h
  exact ⟨_, rfl, rfl⟩

end Pass

/-- An address has a label just if a rule names it, and then the one of that rule: its
    text, and its style in this mode or the override. As an operand it has the same label
    or none, as it is mentionable or not. Each of the six ways to write a label remarks
    right before it that the function never returns, just if that is so; and none of them
    has the remark anywhere else, or without a label. -/
theorem labels_follow_rules_and_remark (p : Pass) (a : Address) :
    (∀ label, p.label? a = some label ↔ ∃ rule, p.NamedBy a rule ∧ label = p.labelBy a rule) ∧
      (p.Mentionable a → p.operandLabel? a = p.label? a) ∧ (¬p.Mentionable a → p.operandLabel? a = none) ∧
      (∀ l colon noColor, ∃ added, p.Emits l (.label a colon noColor) added ∧
        p.Tells a none ((p.label? a).map (·.token colon noColor)) added) ∧
      (∀ l, ∃ added, p.Emits l (.operandLabel a) added ∧
        p.Tells a none ((p.operandLabel? a).map (·.token false false)) added) ∧
      (∀ l level sec colon, ∃ added, p.Emits l (.labelOrAddress a level sec colon) added ∧
        p.Tells a sec ((p.label? a).map (·.token colon false)) added) ∧
      (∀ l level sec colon echoed, ∃ added, p.Emits l (.heading a level sec colon echoed) added ∧
        p.Tells a sec (if p.isNamedByHeader a then none else (p.label? a).map (·.token colon false)) added) ∧
      (∀ l v size sec o, v.toUInt64 = a.value → ∃ added, p.Emits l (.immediate v size sec o) added ∧
        p.Tells a none ((p.operandLabel? a).map (·.token false false)) added) ∧
      ∀ tree r, p.function a tree = .ok r → ∃ line, r.lines[0]? = some line ∧
        p.Tells a none ((p.label? a).map (·.token false true)) (line.tokens.map some) := by
  refine ⟨fun label => Scene.label?_eq_some_iff, Scene.operandLabel?_of_mentionable,
    Scene.operandLabel?_of_not_mentionable, fun l colon noColor => ?_, fun l => ?_, fun l level sec colon => ?_,
    fun l level sec colon echoed => Pass.heading_emits level colon echoed, fun l v size sec o hv => ?_,
    fun tree r hr => ?_⟩
  · refine ⟨_, l.script_put? (p.label a colon noColor), ?_⟩
    rw [Scene.label_eq]
    exact Scene.bare_tells _
  · refine ⟨_, l.script_put? (p.operandLabel a), ?_⟩
    rw [Scene.operandLabel_eq]
    exact Scene.bare_tells _
  · exact ⟨_, l.script_put _, Scene.labelOrAddress_tells level colon⟩
  · obtain rfl : a = ⟨v.toUInt64⟩ := by
      rw [hv]
    exact ⟨_, l.script_put _, Scene.immediate_tells v size sec o⟩
  · obtain ⟨line, hline, htokens⟩ := Pass.firstLine_of_function hr
    refine ⟨line, hline, ?_⟩
    rw [htokens]
    exact Scene.header_tells a

/-- The function is named by its kind, in an operand too; the header has the remark. -/
theorem abort_function_remarked :
    abortPass.operandLabel? ⟨0x1000⟩ = some ⟨"sub_1000", .symbol, .function, false⟩ ∧
      abortPass.operandLabel? ⟨0x1004⟩ = none ∧
      (∃ added, abortPass.Emits (Listing.newLine {}) (.immediate 0x1000 8 none {}) added ∧
        abortPass.Tells ⟨0x1000⟩ none (some ⟨"sub_1000", .symbol, false⟩) added) ∧
      abortPass.NeverReturns ⟨0x1000⟩ ∧
      ∃ r line, abortPass.function ⟨0x1000⟩ mergedTree = .ok r ∧ r.lines[0]? = some line ∧
        abortPass.Tells ⟨0x1000⟩ none (some ⟨"sub_1000", .plain, false⟩) (line.tokens.map some) := by
  obtain ⟨-, hfit, -, -, -, -, -, himmediate, hfunction⟩ := labels_follow_rules_and_remark abortPass ⟨0x1000⟩
  have hunfit : ¬abortPass.Mentionable ⟨0x1004⟩ := by
    rintro (⟨name, hname⟩ | hkind | hreferenced)
    · cases hname
    · exact absurd hkind (by decide)
    · exact absurd hreferenced (by decide)
  have hnone := (labels_follow_rules_and_remark abortPass ⟨0x1004⟩).2.2.1 hunfit
  have hlabel : abortPass.label? ⟨0x1000⟩ = some ⟨"sub_1000", .symbol, .function, false⟩ := rfl
  have hoperand := (hfit (.inr (.inl rfl))).trans hlabel
  obtain ⟨r, hr⟩ : ∃ r, abortPass.function ⟨0x1000⟩ mergedTree = .ok r := ⟨_, rfl⟩
  obtain ⟨line, hline, hheader⟩ := hfunction mergedTree r hr
  have hnever : abortPass.NeverReturns ⟨0x1000⟩ := by decide
  rw [hoperand] at himmediate
  rw [hlabel] at hheader
  exact ⟨hoperand, hnone, himmediate _ 0x1000 8 none {} rfl, hnever,
    r, line, hr, hline, hheader⟩

end AsmListing
