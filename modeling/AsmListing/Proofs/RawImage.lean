/-
  AsmListing.Proofs.RawImage — numbers in a raw image loaded at 0, where every small number
  could be an address. Without a symbol at its address a number is meant to be written as a
  number there (`plainLiteral`): in the way it is written where nothing is known of any
  address (`unreferenced`).

  Sections are left out of account for these images, but the names made up for addresses
  without a symbol are not: `sub_`, and for an address that is referred to `loc_` and `unk_`
  too, are shown in place of the number (`NamesAddress`).

  Proved, for a raw image at 0 and a number without a symbol at its address:
  - `operandLabel_isSome_iff`: a label is found just if a name is made up.
  - `immediate_named` / `immediate_unnamed`: the number is shown by that label alone, or as
    a plain literal.
  - `raw_number_is_literal_iff`: the two are never the same, so it is a plain literal just
    if no name is made up.
  - `made_up_name_hides_number`: a number that is shown by a made-up name.
-/

import AsmListing.Proofs.NamingRules

namespace AsmListing

open Text

namespace Scene

variable {s : Scene}

/-! ## Plain literals -/

/-- A number as a number: as a character for a byte, else in hexadecimal where that is asked
    for, else as the text packed into it, else in decimal; only decimal digits leave
    something for hexadecimal to tell. -/
def plainLiteral (s : Scene) (v : Int64) (size : UInt64) (o : ImmediateOptions) : List Token × Bool :=
  if size = 1 then ([s.styled .string ("'" ++ quotedByte v.toUInt64.toUInt8 ++ "'")], false)
  else if o.hexa || s.settings.hexImmediates then ([.plain (Numeral.signedHex v.toInt)], false)
  else
    match if 0 < v then packed? v size else none with
    | some text => ([s.styled .string ("\"" ++ escape text ++ "\"")], false)
    | none => ([.plain (Numeral.decimal v.toInt)], true)

/-- The scene of a file without sections, in which every address is data that nothing
    refers to. -/
def unreferenced (s : Scene) : Scene :=
  { s with
    binary := { s.binary with sectionOf := fun _ => none }
    analysis := { s.analysis with kindOf := fun _ => .data, isReferenced := fun _ => false } }

/-- An address gets a name of its own though no symbol stands there. -/
def NamesAddress (s : Scene) (a : Address) : Prop :=
  match s.analysis.kindOf a with
  | .function => True
  | .code => s.context.isDump = true ∧ s.analysis.isReferenced a = true
  | .unknown => s.analysis.isReferenced a = true
  | .data | .unmapped => False

theorem literal_eq_plainLiteral (v : Int64) (size : UInt64) (o : ImmediateOptions) :
    let l := Literal.choose v size (o.hexa || s.settings.hexImmediates)
    ([s.literal l], l.hexHelps) = s.plainLiteral v size o := by
  unfold Literal.choose plainLiteral
  by_cases hbyte : size = 1
  · simp only [if_pos hbyte]
    rfl
  · by_cases hhexa : (o.hexa || s.settings.hexImmediates) = true
    · simp only [if_neg hbyte, if_pos hhexa]
      rfl
    · simp only [if_neg hbyte, if_neg hhexa]
      by_cases hpositive : 0 < v
      · simp only [if_pos hpositive]
        cases packed? v size <;> rfl
      · simp only [if_neg hpositive]
        rfl

/-- Only decimal digits leave something to tell. -/
theorem plainLiteral_decimal {v : Int64} {size : UInt64} {o : ImmediateOptions} {ts : List Token}
    (h : s.plainLiteral v size o = (ts, true)) : ts = [.plain (Numeral.decimal v.toInt)] := by
  unfold plainLiteral at h
  split at h
  · cases h
  · split at h
    · cases h
    · split at h
      · cases h
      · cases h
        rfl

/-! ## Names and digits -/

theorem decimal_no_underscore (v : Int) : '_' ∉ (Numeral.decimal v).toList := by
  have hdigits : ∀ n, '_' ∉ Numeral.decimalDigits n := fun n h =>
    absurd (Numeral.decimalDigits_isDigit h) (by decide)
  rw [Numeral.decimal, String.toList_ofList, Numeral.signed]
  split
  · intro h
    rcases List.mem_cons.mp h with h | h
    · exact absurd h (by decide)
    · exact hdigits _ h
  · exact hdigits _

/-- The end of what a made-up name starts with. -/
theorem underscore_mem {start : String} (h : start ∈ madeUpStarts) (name : String) : '_' ∈ (start ++ name).toList := by
  have hstart : ∀ start ∈ madeUpStarts, '_' ∈ start.toList := by decide
  rw [String.toList_append]
  exact List.mem_append_left _ (hstart start h)

/-! ## Numbers of a raw image at 0 -/

variable {a : Address} (hsymbol : s.binary.hasSymbol a = false)

include hsymbol

theorem name?_eq_synthesize? :
    s.name? a true =
      if !(s.analysis.kindOf a).isFunction && !s.analysis.isReferenced a then none
      else Label.synthesize? (s.analysis.kindOf a) s.context.isDump a := by
  have hnone : s.binary.symbolAt a = none := by
    simpa [Binary.hasSymbol] using hsymbol
  rw [name?]
  simp only [hnone, Bool.true_and]

theorem operandLabel_isSome_iff : (s.operandLabel a).isSome = true ↔ s.NamesAddress a := by
  rw [operandLabel, operandLabel?, Option.isSome_map, Option.isSome_map, name?_eq_synthesize? hsymbol, NamesAddress]
  cases s.analysis.kindOf a with
  | function => simp [Label.synthesize?, MemoryKind.isFunction]
  | code =>
    cases s.analysis.isReferenced a <;> cases s.context.isDump <;> simp [Label.synthesize?, MemoryKind.isFunction]
  | unknown => cases s.analysis.isReferenced a <;> simp [Label.synthesize?, MemoryKind.isFunction]
  | data => simp [Label.synthesize?]
  | unmapped => simp [Label.synthesize?]

/-- A label without a symbol ends with a name that no number looks like. -/
theorem operandLabel_ne_decimal {ts : List Token} (h : s.operandLabel a = some ts) (v : Int) :
    ts ≠ [.plain (Numeral.decimal v)] := by
  have hnone : s.binary.symbolAt a = none := by
    simpa [Binary.hasSymbol] using hsymbol
  obtain ⟨l, hl, rfl⟩ := Option.map_eq_some_iff.mp h
  obtain ⟨start, hstart, hname⟩ := made_up_text hnone (label?_of_operandLabel? hl)
  intro e
  have hlast : (⟨l.text, l.style, false⟩ : Token) ∈ [Token.plain (Numeral.decimal v)] := by
    rw [← e]
    exact List.mem_append_right _ (List.mem_singleton_self _)
  have htext : l.text = Numeral.decimal v := congrArg Token.text (List.mem_singleton.mp hlast)
  exact decimal_no_underscore v (htext ▸ hname ▸ underscore_mem hstart a.hex)

end Scene

namespace Scene

variable {s : Scene} (hraw : s.binary.isRawAtZero = true) {v : Int64}

include hraw

/-- Sections do not count, not even one that is given. -/
theorem sectionFor_raw (a : Address) (sec : Option Section) : s.sectionFor a sec = none := by
  rw [sectionFor, if_pos hraw]

theorem immediate_named {ts : List Token} (h : s.operandLabel ⟨v.toUInt64⟩ = some ts) (size : UInt64)
    (sec : Option Section) (o : ImmediateOptions) : s.immediate v size sec o = (ts, true) := by
  simp only [immediate, h, sectionFor_raw hraw]

theorem immediate_unnamed (h : s.operandLabel ⟨v.toUInt64⟩ = none) (size : UInt64) (sec : Option Section)
    (o : ImmediateOptions) : s.immediate v size sec o = s.plainLiteral v size o := by
  simp only [immediate, h, sectionFor_raw hraw]
  exact literal_eq_plainLiteral v size o

end Scene

/-- In a raw image at 0, a number without a symbol at its address is written as the plain
    literal that it is where no address is known, unless a name is made up for its address;
    then that name is written instead. -/
theorem raw_number_is_literal_iff {s : Scene} {v : Int64} (hraw : s.binary.isRawAtZero = true)
    (hsymbol : s.binary.hasSymbol ⟨v.toUInt64⟩ = false) (size : UInt64) (sec : Option Section) (o : ImmediateOptions) :
    s.unreferenced.immediate v size sec o = s.plainLiteral v size o ∧
      (s.immediate v size sec o = s.plainLiteral v size o ↔ ¬ s.NamesAddress ⟨v.toUInt64⟩) ∧
      (s.NamesAddress ⟨v.toUInt64⟩ →
        ∃ label, s.operandLabel ⟨v.toUInt64⟩ = some label ∧ s.immediate v size sec o = (label, true)) := by
  have hnamed := Scene.operandLabel_isSome_iff hsymbol
  refine ⟨?_, ⟨fun hplain hname => ?_, fun hname => ?_⟩, fun hname => ?_⟩
  · have hsilent : s.unreferenced.operandLabel ⟨v.toUInt64⟩ = none := by
      have hsymbol' : s.unreferenced.binary.hasSymbol ⟨v.toUInt64⟩ = false := hsymbol
      rw [← Option.not_isSome_iff_eq_none, Scene.operandLabel_isSome_iff hsymbol']
      exact id
    have hraw' : s.unreferenced.binary.isRawAtZero = true := hraw
    exact Scene.immediate_unnamed hraw' hsilent size sec o
  · obtain ⟨label, hlabel⟩ := Option.isSome_iff_exists.mp (hnamed.mpr hname)
    rw [Scene.immediate_named hraw hlabel] at hplain
    exact Scene.operandLabel_ne_decimal hsymbol hlabel _ (Scene.plainLiteral_decimal hplain.symm)
  · have hnone : s.operandLabel ⟨v.toUInt64⟩ = none := by
      rw [← Option.not_isSome_iff_eq_none, hnamed]
      exact hname
    exact Scene.immediate_unnamed hraw hnone size sec o
  · obtain ⟨label, hlabel⟩ := Option.isSome_iff_exists.mp (hnamed.mpr hname)
    exact ⟨label, hlabel, Scene.immediate_named hraw hlabel size sec o⟩

/-- A raw image at 0: a place in code that nothing refers to, and a function. -/
def rawScene : Scene where
  context := { mode := .dump, entry := ⟨0⟩ }
  binary := ({ kind := .raw, sections := [.ofSize "raw" ⟨0⟩ 0x10000 true] } : Image).view
  analysis :=
    ({ kinds := (({} : Table Address MemoryKind).insert ⟨0x10⟩ .code).insert ⟨0x1000⟩ .function } : Findings).view

theorem unreferenced_code_is_number :
    rawScene.binary.isRawAtZero = true ∧ rawScene.binary.hasSymbol ⟨0x10⟩ = false ∧
      rawScene.immediate 0x10 4 none {} = ([.plain "16"], true) := by
  have hliteral := (raw_number_is_literal_iff (s := rawScene) (v := 0x10) rfl rfl 4 none {}).2.1.mpr nofun
  refine ⟨rfl, rfl, hliteral.trans ?_⟩
  decide

/-- The function is shown by its name though nothing but its kind is known. -/
theorem made_up_name_hides_number :
    rawScene.binary.isRawAtZero = true ∧ rawScene.binary.hasSymbol ⟨0x1000⟩ = false ∧
      rawScene.immediate 0x1000 4 none {} = ([⟨"sub_1000", .symbol, false⟩], true) ∧
      rawScene.plainLiteral 0x1000 4 {} = ([.plain "4096"], true) := by
  refine ⟨rfl, rfl, ?_, ?_⟩ <;> decide

end AsmListing
