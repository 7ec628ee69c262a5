/-
  AsmListing.Proofs.NumberParts — a number as the parts it is written in: a label, an
  address, the string found there, or the number itself in one of four forms. Each part has a
  condition of its own, told from the scene, the number and the options alone
  (`Scene.Shows`). What is written is decided step by step, and an early step can end it: a
  label may tell all there is to tell, or leave room for the string.

  Proved, for every scene, every number and every option:
  - `Literal.fits_iff`: one of the four forms fits, the one that is chosen.
  - `immediate_of_literal` / `immediate_of_reference`: the steps come down to the conditions,
    for a number that is no address and for one that is.
  - `immediate_written`: the parts whose condition holds are written, in one order.
  - `literal_shown_iff`: the number itself is shown just if neither label nor address is.
  - `hexHelps_iff`: hexadecimal is told not to help just behind a byte, hexadecimal digits or
    packed text.
  - `number_written_in_parts`: all this, on the current line and nowhere else.
-/

import AsmListing.Proofs.Literals
import AsmListing.Proofs.Transcript
import AsmListing.Listing.Operation

namespace AsmListing

/-! ## Forms of a literal -/

inductive Literal.Form where
  /-- The lowest byte. -/
  | character
  | hexadecimal
  /-- The bytes of the number as text. -/
  | packed
  | decimal
  deriving DecidableEq, Repr

namespace Literal

def form : Literal → Form
  | .character _ => .character
  | .hexadecimal _ => .hexadecimal
  | .packed _ => .packed
  | .decimal _ => .decimal

/-- The condition of each form; no two hold together. -/
def Form.Fits (v : Int64) (size : UInt64) (hexa : Bool) : Form → Prop
  | .character => size = 1
  | .hexadecimal => size ≠ 1 ∧ hexa = true
  | .packed => size ≠ 1 ∧ hexa = false ∧ 0 < v ∧ (Text.packed? v size).isSome = true
  | .decimal => size ≠ 1 ∧ hexa = false ∧ ¬(0 < v ∧ (Text.packed? v size).isSome = true)

instance (v : Int64) (size : UInt64) (hexa : Bool) : DecidablePred (Form.Fits v size hexa)
  | .character => inferInstanceAs (Decidable (_ = _))
  | .hexadecimal | .packed | .decimal => inferInstanceAs (Decidable (_ ∧ _))

theorem form_choose (v : Int64) (size : UInt64) (hexa : Bool) :
    (choose v size hexa).form =
      if size = 1 then .character
      else if hexa = true then .hexadecimal
      else if 0 < v ∧ (Text.packed? v size).isSome = true then .packed
      else .decimal := by
  unfold choose
  by_cases hbyte : size = 1
  · rw [if_pos hbyte, if_pos hbyte, form]
  · rw [if_neg hbyte, if_neg hbyte]
    by_cases hhexa : hexa = true
    · rw [if_pos hhexa, if_pos hhexa, form]
    · rw [if_neg hhexa, if_neg hhexa]
      by_cases hpositive : 0 < v
      · cases hpacked : Text.packed? v size <;> simp [hpositive, form]
      · simp [hpositive, form]

theorem fits_iff {v : Int64} {size : UInt64} {hexa : Bool} {f : Form} :
    f.Fits v size hexa ↔ f = (choose v size hexa).form := by
  rw [form_choose]
  cases f <;> simp only [Form.Fits] <;> split_ifs <;> simp_all

end Literal

/-! ## Parts -/

inductive NumberPart where
  | label
  | address
  /-- The string found at the address. -/
  | preview
  | literal (f : Literal.Form)
  deriving DecidableEq, Repr

namespace NumberPart

/-- In the order in which they are written. -/
def all : List NumberPart :=
  [.label, .address, .preview, .literal .character, .literal .hexadecimal, .literal .packed, .literal .decimal]

theorem mem_all (part : NumberPart) : part ∈ all := by
  rcases part with _ | _ | _ | f
  case literal => cases f <;> decide
  all_goals decide

end NumberPart

namespace Scene

section

variable (s : Scene) (v : Int64) (size : UInt64) (sec : Option Section) (o : ImmediateOptions)

def HasLabel (a : Address) : Prop := (s.operandLabel? a).isSome = true

/-- The section of an operand: the one given, else the one it lies in. -/
def sectionAt (a : Address) (sec : Option Section) : Option Section := sec <|> s.binary.sectionOf a

/-- Sections count for this file, and there is one for `a`. -/
def InSection (a : Address) (sec : Option Section) : Prop :=
  (s.sectionAt a sec).isSome = true ∧ ¬(s.binary.kind = .raw ∧ s.binary.rawBase = 0)

def previewText (a : Address) : String := s.binary.stringAt a s.settings.maxDataSize.toNat

/-- The label tells all there is to tell. -/
def Settled (a : Address) : Prop :=
  s.HasLabel a ∧ (s.analysis.isReferenced a = true ∧ s.analysis.kindOf a ≠ .unknown ∨
    s.analysis.kindOf a = .unmapped ∨ s.binary.kind = .unknown)

def Shows : NumberPart → Prop
  | .label => s.HasLabel ⟨v.toUInt64⟩
  | .address => ¬s.HasLabel ⟨v.toUInt64⟩ ∧ s.InSection ⟨v.toUInt64⟩ sec
  | .preview =>
    let a : Address := ⟨v.toUInt64⟩
    s.InSection a sec ∧ (s.sectionAt a sec).any Section.isData = true ∧
      o.preview = true ∧ o.isTarget = false ∧ s.binary.symbolAt a = none ∧
      ¬(s.previewText a = "" ∨ s.previewText a = "\"\"") ∧ ¬s.Settled a
  | .literal f => s.IsLiteral v sec ∧ f.Fits v size (o.hexa || s.settings.hexImmediates)

def partTokens : NumberPart → List Token
  | .label => (s.operandLabel ⟨v.toUInt64⟩).getD []
  | .address => s.valueAddress ⟨v.toUInt64⟩
  | .preview => [.plain " ", s.styled .string (s.previewText ⟨v.toUInt64⟩)]
  | .literal .character => [s.styled .string ("'" ++ Text.quotedByte v.toUInt64.toUInt8 ++ "'")]
  | .literal .hexadecimal => [.plain (Numeral.signedHex v.toInt)]
  | .literal .packed => [s.styled .string ("\"" ++ Text.escape ((Text.packed? v size).getD "") ++ "\"")]
  | .literal .decimal => [.plain (Numeral.decimal v.toInt)]

instance (a : Address) : Decidable (s.HasLabel a) := inferInstanceAs (Decidable (_ = _))

instance (a : Address) : Decidable (s.InSection a sec) := inferInstanceAs (Decidable (_ ∧ _))

instance (a : Address) : Decidable (s.Settled a) := inferInstanceAs (Decidable (_ ∧ _))

instance : Decidable (s.IsLiteral v sec) :=
  decidable_of_iff (s.operandLabel ⟨v.toUInt64⟩ = none ∧ s.sectionFor ⟨v.toUInt64⟩ sec = none)
    ⟨fun h => ⟨h.1, h.2⟩, fun h => ⟨h.1, h.2⟩⟩

instance : DecidablePred (s.Shows v size sec o)
  | .label => inferInstanceAs (Decidable (s.HasLabel _))
  | .address | .preview | .literal _ => inferInstanceAs (Decidable (_ ∧ _))

def shownParts : List NumberPart := NumberPart.all.filter (s.Shows v size sec o)

/-- The tokens of a part, if it is shown. -/
def written (part : NumberPart) : List Token := if s.Shows v size sec o part then s.partTokens v size part else []

end

variable {s : Scene} {v : Int64} {size : UInt64} {sec : Option Section} {o : ImmediateOptions} {a : Address}

theorem operandLabel_eq_none_iff : s.operandLabel a = none ↔ ¬s.HasLabel a := by simp [operandLabel, HasLabel]

theorem sectionFor_eq_some_iff {within : Section} :
    s.sectionFor a sec = some within ↔ s.InSection a sec ∧ s.sectionAt a sec = some within := by
  have hraw : s.binary.isRawAtZero = true ↔ s.binary.kind = .raw ∧ s.binary.rawBase = 0 := by simp [Binary.isRawAtZero]
  simp only [sectionFor, InSection, hraw]
  by_cases hcount : s.binary.kind = .raw ∧ s.binary.rawBase = 0
  · simp [hcount]
  · rw [if_neg hcount]
    constructor
    · intro h
      exact ⟨⟨by rw [sectionAt, h]; rfl, hcount⟩, h⟩
    · exact And.right

theorem sectionFor_eq_none_iff : s.sectionFor a sec = none ↔ ¬s.InSection a sec := by
  constructor
  · intro hnone hin
    obtain ⟨within, hwithin⟩ := Option.isSome_iff_exists.mp hin.1
    have hsome := sectionFor_eq_some_iff.mpr ⟨hin, hwithin⟩
    rw [hnone] at hsome
    cases hsome
  · intro hout
    rw [Option.eq_none_iff_forall_ne_some]
    exact fun within hsome => hout (sectionFor_eq_some_iff.mp hsome).1

theorem isLiteral_iff : s.IsLiteral v sec ↔ ¬s.HasLabel ⟨v.toUInt64⟩ ∧ ¬s.InSection ⟨v.toUInt64⟩ sec := by
  rw [← operandLabel_eq_none_iff, ← sectionFor_eq_none_iff]
  exact ⟨fun h => ⟨h.unlabelled, h.outside⟩, fun h => ⟨h.1, h.2⟩⟩

theorem settled_iff : s.Settled a ↔ s.HasLabel a ∧ s.labelSettles a = true := by
  simp [Settled, labelSettles, or_assoc]

/-! ## One part -/

theorem written_label : s.written v size sec o .label = (s.operandLabel ⟨v.toUInt64⟩).getD [] := by
  unfold written
  split
  case isTrue => rfl
  case isFalse hnone =>
    have hlabel : s.operandLabel ⟨v.toUInt64⟩ = none := operandLabel_eq_none_iff.mpr hnone
    rw [hlabel, Option.getD_none]

theorem written_preview_of_out (hout : ¬s.InSection ⟨v.toUInt64⟩ sec) : s.written v size sec o .preview = [] :=
  if_neg fun h => hout h.1

theorem written_preview_of_settled (h : s.Settled ⟨v.toUInt64⟩) : s.written v size sec o .preview = [] :=
  if_neg fun hshown => hshown.2.2.2.2.2.2 h

theorem written_preview {within : Section} (hwithin : s.sectionFor ⟨v.toUInt64⟩ sec = some within)
    (hmore : ¬s.Settled ⟨v.toUInt64⟩) : s.written v size sec o .preview = s.preview ⟨v.toUInt64⟩ within o := by
  obtain ⟨hin, hat⟩ := sectionFor_eq_some_iff.mp hwithin
  have hshows : s.Shows v size sec o .preview ↔
      (!o.isTarget && o.preview && !s.binary.hasSymbol ⟨v.toUInt64⟩ && within.isData) = true ∧
        ¬(s.previewText ⟨v.toUInt64⟩ = "" ∨ s.previewText ⟨v.toUInt64⟩ = "\"\"") := by
    simp only [Shows, hat, hin, hmore, Option.any_some, Binary.hasSymbol, Bool.and_eq_true, Bool.not_eq_true',
      Option.isSome_eq_false_iff, Option.isNone_iff_eq_none]
    tauto
  unfold written preview
  simp only [hshows]
  by_cases hguard : (!o.isTarget && o.preview && !s.binary.hasSymbol ⟨v.toUInt64⟩ && within.isData) = true
  · by_cases hempty : s.previewText ⟨v.toUInt64⟩ = "" ∨ s.previewText ⟨v.toUInt64⟩ = "\"\""
    · rw [if_neg (fun h => h.2 hempty), if_pos hguard]
      exact (if_pos hempty).symm
    · rw [if_pos ⟨hguard, hempty⟩, if_pos hguard]
      exact (if_neg hempty).symm
  · rw [if_neg (fun h => hguard h.1), if_neg hguard]

theorem shows_literal_iff {f : Literal.Form} :
    s.Shows v size sec o (.literal f) ↔ s.IsLiteral v sec ∧ f = (s.chosen v size o).form :=
  and_congr_right fun _ => Literal.fits_iff

theorem partTokens_chosen : s.partTokens v size (.literal (s.chosen v size o).form) = [s.literal (s.chosen v size o)] := by
  unfold chosen Literal.choose
  split
  · rfl
  · split
    · rfl
    · split
      · split
        case h_1 text hpacked =>
          simp only [Literal.form, partTokens, hpacked, Option.getD_some]
          rfl
        case h_2 => rfl
      · rfl

/-! ## All parts -/

theorem flatMap_shownParts :
    (s.shownParts v size sec o).flatMap (s.partTokens v size) = NumberPart.all.flatMap (s.written v size sec o) := by
  have hfilter : ∀ parts : List NumberPart, (parts.filter (s.Shows v size sec o)).flatMap (s.partTokens v size) =
      parts.flatMap (s.written v size sec o) := by
    intro parts
    induction parts with
    | nil => rfl
    | cons part parts ih =>
      by_cases hpart : s.Shows v size sec o part <;> simp [written, hpart, ih]
  exact hfilter NumberPart.all

theorem immediate_of_literal (h : s.IsLiteral v sec) :
    (s.immediate v size sec o).1 = NumberPart.all.flatMap (s.written v size sec o) := by
  obtain ⟨hlabel, hsection⟩ := isLiteral_iff.mp h
  have hform : ∀ f, s.written v size sec o (.literal f) =
      if f = (s.chosen v size o).form then [s.literal (s.chosen v size o)] else [] := by
    intro f
    unfold written
    simp only [shows_literal_iff, h, true_and]
    split
    case isTrue hchosen => rw [hchosen, partTokens_chosen]
    case isFalse => rfl
  have haddress : s.written v size sec o .address = [] := if_neg fun hshown => hsection hshown.2
  simp only [immediate_chosen h, NumberPart.all, List.flatMap_cons, List.flatMap_nil, hform, haddress, written_label,
    h.unlabelled, written_preview_of_out hsection, Option.getD_none, List.nil_append]
  -- of the four forms, each at its place in the list, just one is left
  cases (s.chosen v size o).form <;> rfl

theorem immediate_of_reference (h : ¬s.IsLiteral v sec) :
    (s.immediate v size sec o).1 = NumberPart.all.flatMap (s.written v size sec o) := by
  have hform : ∀ f, s.written v size sec o (.literal f) = [] := fun f => if_neg fun hshown => h hshown.1
  simp only [NumberPart.all, List.flatMap_cons, List.flatMap_nil, hform, written_label, List.append_nil]
  -- the label or the section, or both: then it matters what the label tells
  rcases hlabel : s.operandLabel ⟨v.toUInt64⟩ with _ | label
  · have hnone : ¬s.HasLabel ⟨v.toUInt64⟩ := operandLabel_eq_none_iff.mp hlabel
    rcases hsection : s.sectionFor ⟨v.toUInt64⟩ sec with _ | within
    · exact absurd ⟨hlabel, hsection⟩ h
    · have haddress : s.written v size sec o .address = s.valueAddress ⟨v.toUInt64⟩ :=
        if_pos ⟨hnone, (sectionFor_eq_some_iff.mp hsection).1⟩
      simp only [immediate, hlabel, hsection, haddress, written_preview hsection (fun hs => hnone hs.1),
        Option.getD_none, List.nil_append]
  · have hsome : s.HasLabel ⟨v.toUInt64⟩ := by
      by_contra hnone
      rw [operandLabel_eq_none_iff.mpr hnone] at hlabel
      cases hlabel
    have haddress : s.written v size sec o .address = [] := if_neg fun hshown => hshown.1 hsome
    simp only [haddress, Option.getD_some, List.nil_append]
    rcases hsection : s.sectionFor ⟨v.toUInt64⟩ sec with _ | within
    · simp only [immediate, hlabel, hsection, written_preview_of_out (sectionFor_eq_none_iff.mp hsection),
        List.append_nil]
    · by_cases hsettles : s.labelSettles ⟨v.toUInt64⟩ = true
      · have hsettled : s.Settled ⟨v.toUInt64⟩ := settled_iff.mpr ⟨hsome, hsettles⟩
        simp only [immediate, hlabel, hsection, if_pos hsettles, written_preview_of_settled hsettled, List.append_nil]
      · have hmore : ¬s.Settled ⟨v.toUInt64⟩ := fun hsettled => hsettles (settled_iff.mp hsettled).2
        simp only [immediate, hlabel, hsection, if_neg hsettles, written_preview hsection hmore]

theorem immediate_written :
    (s.immediate v size sec o).1 = (s.shownParts v size sec o).flatMap (s.partTokens v size) := by
  rw [flatMap_shownParts]
  by_cases h : s.IsLiteral v sec
  · exact immediate_of_literal h
  · exact immediate_of_reference h

/-- There is no number that nothing is written for. -/
theorem immediate_ne_nil : (s.immediate v size sec o).1 ≠ [] := by
  have hlabel : ∀ {label}, s.operandLabel ⟨v.toUInt64⟩ = some label → label ≠ [] := by
    intro label h
    obtain ⟨l, -, rfl⟩ := Option.map_eq_some_iff.mp h
    simp [labelTokens]
  simp only [immediate]
  split
  case h_1 label within hsome _ =>
    split
    · exact hlabel hsome
    · exact List.append_ne_nil_of_left_ne_nil (hlabel hsome) _
  case h_2 hsome _ => exact hlabel hsome
  case h_3 => simp [valueAddress]
  case h_4 => simp

theorem literal_shown_iff :
    (∃ f, s.Shows v size sec o (.literal f)) ↔ ¬s.Shows v size sec o .label ∧ ¬s.Shows v size sec o .address := by
  have hform : (∃ f, s.Shows v size sec o (.literal f)) ↔ s.IsLiteral v sec := by simp [shows_literal_iff]
  rw [hform, isLiteral_iff]
  simp only [Shows]
  tauto

theorem hexHelps_iff :
    (s.immediate v size sec o).2 = false ↔ ∃ f, f ≠ .decimal ∧ s.Shows v size sec o (.literal f) := by
  have hchosen : ∀ l : Literal, l.hexHelps = false ↔ l.form ≠ .decimal := by
    intro l
    cases l <;> simp [Literal.hexHelps, Literal.form]
  simp only [shows_literal_iff]
  by_cases h : s.IsLiteral v sec
  · simp [immediate_chosen h, h, hchosen]
  · have htrue : (s.immediate v size sec o).2 = true := by
      simp only [immediate]
      split
      case h_1 => split <;> rfl
      case h_2 => rfl
      case h_3 => rfl
      case h_4 hlabel hsection => exact absurd ⟨hlabel, hsection⟩ h
    simp [htrue, h]

end Scene

/-- A number is written on the current line, or on the first one, and is not recorded. Of its
    parts, in their order, those are written whose condition holds. The number itself is among
    them just if neither label nor address is; and hexadecimal is told not to help just if it
    is there in a form other than decimal. -/
theorem number_written_in_parts (p : Pass) (l : Listing) (v : Int64) (size : UInt64) (sec : Option Section)
    (o : ImmediateOptions) :
    ∃ (m : Listing) (helps : Bool) (shown : List NumberPart),
      p.run l (.immediate v size sec o) = ⟨m, .ok (some helps)⟩ ∧ m.index = l.index ∧
      m.page.lines = l.page.lines.dropLast ++ [l.page.lastLine.extend (shown.flatMap (p.partTokens v size))] ∧
      shown.Sublist NumberPart.all ∧ (∀ part, part ∈ shown ↔ p.Shows v size sec o part) ∧
      ((∃ f, .literal f ∈ shown) ↔ .label ∉ shown ∧ .address ∉ shown) ∧
      (helps = false ↔ ∃ f, f ≠ .decimal ∧ .literal f ∈ shown) := by
  have hmem : ∀ part, part ∈ p.shownParts v size sec o ↔ p.Shows v size sec o part := by
    intro part
    simp [Scene.shownParts, NumberPart.mem_all]
  refine ⟨l.put (p.immediate v size sec o).1, (p.immediate v size sec o).2, p.shownParts v size sec o, rfl, rfl, ?_,
    List.filter_sublist, hmem, ?_, ?_⟩
  · rw [← Scene.immediate_written]
    exact l.page.lines_append Scene.immediate_ne_nil
  · simp only [hmem]
    exact Scene.literal_shown_iff
  · simp only [hmem]
    exact Scene.hexHelps_iff

/-- A place of unknown kind that is referred to: its label leaves room for the string. -/
example :
    let s : Scene :=
      { context := { mode := .dump, entry := ⟨0⟩ }
        binary :=
          ({ sections := [.ofSize ".data" ⟨0x4000⟩ 0x100 true]
             strings := ({} : Table Address String).insert ⟨0x4040⟩ "\"abc\"" } : Image).view
        analysis :=
          ({ kinds := ({} : Table Address MemoryKind).insert ⟨0x4040⟩ .unknown
             references := [⟨0x4040⟩] } : Findings).view }
    s.shownParts 0x4040 8 none {} = [.label, .preview] ∧ s.shownParts 0x40 8 none {} = [.literal .decimal] := by
  decide

end AsmListing
