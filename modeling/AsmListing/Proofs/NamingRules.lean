/-
  AsmListing.Proofs.NamingRules — the rule an address gets its name by: the symbol that
  stands there, or else what its memory is of. At most one rule applies
  (`Scene.NamedBy`), and the rule alone makes the name; the style depends on the mode as
  well, and is overridden last.

  Names made up for addresses without a symbol are told apart by the digits behind their
  first four characters. The digits are those of listings, without leading zeros, so no two
  addresses share them, whatever their kinds.

  Proved, for every scene and every address:
  - `label?_eq_some_iff`: a label is found just if a rule applies, and is the label of it.
  - `operandLabel?_of_mentionable` / `operandLabel?_of_not_mentionable`: as an operand an
    address has the same label, or none (`label?_of_operandLabel?`).
  - `hex_read` / `hex_injective`: the digits of an address are read back.
  - `made_up_names_unambiguous`: made-up names, and addresses as listings show them, tell
    addresses apart.
-/

import AsmListing.Fragment.Label
import AsmListing.Proofs.Characters
import AsmListing.Proofs.Numerals

namespace AsmListing

/-! ## Rules -/

inductive NamingRule where
  | symbol (name : String)
  | function
  | code
  | unknown
  deriving DecidableEq, Repr

namespace NamingRule

def text (a : Address) : NamingRule → String
  | symbol name => name
  | function => "sub_" ++ a.hex
  | code => "loc_" ++ a.hex
  | unknown => "unk_" ++ a.hex

def isSymbol : NamingRule → Bool
  | symbol _ => true
  | function | code | unknown => false

/-- The style in a dump. -/
def dumpStyle : NamingRule → Style
  | symbol _ | function => .symbol
  | code => .codeAddress
  | unknown => .unknown

/-- The style in a decompiled listing: symbols and functions stand out, and less so those
    whose name says that it is of a place inside a function. -/
def readingStyle (a : Address) : NamingRule → Style
  | code | unknown => .plain
  | rule =>
    if "loop_".toList <+: (rule.text a).toList ∨ "ret_".toList <+: (rule.text a).toList then .address else .symbol

end NamingRule

namespace Scene

variable (s : Scene)

/-- The rule that names `a`: a symbol before anything else. -/
inductive NamedBy (a : Address) : NamingRule → Prop
  | symbol {name : String} (h : s.binary.symbolAt a = some name) : NamedBy a (.symbol name)
  | function (h : s.binary.symbolAt a = none) (hkind : s.analysis.kindOf a = .function) : NamedBy a .function
  | code (h : s.binary.symbolAt a = none) (hkind : s.analysis.kindOf a = .code) (hmode : s.context.mode = .dump) :
      NamedBy a .code
  | unknown (h : s.binary.symbolAt a = none) (hkind : s.analysis.kindOf a = .unknown) : NamedBy a .unknown

/-- An override counts in every mode. -/
def styleBy (a : Address) (rule : NamingRule) : Style :=
  match s.context.colorOf a, s.context.mode with
  | some style, _ => style
  | none, .dump => rule.dumpStyle
  | none, .decompiled => rule.readingStyle a

def labelBy (a : Address) (rule : NamingRule) : Label :=
  ⟨rule.text a, s.styleBy a rule, s.analysis.kindOf a, rule.isSymbol⟩

variable {s} {a : Address}

theorem NamedBy.unique {rule other : NamingRule} (h : s.NamedBy a rule) (h' : s.NamedBy a other) : rule = other := by
  cases h <;> cases h' <;> simp_all

theorem isDump_iff : s.context.isDump = true ↔ s.context.mode = .dump := by simp [Context.isDump]

/-- The label that is found, before a style is chosen for the mode. -/
theorem name?_eq_some_iff {l : Label} :
    s.name? a false = some l ↔
      ∃ rule, s.NamedBy a rule ∧ l = ⟨rule.text a, rule.dumpStyle, s.analysis.kindOf a, rule.isSymbol⟩ := by
  unfold name?
  constructor
  · intro h
    cases hsymbol : s.binary.symbolAt a with
    | some name =>
      simp only [hsymbol] at h
      cases h
      exact ⟨.symbol name, .symbol hsymbol, rfl⟩
    | none =>
      simp only [hsymbol, Bool.false_and, Bool.false_eq_true, if_false] at h
      unfold Label.synthesize? at h
      split at h
      case h_1 hkind =>
        cases h
        exact ⟨.function, .function hsymbol hkind, by rw [hkind]; rfl⟩
      case h_2 hkind =>
        split at h
        case isTrue hdump =>
          cases h
          exact ⟨.code, .code hsymbol hkind (isDump_iff.mp hdump), by rw [hkind]; rfl⟩
        case isFalse => cases h
      case h_3 hkind =>
        cases h
        exact ⟨.unknown, .unknown hsymbol hkind, by rw [hkind]; rfl⟩
      case h_4 => cases h
      case h_5 => cases h
  · rintro ⟨rule, hrule, rfl⟩
    cases hrule with
    | symbol hsymbol => simp only [hsymbol]; rfl
    | function hsymbol hkind => simp only [hsymbol, hkind]; rfl
    | code hsymbol hkind hmode =>
      simp only [hsymbol, hkind, Label.synthesize?, isDump_iff.mpr hmode]
      rfl
    | unknown hsymbol hkind => simp only [hsymbol, hkind]; rfl

/-- The style of a rule in the mode at hand, or the override. -/
theorem restyle_eq_labelBy {rule : NamingRule} (h : s.NamedBy a rule) :
    s.restyle a ⟨rule.text a, rule.dumpStyle, s.analysis.kindOf a, rule.isSymbol⟩ = s.labelBy a rule := by
  have hplace : ∀ name, Label.isPlaceName name = true ↔
      "loop_".toList <+: name.toList ∨ "ret_".toList <+: name.toList := by
    simp [Label.isPlaceName, List.isPrefixOf_iff_prefix]
  have hreading : s.context.mode = .decompiled →
      Label.readingStyle ⟨rule.text a, rule.dumpStyle, s.analysis.kindOf a, rule.isSymbol⟩ = rule.readingStyle a := by
    intro hmode
    cases h with
    | symbol hsymbol =>
      simp only [Label.readingStyle, NamingRule.readingStyle, NamingRule.isSymbol, Bool.true_or, if_true, hplace]
    | function hsymbol hkind =>
      simp only [Label.readingStyle, NamingRule.readingStyle, hkind, MemoryKind.isFunction, Bool.or_true, if_true,
        hplace]
    | code hsymbol hkind hdump => rw [hmode] at hdump; cases hdump
    | unknown hsymbol hkind =>
      simp [Label.readingStyle, NamingRule.readingStyle, NamingRule.isSymbol, hkind, MemoryKind.isFunction]
  unfold restyle labelBy styleBy
  cases hcolor : s.context.colorOf a with
  | some style => rfl
  | none =>
    cases hmode : s.context.mode with
    | dump => simp [isDump_iff.mpr hmode]
    | decompiled =>
      have hdump : s.context.isDump = false := by simp [Context.isDump, hmode]
      simp [hdump, hreading hmode]

theorem label?_eq_some_iff {l : Label} : s.label? a = some l ↔ ∃ rule, s.NamedBy a rule ∧ l = s.labelBy a rule := by
  rw [label?, Option.map_eq_some_iff]
  constructor
  · rintro ⟨name, hname, rfl⟩
    obtain ⟨rule, hrule, rfl⟩ := name?_eq_some_iff.mp hname
    exact ⟨rule, hrule, restyle_eq_labelBy hrule⟩
  · rintro ⟨rule, hrule, rfl⟩
    exact ⟨_, name?_eq_some_iff.mpr ⟨rule, hrule, rfl⟩, restyle_eq_labelBy hrule⟩

variable (s a)

/-- What makes the name of `a` fit for an operand. -/
def Mentionable : Prop :=
  (∃ name, s.binary.symbolAt a = some name) ∨ s.analysis.kindOf a = .function ∨ s.analysis.isReferenced a = true

variable {s a}

theorem name?_of_mentionable (h : s.Mentionable a) : s.name? a true = s.name? a false := by
  unfold name?
  cases hsymbol : s.binary.symbolAt a with
  | some name => rfl
  | none =>
    have hgate : (true && !(s.analysis.kindOf a).isFunction && !s.analysis.isReferenced a) = false := by
      rcases h with ⟨name, hname⟩ | hkind | hreferenced
      · rw [hsymbol] at hname; cases hname
      · simp [hkind, MemoryKind.isFunction]
      · simp [hreferenced]
    simp only [hgate, Bool.false_and]

theorem name?_of_not_mentionable (h : ¬s.Mentionable a) : s.name? a true = none := by
  obtain ⟨hsymbol, hkind, hreferenced⟩ : s.binary.symbolAt a = none ∧ (s.analysis.kindOf a).isFunction = false ∧
      s.analysis.isReferenced a = false := by
    simp only [Mentionable, not_or, not_exists] at h
    refine ⟨Option.eq_none_iff_forall_ne_some.mpr h.1, ?_, by simpa using h.2.2⟩
    cases hkind : s.analysis.kindOf a <;> simp_all [MemoryKind.isFunction]
  simp only [name?, hsymbol, hkind, hreferenced]
  rfl

theorem operandLabel?_of_mentionable (h : s.Mentionable a) : s.operandLabel? a = s.label? a := by
  rw [operandLabel?, label?, name?_of_mentionable h]

theorem operandLabel?_of_not_mentionable (h : ¬s.Mentionable a) : s.operandLabel? a = none := by
  rw [operandLabel?, name?_of_not_mentionable h, Option.map_none]

theorem label?_of_operandLabel? {l : Label} (h : s.operandLabel? a = some l) : s.label? a = some l := by
  by_cases hfit : s.Mentionable a
  · rwa [operandLabel?_of_mentionable hfit] at h
  · rw [operandLabel?_of_not_mentionable hfit] at h
    cases h

theorem label?_kind {l : Label} (h : s.label? a = some l) : l.kind = s.analysis.kindOf a := by
  obtain ⟨rule, -, rfl⟩ := label?_eq_some_iff.mp h
  rfl

end Scene

/-! ## Made-up names -/

namespace Address

variable {a b : Address}

theorem hex_digits (a : Address) : ∀ c ∈ a.hex.toList, c ∈ "0123456789abcdef".toList := by
  have hdigits : ∀ d < 16, d.digitChar ∈ "0123456789abcdef".toList := by decide
  intro c hc
  rw [hex, Numeral.hex, String.toList_ofList] at hc
  obtain ⟨d, hd, rfl⟩ := Text.mem_toDigits (by decide) hc
  exact hdigits d hd

theorem hex_read (a : Address) : Numeral.value? 16 a.hex.toList = some a.value.toNat := by
  rw [hex, Numeral.hex, String.toList_ofList]
  exact Numeral.value?_toDigits (Nat.le_refl 16) (by decide) _

theorem hex_head (h : a.hex.toList.head? = some '0') : a.value = 0 := by
  rw [hex, Numeral.hex, String.toList_ofList] at h
  exact UInt64.toNat_inj.mp (Numeral.toDigits_head (by decide) h)

theorem hex_injective (h : a.hex = b.hex) : a = b := by
  have hvalue : some a.value.toNat = some b.value.toNat := by rw [← hex_read, ← hex_read, h]
  obtain ⟨va⟩ := a
  obtain ⟨vb⟩ := b
  exact congrArg Address.mk (UInt64.toNat_inj.mp (Option.some.inj hvalue))

theorem text_eq (a : Address) : a.text = "0x" ++ a.hex := by
  rw [text, hex, Numeral.hex, Numeral.marked, ← String.toList_inj]
  simp

theorem text_injective (h : a.text = b.text) : a = b := by
  rw [text_eq, text_eq] at h
  exact hex_injective (by simpa using h)

end Address

/-- The first characters of a made-up name. -/
def madeUpStarts : List String := ["sub_", "loc_", "unk_"]

theorem made_up_text {s : Scene} {a : Address} {l : Label} (hsymbol : s.binary.symbolAt a = none)
    (h : s.label? a = some l) : ∃ start ∈ madeUpStarts, l.text = start ++ a.hex := by
  obtain ⟨rule, hrule, rfl⟩ := Scene.label?_eq_some_iff.mp h
  cases hrule with
  | symbol hsome => rw [hsymbol] at hsome; cases hsome
  | function => exact ⟨"sub_", by decide, rfl⟩
  | code => exact ⟨"loc_", by decide, rfl⟩
  | unknown => exact ⟨"unk_", by decide, rfl⟩

/-- All starts are as long as each other, so the digits stand at one place. -/
theorem hex_of_made_up {start other : String} (h : start ∈ madeUpStarts) (h' : other ∈ madeUpStarts) {a b : Address}
    (htext : start ++ a.hex = other ++ b.hex) : a.hex = b.hex := by
  have hlength : ∀ start ∈ madeUpStarts, start.toList.length = 4 := by decide
  have hchars : start.toList ++ a.hex.toList = other.toList ++ b.hex.toList := by
    rw [← String.toList_append, ← String.toList_append, htext]
  have hdigits := (List.append_inj hchars ((hlength _ h).trans (hlength _ h').symm)).2
  exact String.toList_inj.mp hdigits

/-- Two made-up names with one text are names of one address, even of different kinds, and
    so it is with addresses as listings show them. In either the digits are lower-case
    hexadecimal without leading zeros, and are read back as the address. -/
theorem made_up_names_unambiguous :
    (∀ (s : Scene) {a b : Address} {l m : Label}, s.binary.symbolAt a = none → s.binary.symbolAt b = none →
        s.label? a = some l → s.label? b = some m → l.text = m.text → a = b) ∧
      (∀ a b : Address, a.text = b.text → a = b) ∧
      (∀ (s : Scene) {a : Address} {l : Label}, s.binary.symbolAt a = none → s.label? a = some l →
        ∃ start ∈ madeUpStarts, l.text = start ++ a.hex) ∧
      ∀ a : Address, a.text = "0x" ++ a.hex ∧ (∀ c ∈ a.hex.toList, c ∈ "0123456789abcdef".toList) ∧
        (a.hex.toList.head? = some '0' → a.value = 0 ∧ a.hex = "0") ∧
        Numeral.value? 16 a.hex.toList = some a.value.toNat := by
  refine ⟨fun s a b l m ha hb hl hm htext => ?_, fun a b => Address.text_injective, fun s a l => made_up_text,
    fun a => ⟨a.text_eq, a.hex_digits, fun hhead => ?_, a.hex_read⟩⟩
  · obtain ⟨start, hstart, hla⟩ := made_up_text ha hl
    obtain ⟨other, hother, hmb⟩ := made_up_text hb hm
    rw [hla, hmb] at htext
    exact Address.hex_injective (hex_of_made_up hstart hother htext)
  · have hzero := Address.hex_head hhead
    refine ⟨hzero, ?_⟩
    rw [Address.hex, hzero]
    rfl

/-- A dump with a function at `0x2000`, and code that nothing refers to behind it. -/
def madeUpScene : Scene where
  context := { mode := .dump, entry := ⟨0x2000⟩ }
  binary := ({} : Image).view
  analysis :=
    ({ defaultKind := .code, kinds := ({} : Table Address MemoryKind).insert ⟨0x2000⟩ .function } : Findings).view

/-- One place reached in two ways has one name, and no place has that of the function. -/
theorem place_told_from_function :
    madeUpScene.binary.symbolAt ⟨0x2010⟩ = none ∧
      madeUpScene.label? ⟨0x2010⟩ = some ⟨"loc_2010", .codeAddress, .code, false⟩ ∧
      madeUpScene.label? (Address.advance ⟨0x2000⟩ 0x10) = some ⟨"loc_2010", .codeAddress, .code, false⟩ ∧
      Address.advance ⟨0x2000⟩ 0x10 = ⟨0x2010⟩ ∧
      ∃ l, madeUpScene.label? ⟨0x2000⟩ = some l ∧ l.text ≠ "loc_2010" := by
  have hplace : madeUpScene.label? ⟨0x2010⟩ = some ⟨"loc_2010", .codeAddress, .code, false⟩ := by decide
  have hmoved : madeUpScene.label? (Address.advance ⟨0x2000⟩ 0x10) = some ⟨"loc_2010", .codeAddress, .code, false⟩ := by
    decide
  refine ⟨rfl, hplace, hmoved, made_up_names_unambiguous.1 madeUpScene rfl rfl hmoved hplace rfl, _, rfl,
    fun htext => ?_⟩
  have hsame : (⟨0x2000⟩ : Address) = ⟨0x2010⟩ := made_up_names_unambiguous.1 madeUpScene rfl rfl rfl hplace htext
  exact absurd hsame (by decide)

end AsmListing
