/-
  AsmListing.Proofs.MemoryOperands — the text of a memory operand as the sum it stands for.
  A reader takes the text apart at its blanks, from the back: terms with a plus sign between
  them, and a minus sign only in front of the last one. A term is a number behind `0x`, the
  name of a register, or a name with its factor behind a star. The sum is worth an integer,
  whatever the registers hold (`AddressSum.eval`).

  Behind registers a displacement is written with its sign, down to the least one; alone it
  is written as an unsigned word. So the sum is the address up to whole words, and no closer.

  Proved, for every operand whose registers have names:
  - `name_stands` / `scaledName_stands` / `marked_stands`: a word of the text is read as its term.
  - `sum?_registers`: the registers are read as base and scaled index.
  - `memory_text_means_address`: the whole text is read, as the address of the operand.
-/

import AsmListing.Fragment.OperandPrinter
import AsmListing.Proofs.Characters
import AsmListing.Proofs.Numerals

namespace AsmListing

open OperandPrinter

/-! ## Sums -/

inductive AddressSum where
  | number (n : Nat)
  | register (name : String)
  | scaled (name : String) (factor : Nat)
  | plus (front last : AddressSum)
  | minus (front last : AddressSum)
  deriving DecidableEq, Repr

namespace AddressSum

/-- What the sum is worth, for registers that hold these values. -/
def eval (values : String → UInt64) : AddressSum → Int
  | .number n => n
  | .register name => (values name).toNat
  | .scaled name factor => (values name).toNat * factor
  | .plus front last => front.eval values + last.eval values
  | .minus front last => front.eval values - last.eval values

/-! ## Reading -/

/-- Not empty, no digit in front, and nothing that would end a name. -/
def isName : List Char → Bool
  | [] => false
  | c :: cs => !c.isDigit && (c :: cs).all fun d => d ∉ [' ', '+', '-', '*']

def name? (word : List Char) : Option String := if isName word then some (String.ofList word) else none

def number? : List Char → Option Nat
  | '0' :: 'x' :: d :: digits => Numeral.value? 16 (d :: digits)
  | _ => none

def term? (word : List Char) : Option AddressSum :=
  match word.splitOn '*' with
  | [single] => ((number? single).map .number).or ((name? single).map .register)
  | [name, factor] => (name? name).bind fun r => (Numeral.value? 10 factor).map (.scaled r)
  | _ => none

/-- Terms with plus signs between them, the last word first. -/
def sum? : List (List Char) → Option AddressSum
  | [word] => term? word
  | word :: ['+'] :: front => (sum? front).bind fun f => (term? word).map (.plus f)
  | _ => none

/-- A minus sign stands in front of the last term or nowhere. -/
def signedSum? : List (List Char) → Option AddressSum
  | word :: ['-'] :: front => (sum? front).bind fun f => (term? word).map (.minus f)
  | words => sum? words

/-- The words of a text, the last one first. -/
def backwards (text : String) : List (List Char) := (text.toList.splitOn ' ').reverse

def read? (text : String) : Option AddressSum := signedSum? (backwards text)

/-- A single word that is read as this term. -/
structure Stands (word : String) (t : AddressSum) : Prop where
  whole : ' ' ∉ word.toList
  term : term? word.toList = some t

/-! ## Words -/

theorem not_mem_of_isName {word : List Char} (h : isName word = true) {c : Char} (hc : c ∈ [' ', '+', '-', '*']) :
    c ∉ word := by
  intro hmem
  cases word with
  | nil => cases hmem
  | cons d ds =>
    have hall := (Bool.and_eq_true_iff.mp h).2
    have hout := List.all_eq_true.mp hall c hmem
    exact of_decide_eq_true hout hc

/-- Names and numbers start differently. -/
theorem number?_of_isName {word : List Char} (h : isName word = true) : number? word = none := by
  unfold number?
  split
  case h_1 => exact absurd h (by simp [isName])
  case h_2 => rfl

theorem name_stands {name : String} (h : isName name.toList = true) : Stands name (.register name) := by
  refine ⟨not_mem_of_isName h (by decide), ?_⟩
  have hstar : '*' ∉ name.toList := not_mem_of_isName h (by decide)
  simp only [term?, List.splitOn_eq_singleton hstar, number?_of_isName h, name?, if_pos h, Option.map_none,
    Option.map_some, Option.none_or, String.ofList_toList]

theorem digit_ne {base n : Nat} (hone : 1 < base) (hbase : base ≤ 16) {c : Char} (hc : c ∈ Nat.toDigits base n) :
    c ≠ ' ' ∧ c ≠ '*' := by
  have hdigits : ∀ d < 16, d.digitChar ≠ ' ' ∧ d.digitChar ≠ '*' := by decide
  obtain ⟨d, hd, rfl⟩ := Text.mem_toDigits hone hc
  exact hdigits d (by omega)

theorem marked_stands (n : Nat) : Stands (String.ofList (Numeral.marked n)) (.number n) := by
  have hout : ∀ c ∈ Numeral.marked n, c ≠ ' ' ∧ c ≠ '*' := by
    intro c hc
    simp only [Numeral.marked, List.mem_cons] at hc
    rcases hc with rfl | rfl | hc
    · decide
    · decide
    · exact digit_ne (by decide) (by decide) hc
  have hstar : '*' ∉ Numeral.marked n := fun hc => (hout _ hc).2 rfl
  have hread : number? (Numeral.marked n) = some n := by
    obtain ⟨d, digits, hdigits⟩ := List.exists_cons_of_ne_nil (l := Numeral.hexDigits n) Nat.toDigits_ne_nil
    have hvalue : Numeral.value? 16 (Numeral.hexDigits n) = some n :=
      Numeral.value?_toDigits (Nat.le_refl 16) (by decide) n
    rw [hdigits] at hvalue
    rw [Numeral.marked, hdigits, number?, hvalue]
  refine ⟨fun hc => (hout ' ' (by simpa using hc)).1 rfl, ?_⟩
  simp only [String.toList_ofList, term?, List.splitOn_eq_singleton hstar, hread, Option.map_some, Option.some_or]

/-- An index as it is written: a factor of one or none is left out. -/
def scaledName (scale : UInt8) (name : String) : String :=
  if 1 < scale then name ++ "*" ++ Numeral.decimal scale.toNat else name

theorem decimal_toList (n : Nat) : (Numeral.decimal n).toList = Numeral.decimalDigits n := by
  have hpositive : ¬(n : Int) < 0 := by omega
  rw [Numeral.decimal, String.toList_ofList, Numeral.signed, if_neg hpositive, Int.natAbs_natCast]

theorem scaledName_stands {name : String} (h : isName name.toList = true) (scale : UInt8) :
    ∃ t, Stands (scaledName scale name) t ∧
      ∀ values, t.eval values = (values name).toNat * (max scale.toNat 1 : Nat) := by
  unfold scaledName
  split
  case isTrue hscale =>
    have hstar : '*' ∉ name.toList := not_mem_of_isName h (by decide)
    have hword : (name ++ "*" ++ Numeral.decimal scale.toNat).toList =
        name.toList ++ '*' :: Numeral.decimalDigits scale.toNat := by simp [decimal_toList]
    have hsplit : (name.toList ++ '*' :: Numeral.decimalDigits scale.toNat).splitOn '*' =
        [name.toList, Numeral.decimalDigits scale.toNat] := by
      rw [List.splitOn_append_cons_self_of_not_mem hstar, List.splitOn_eq_singleton]
      exact fun hc => (digit_ne (by decide) (by decide) hc).2 rfl
    have hfactor : Numeral.value? 10 (Numeral.decimalDigits scale.toNat) = some scale.toNat :=
      Numeral.value?_toDigits (by decide) (by decide) _
    refine ⟨.scaled name scale.toNat, ⟨?_, ?_⟩, fun values => ?_⟩
    · rw [hword, List.mem_append, List.mem_cons]
      rintro (hc | hc | hc)
      · exact not_mem_of_isName h (by decide) hc
      · cases hc
      · exact (digit_ne (by decide) (by decide) hc).1 rfl
    · simp only [hword, term?, hsplit, name?, if_pos h, hfactor, Option.bind_some, Option.map_some,
        String.ofList_toList]
    · have hmax : max scale.toNat 1 = scale.toNat := by
        have := UInt8.lt_iff_toNat_lt.mp hscale
        exact Nat.max_eq_left (by simpa using Nat.le_of_lt this)
      rw [hmax, eval]
  case isFalse hscale =>
    refine ⟨.register name, name_stands h, fun values => ?_⟩
    have hmax : max scale.toNat 1 = 1 := by
      have := Nat.not_lt.mp (mt UInt8.lt_iff_toNat_lt.mpr hscale)
      exact Nat.max_eq_right (by simpa using this)
    rw [hmax, eval, Nat.cast_one, mul_one]

/-! ## Words of a sum -/

theorem backwards_single {word : String} (h : ' ' ∉ word.toList) : backwards word = [word.toList] := by
  rw [backwards, List.splitOn_eq_singleton h, List.reverse_singleton]

/-- A word more, behind a sign. -/
theorem backwards_snoc (front : String) {sep last : String} {sign : Char} (hsep : sep.toList = [' ', sign, ' '])
    (hsign : sign ≠ ' ') (h : ' ' ∉ last.toList) :
    backwards (front ++ sep ++ last) = last.toList :: [sign] :: backwards front := by
  have hapart : (front ++ sep ++ last).toList = front.toList ++ ' ' :: ([sign] ++ ' ' :: last.toList) := by simp [hsep]
  have hnone : ' ' ∉ [sign] := by simpa using hsign.symm
  rw [backwards, hapart, List.splitOn_append_cons_self, List.splitOn_append_cons_self_of_not_mem hnone,
    List.splitOn_eq_singleton h, List.reverse_append]
  rfl

theorem sum?_single {word : String} {t : AddressSum} (h : Stands word t) : sum? (backwards word) = some t := by
  rw [backwards_single h.whole, sum?, h.term]

theorem sum?_plus {front last : String} {e t : AddressSum} (hfront : sum? (backwards front) = some e)
    (hlast : Stands last t) : sum? (backwards (front ++ " + " ++ last)) = some (.plus e t) := by
  have hwords : backwards (front ++ " + " ++ last) = last.toList :: ['+'] :: backwards front :=
    backwards_snoc front rfl (by decide) hlast.whole
  rw [hwords, sum?, hfront, hlast.term]
  rfl

/-- A sum without a minus sign is a sum. -/
theorem signedSum?_of_sum? {words : List (List Char)} {e : AddressSum} (h : sum? words = some e) :
    signedSum? words = some e := by
  unfold signedSum?
  split
  case h_1 word front =>
    have hnone : sum? (word :: ['-'] :: front) = none := by simp [sum?]
    rw [hnone] at h
    cases h
  case h_2 => exact h

theorem read?_minus {front last : String} {e t : AddressSum} (hfront : sum? (backwards front) = some e)
    (hlast : Stands last t) : read? (front ++ " - " ++ last) = some (.minus e t) := by
  have hwords : backwards (front ++ " - " ++ last) = last.toList :: ['-'] :: backwards front :=
    backwards_snoc front rfl (by decide) hlast.whole
  rw [read?, hwords, signedSum?, hfront, hlast.term]
  rfl

/-! ## Displacements -/

/-- The text of the registers with a displacement behind it. -/
def displaced (registers : String) (disp : Int64) : String :=
  if disp = 0 then registers
  else if disp < 0 then registers ++ " - " ++ String.ofList (Numeral.marked disp.toInt.natAbs)
  else registers ++ " + " ++ String.ofList (Numeral.marked disp.toInt.natAbs)

/-- Sign and magnitude tell the displacement itself, the least one included. -/
theorem read?_displaced {registers : String} {e : AddressSum} (h : sum? (backwards registers) = some e)
    (disp : Int64) :
    ∃ t, read? (displaced registers disp) = some t ∧ ∀ values, t.eval values = e.eval values + disp.toInt := by
  have hmagnitude := marked_stands disp.toInt.natAbs
  unfold displaced
  split
  case isTrue hzero =>
    refine ⟨e, signedSum?_of_sum? h, fun values => ?_⟩
    rw [hzero, Int64.toInt_zero, add_zero]
  case isFalse =>
    split
    case isTrue hneg =>
      refine ⟨_, read?_minus h hmagnitude, fun values => ?_⟩
      have hint : disp.toInt < 0 := Int64.lt_iff_toInt_lt.mp hneg
      rw [eval, eval, Int.ofNat_natAbs_of_nonpos (Int.le_of_lt hint), Int.sub_neg]
    case isFalse hpos =>
      refine ⟨_, signedSum?_of_sum? (sum?_plus h hmagnitude), fun values => ?_⟩
      have hint : ¬disp.toInt < 0 := fun hneg => hpos (Int64.lt_iff_toInt_lt.mpr hneg)
      rw [eval, eval, Int.natAbs_of_nonneg (Int.not_lt.mp hint)]

/-! ## Registers -/

/-- What a register holds; one that is left out counts as nothing. -/
def held (values : String → UInt64) (register : Option String) : Int :=
  (register.map fun name => ((values name).toNat : Int)).getD 0

variable {base index : Option String} (hbase : ∀ r ∈ base, isName r.toList = true)
  (hindex : ∀ r ∈ index, isName r.toList = true)

include hbase hindex

theorem sum?_registers (hsome : base ≠ none ∨ index ≠ none) (scale : UInt8) :
    ∃ e, sum? (backwards (" + ".intercalate (base.toList ++ (index.map (scaledName scale)).toList))) = some e ∧
      ∀ values, e.eval values = held values base + held values index * (max scale.toNat 1 : Nat) := by
  cases base with
  | none =>
    cases index with
    | none => simp at hsome
    | some i =>
      obtain ⟨t, ht, hvalue⟩ := scaledName_stands (hindex i rfl) scale
      exact ⟨t, sum?_single ht, fun values => by simp [hvalue, held]⟩
  | some b =>
    have hb := name_stands (hbase b rfl)
    cases index with
    | none => exact ⟨.register b, sum?_single hb, fun values => by simp [eval, held]⟩
    | some i =>
      obtain ⟨t, ht, hvalue⟩ := scaledName_stands (hindex i rfl) scale
      exact ⟨.plus (.register b) t, sum?_plus (sum?_single hb) ht, fun values => by simp [eval, hvalue, held]⟩

end AddressSum

/-- The text of a memory operand is never empty, and is read as a sum that is worth base,
    scaled index and displacement, up to whole words. -/
theorem memory_text_means_address {base index : Option String} (hbase : ∀ r ∈ base, AddressSum.isName r.toList = true)
    (hindex : ∀ r ∈ index, AddressSum.isName r.toList = true) (scale : UInt8) (disp : Int64) :
    memoryText base index scale disp ≠ "" ∧
      ∃ e, AddressSum.read? (memoryText base index scale disp) = some e ∧
        ∀ values, e.eval values ≡
          AddressSum.held values base + AddressSum.held values index * (max scale.toNat 1 : Nat) + disp.toInt
            [ZMOD 2 ^ 64] := by
  have hempty : AddressSum.read? "" = none := by decide
  suffices h : ∃ e, AddressSum.read? (memoryText base index scale disp) = some e ∧ ∀ values, e.eval values ≡
      AddressSum.held values base + AddressSum.held values index * (max scale.toNat 1 : Nat) + disp.toInt
        [ZMOD 2 ^ 64] by
    refine ⟨fun hnone => ?_, h⟩
    obtain ⟨e, he, -⟩ := h
    rw [hnone, hempty] at he
    cases he
  by_cases hsome : base ≠ none ∨ index ≠ none
  · obtain ⟨front, hfront, hvalue⟩ := AddressSum.sum?_registers hbase hindex hsome scale
    have hshown : " + ".intercalate (base.toList ++ (index.map (AddressSum.scaledName scale)).toList) ≠ "" := by
      intro hnone
      have hwords : AddressSum.sum? (AddressSum.backwards "") = none := by decide
      rw [hnone, hwords] at hfront
      cases hfront
    obtain ⟨e, he, hdisp⟩ := AddressSum.read?_displaced hfront disp
    refine ⟨e, (congrArg AddressSum.read? (if_neg hshown)).trans he, fun values => ?_⟩
    rw [hdisp, hvalue]
  · obtain ⟨rfl, rfl⟩ : base = none ∧ index = none := by simpa using hsome
    have hword := AddressSum.marked_stands disp.toUInt64.toNat
    refine ⟨_, AddressSum.signedSum?_of_sum? (AddressSum.sum?_single hword), fun values => ?_⟩
    simpa [AddressSum.eval, AddressSum.held] using (Numeral.toInt_modEq_word disp).symm

/-- The least displacement there is, behind a base and a scaled index. -/
theorem least_displacement_read :
    (∀ r ∈ some "rbp", AddressSum.isName r.toList = true) ∧ (∀ r ∈ some "rcx", AddressSum.isName r.toList = true) ∧
      ∃ e, AddressSum.read? "rbp + rcx*4 - 0x8000000000000000" = some e ∧
        ∀ values, e.eval values ≡ (values "rbp").toNat + (values "rcx").toNat * 4 - 2 ^ 63 [ZMOD 2 ^ 64] := by
  have hbase : ∀ r ∈ some "rbp", AddressSum.isName r.toList = true := by
    rintro r ⟨⟩
    decide
  have hindex : ∀ r ∈ some "rcx", AddressSum.isName r.toList = true := by
    rintro r ⟨⟩
    decide
  have htext : memoryText (some "rbp") (some "rcx") 4 Int64.minValue = "rbp + rcx*4 - 0x8000000000000000" := by decide
  obtain ⟨-, e, he, hvalue⟩ := memory_text_means_address hbase hindex 4 Int64.minValue
  rw [htext] at he
  exact ⟨hbase, hindex, e, he, hvalue⟩

/-- Alone, a displacement is a word. -/
example : memoryText none none 1 (-8) = "0xfffffffffffffff8" := by decide

end AsmListing
