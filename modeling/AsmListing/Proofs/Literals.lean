/-
  AsmListing.Proofs.Literals — numbers read back from their literals. The first character
  tells the form: a single quote a byte, a double quote the bytes of a word, lowest first,
  and a sign or a digit the number itself (`Literal.read?`).

  A quoted form keeps the bytes of the operand and nothing above them: `0x6f6c6c65` and
  `0x1_6f6c6c65` are the same text at four bytes. So numbers are told apart up to the size of
  the operand where it has quoted forms, and exactly where it has none (`Literal.Agree`).

  Proved, for every number, every size and every option:
  - `Text.littleEndian_lowBytes`: the low bytes of a word are its remainder.
  - `Literal.read?_choose`: whichever form is chosen, it is read as a number that agrees.
  - `literals_keep_numbers`: what is written for a number that is no address is read back,
    and one text is never written for numbers that do not agree.
-/

import AsmListing.Fragment.Immediate
import AsmListing.Proofs.EscapedText
import Mathlib.Data.Int.ModEq

namespace AsmListing

/-! ## Bytes, the lowest first -/

namespace Text

/-- The number whose bytes these are, the lowest first. -/
def littleEndian : List Nat → Nat
  | [] => 0
  | b :: bytes => b + 256 * littleEndian bytes

theorem littleEndian_snoc (bytes : List Nat) (b : Nat) :
    littleEndian (bytes ++ [b]) = littleEndian bytes + 256 ^ bytes.length * b := by
  induction bytes with
  | nil => simp [littleEndian]
  | cons c bytes ih =>
    rw [List.cons_append, littleEndian, ih, littleEndian, List.length_cons, Nat.pow_succ', Nat.mul_add, Nat.mul_assoc,
      Nat.add_assoc]

/-- A shift by whole bytes, within a word. -/
theorem toNat_byte (v : UInt64) {i : Nat} (hi : i < 8) :
    (v >>> (8 * i).toUInt64).toUInt8.toNat = v.toNat / 256 ^ i % 256 := by
  have hshift : (8 * i).toUInt64.toNat % 64 = 8 * i := by
    have hsmall : (8 * i).toUInt64.toNat = 8 * i := UInt64.toNat_ofNat_of_lt' (by simp [UInt64.size]; omega)
    omega
  rw [UInt64.toNat_toUInt8, UInt64.toNat_shiftRight, hshift, Nat.shiftRight_eq_div_pow, Nat.pow_mul]

theorem littleEndian_lowBytes (v : UInt64) {count : Nat} (hcount : count ≤ 8) :
    littleEndian ((lowBytes v count).map UInt8.toNat) = v.toNat % 256 ^ count := by
  induction count with
  | zero => simp [lowBytes, littleEndian, Nat.mod_one]
  | succ n ih =>
    have hlast : lowBytes v (n + 1) = lowBytes v n ++ [(v >>> (8 * n).toUInt64).toUInt8] := by
      simp [lowBytes, List.range_succ]
    have hlength : ((lowBytes v n).map UInt8.toNat).length = n := by simp [lowBytes]
    rw [hlast, List.map_append, List.map_singleton, littleEndian_snoc, hlength, ih (by omega), toNat_byte v (by omega),
      Nat.mod_pow_succ]

theorem littleEndian_packed {v : Int64} {size : UInt64} {text : String} (h : packed? v size = some text) :
    (size = 4 ∨ size = 8) ∧ littleEndian (text.toList.map Char.toNat) = v.toUInt64.toNat % 256 ^ size.toNat := by
  unfold packed? at h
  split at h
  case isFalse => cases h
  case isTrue hsize =>
    have hcount : size.toNat ≤ 8 := by rcases hsize with rfl | rfl <;> decide
    dsimp only at h
    split at h
    · cases h
      refine ⟨hsize, ?_⟩
      rw [ofBytes, String.toList_ofList, List.map_map]
      exact littleEndian_lowBytes v.toUInt64 hcount
    · cases h

end Text

/-! ## Numbers up to the size of the operand -/

namespace Literal

/-- The same number, as far as an operand of `size` bytes tells: operands of one, four and
    eight bytes may be written by their bytes alone. -/
def Agree (size : UInt64) (x y : Int) : Prop :=
  if size = 1 ∨ size = 4 ∨ size = 8 then x ≡ y [ZMOD 2 ^ (8 * size.toNat)] else x = y

namespace Agree

variable {size : UInt64} {x y z : Int}

theorem refl (size : UInt64) (x : Int) : Agree size x x := by
  unfold Agree
  split <;> rfl

theorem symm (h : Agree size x y) : Agree size y x := by
  unfold Agree at h ⊢
  split at h
  · rw [if_pos ‹_›]; exact Int.ModEq.symm h
  · rw [if_neg ‹_›]; exact Eq.symm h

theorem trans (h : Agree size x y) (h' : Agree size y z) : Agree size x z := by
  unfold Agree at h h' ⊢
  split at h
  · rw [if_pos ‹_›] at h' ⊢
    exact Int.ModEq.trans h h'
  · rw [if_neg ‹_›] at h' ⊢
    exact Eq.trans h h'

/-- The remainder of the unsigned word is the signed number, up to the size. -/
theorem of_mod {v : Int64} (hsize : size = 1 ∨ size = 4 ∨ size = 8) :
    Agree size ((v.toUInt64.toNat % 256 ^ size.toNat : Nat) : Int) v.toInt := by
  have hword := Numeral.toInt_modEq_word v
  have hbytes : (256 : Int) ^ size.toNat = 2 ^ (8 * size.toNat) := by rw [Int.pow_mul]; rfl
  have hpart : (2 : Int) ^ (8 * size.toNat) ∣ 2 ^ 64 := by rcases hsize with rfl | rfl | rfl <;> decide
  rw [Agree, if_pos hsize, Int.natCast_mod, Nat.cast_pow, Nat.cast_ofNat, hbytes]
  exact (Int.mod_modEq _ _).trans (hword.of_dvd hpart).symm

end Agree

/-! ## Reading a literal -/

def read? : List Char → Option Int
  | '\x27' :: cs =>
    match Text.quoted? '\x27' cs with
    | some ([c], []) => some c.toNat
    | _ => none
  | '"' :: cs =>
    match Text.quoted? '"' cs with
    | some (text, []) => some (Text.littleEndian (text.map Char.toNat))
    | _ => none
  | cs => Numeral.integer? cs

theorem read?_of_integer {cs : List Char} {v : Int} (h : Numeral.integer? cs = some v) : read? cs = some v := by
  unfold read?
  split
  · cases h
  · cases h
  · exact h

theorem read?_character (b : UInt8) : read? (text (.character b)).toList = some (b.toNat : Int) := by
  have htext : (text (.character b)).toList = '\x27' :: ((Text.quotedByte b).toList ++ ['\x27']) := by
    simp [text, String.toList_append]
  rw [htext, read?, Text.quoted?_quotedByte]
  rfl

theorem read?_packed (s : String) :
    read? (text (.packed s)).toList = some (Text.littleEndian (s.toList.map Char.toNat) : Int) := by
  have htext : (text (.packed s)).toList = '"' :: ((Text.escape s).toList ++ ['"']) := by
    simp [text, String.toList_append]
  rw [htext, read?, Text.quoted?_escape]

theorem read?_hexadecimal (v : Int) : read? (text (.hexadecimal v)).toList = some v :=
  read?_of_integer (Numeral.integer?_signedHex v)

theorem read?_decimal (v : Int) : read? (text (.decimal v)).toList = some v :=
  read?_of_integer (Numeral.integer?_decimal v)

theorem read?_choose (v : Int64) (size : UInt64) (hexa : Bool) :
    ∃ x, read? (choose v size hexa).text.toList = some x ∧ Agree size x v.toInt := by
  have hdigits : ∃ x, read? (text (.decimal v.toInt)).toList = some x ∧ Agree size x v.toInt :=
    ⟨v.toInt, read?_decimal v.toInt, .refl size v.toInt⟩
  unfold choose
  split
  case isTrue hbyte =>
    have hlow : v.toUInt64.toUInt8.toNat = v.toUInt64.toNat % 256 ^ size.toNat := by
      rw [UInt64.toNat_toUInt8, hbyte]
      rfl
    refine ⟨_, read?_character _, ?_⟩
    rw [hlow]
    exact .of_mod (Or.inl hbyte)
  case isFalse =>
    split
    · exact ⟨v.toInt, read?_hexadecimal v.toInt, .refl size v.toInt⟩
    · split
      · split
        case h_1 s hpacked =>
          obtain ⟨hsize, hbytes⟩ := Text.littleEndian_packed hpacked
          refine ⟨_, read?_packed s, ?_⟩
          rw [hbytes]
          exact .of_mod (Or.inr hsize)
        case h_2 => exact hdigits
      · exact hdigits

end Literal

/-! ## Operands -/

namespace Scene

section

variable (s : Scene) (v : Int64) (size : UInt64) (sec : Option Section) (o : ImmediateOptions)

/-- The characters written for a number. -/
def numberText : List Char := (s.immediate v size sec o).1.flatMap fun t => t.text.toList

/-- The number is no address: no label is found for it, and no section makes it one. -/
structure IsLiteral : Prop where
  unlabelled : s.operandLabel ⟨v.toUInt64⟩ = none
  outside : s.sectionFor ⟨v.toUInt64⟩ sec = none

/-- The literal of a number, in the form that settings and options ask for. -/
def chosen : Literal := .choose v size (o.hexa || s.settings.hexImmediates)

end

variable {s : Scene} {v : Int64} {sec : Option Section} (h : s.IsLiteral v sec) (size : UInt64) (o : ImmediateOptions)

include h

theorem immediate_chosen :
    s.immediate v size sec o = ([s.literal (s.chosen v size o)], (s.chosen v size o).hexHelps) := by
  simp only [immediate, h.unlabelled, h.outside, chosen]

theorem numberText_chosen : s.numberText v size sec o = (s.chosen v size o).text.toList := by
  have htext : ∀ l : Literal, (s.literal l).text = l.text := by
    intro l
    rw [literal]
    split <;> rfl
  rw [numberText, immediate_chosen h, List.flatMap_singleton, htext]

end Scene

/-- What is written for a number that is no address can be read back, as far as the size of
    the operand tells; so two such numbers with one text agree that far. -/
theorem literals_keep_numbers {s : Scene} {v w : Int64} {sec sec' : Option Section} (hv : s.IsLiteral v sec)
    (hw : s.IsLiteral w sec') (size : UInt64) (o : ImmediateOptions) :
    (∃ x, Literal.read? (s.numberText v size sec o) = some x ∧ Literal.Agree size x v.toInt) ∧
      (s.numberText v size sec o = s.numberText w size sec' o → Literal.Agree size v.toInt w.toInt) := by
  obtain ⟨x, hx, hxv⟩ := Literal.read?_choose v size (o.hexa || s.settings.hexImmediates)
  obtain ⟨y, hy, hyw⟩ := Literal.read?_choose w size (o.hexa || s.settings.hexImmediates)
  rw [Scene.numberText_chosen hv, Scene.numberText_chosen hw, Scene.chosen, Scene.chosen]
  refine ⟨⟨x, hx, hxv⟩, fun hsame => ?_⟩
  rw [hsame, hy] at hx
  cases hx
  exact hxv.symm.trans hyw

/-- Two numbers of which the operand keeps the same four bytes. -/
theorem high_bytes_dropped :
    let s : Scene := { context := { mode := .dump, entry := ⟨0⟩ }, binary := Image.view {}, analysis := Findings.view {} }
    s.IsLiteral 0x6f6c6c65 none ∧ s.IsLiteral 0x16f6c6c65 none ∧
      s.numberText 0x6f6c6c65 4 none {} = "\"ello\"".toList ∧ Literal.Agree 4 0x6f6c6c65 0x16f6c6c65 := by
  intro s
  have hv : s.IsLiteral 0x6f6c6c65 none := ⟨rfl, rfl⟩
  have hw : s.IsLiteral 0x16f6c6c65 none := ⟨rfl, rfl⟩
  have hsame : s.numberText 0x6f6c6c65 4 none {} = s.numberText 0x16f6c6c65 4 none {} := by decide
  exact ⟨hv, hw, by decide, (literals_keep_numbers hv hw 4 {}).2 hsame⟩

end AsmListing
