/-
  AsmListing.Proofs.Numerals — numbers read back from their digits. A reader takes the value
  of each digit in turn; it refuses a character that is no digit of its base. Behind an
  optional sign, `0x` tells hexadecimal digits from decimal ones.

  Proved, for every number:
  - `value?_toDigits`: its digits in any base up to sixteen are read as the number.
  - `toDigits_head`: none but zero starts with a zero.
  - `value?_two`: so are the two digits of a byte, a zero in front of one digit included.
  - `integer?_decimal` / `integer?_signedHex`: a signed number is read back in either form.
  - `toInt_modEq_word`: a signed word and the word of the same bits differ by words.
-/

import AsmListing.Json.Reader
import Mathlib.Data.Int.ModEq
import Mathlib.Data.List.Basic

namespace AsmListing.Numeral

/-! ## Digits -/

def digit? (base : Nat) (c : Char) : Option Nat := (Json.hexValue? c).filter (· < base)

/-- The number written by `digits`, most significant first. -/
def value? (base : Nat) (digits : List Char) : Option Nat :=
  digits.foldlM (fun n c => (digit? base c).map (n * base + ·)) 0

section

variable {base : Nat} (hbase : base ≤ 16)

include hbase

theorem digit?_digitChar {d : Nat} (hd : d < base) : digit? base d.digitChar = some d := by
  have hvalue : ∀ d < 16, Json.hexValue? d.digitChar = some d := by decide
  rw [digit?, hvalue d (by omega)]
  simp [hd]

theorem value?_snoc (digits : List Char) {d : Nat} (hd : d < base) :
    value? base (digits ++ [d.digitChar]) = (value? base digits).map (· * base + d) := by
  simp only [value?, List.foldlM_append, List.foldlM_cons, List.foldlM_nil, digit?_digitChar hbase hd]
  cases digits.foldlM (fun n c => (digit? base c).map (n * base + ·)) 0 <;> rfl

theorem value?_digit {d : Nat} (hd : d < base) : value? base [d.digitChar] = some d := by
  have hread := value?_snoc hbase [] hd
  simpa [value?] using hread

theorem value?_toDigits (hone : 1 < base) (n : Nat) : value? base (Nat.toDigits base n) = some n := by
  induction n using Nat.strongRecOn with
  | ind n ih =>
    rw [Nat.toDigits_eq_if hone]
    by_cases hlast : n < base
    · rw [if_pos hlast, value?_digit hbase hlast]
    · have hfront : value? base (Nat.toDigits base (n / base)) = some (n / base) :=
        ih (n / base) (Nat.div_lt_self (by omega) hone)
      rw [if_neg hlast, value?_snoc hbase _ (Nat.mod_lt n (by omega)), hfront, Option.map_some, Nat.div_add_mod']

end

/-- Only zero has a zero in front. -/
theorem toDigits_head {base n : Nat} (hone : 1 < base) (h : (Nat.toDigits base n).head? = some '0') : n = 0 := by
  induction n using Nat.strongRecOn with
  | ind n ih =>
    rw [Nat.toDigits_eq_if hone] at h
    split at h
    case isTrue hlt => exact Nat.digitChar_eq_zero.mp (Option.some.inj h)
    case isFalse hge =>
      have hfront : (Nat.toDigits base (n / base)).head? = some '0' := by
        rwa [List.head?_append_of_ne_nil _ Nat.toDigits_ne_nil] at h
      have hzero : n / base = 0 := ih (n / base) (Nat.div_lt_self (by omega) hone) hfront
      rcases Nat.div_eq_zero_iff.mp hzero with hnone | hlt
      · omega
      · exact absurd hlt hge

/-- A byte has one digit or two. -/
theorem padZero_two {n : Nat} (hn : n < 256) :
    padZero 2 (hexDigits n) = [(n / 16).digitChar, (n % 16).digitChar] := by
  rw [hexDigits, Nat.toDigits_eq_if (by decide)]
  by_cases hone : n < 16
  · rw [if_pos hone, Nat.div_eq_of_lt hone, Nat.mod_eq_of_lt hone]
    rfl
  · rw [if_neg hone, Nat.toDigits_of_lt_base (by omega)]
    rfl

theorem value?_two {n : Nat} (hn : n < 256) : value? 16 (padZero 2 (hexDigits n)) = some n := by
  have hhigh : value? 16 [(n / 16).digitChar] = some (n / 16) := value?_digit (Nat.le_refl 16) (by omega)
  have hboth := value?_snoc (Nat.le_refl 16) [(n / 16).digitChar] (Nat.mod_lt n (by decide))
  rw [hhigh, Option.map_some, Nat.div_add_mod'] at hboth
  rw [padZero_two hn]
  exact hboth

/-! ## Signed numbers -/

/-- A magnitude in hexadecimal behind `0x`, else in decimal. -/
def magnitude? : List Char → Option Nat
  | '0' :: 'x' :: digits => value? 16 digits
  | digits => value? 10 digits

def integer? : List Char → Option Int
  | '-' :: cs => (magnitude? cs).map fun n : Nat => -(n : Int)
  | cs => (magnitude? cs).map fun n : Nat => (n : Int)

theorem magnitude?_marked (n : Nat) : magnitude? (marked n) = some n :=
  value?_toDigits (Nat.le_refl 16) (by decide) n

theorem decimalDigits_isDigit {n : Nat} {c : Char} (h : c ∈ decimalDigits n) : c.isDigit = true :=
  Nat.isDigit_of_mem_toDigits (by decide) (by decide) h

theorem magnitude?_decimalDigits (n : Nat) : magnitude? (decimalDigits n) = some n := by
  have hread : value? 10 (decimalDigits n) = some n := value?_toDigits (by decide) (by decide) n
  unfold magnitude?
  split
  case h_1 digits hmarked =>
    have hmark : 'x' ∈ decimalDigits n := by
      rw [hmarked]
      simp
    exact absurd (decimalDigits_isDigit hmark) (by decide)
  case h_2 => exact hread

/-- The sign is kept apart from digits that start with none. -/
theorem integer?_signed {digits : Nat → List Char} (hread : ∀ n, magnitude? (digits n) = some n)
    (hsign : ∀ n, (digits n).head? ≠ some '-') (v : Int) : integer? (signed digits v) = some v := by
  unfold signed
  by_cases hneg : v < 0
  · rw [if_pos hneg, integer?, hread, Option.map_some]
    congr 1
    omega
  · rw [if_neg hneg, integer?, hread, Option.map_some]
    · congr 1
      omega
    · intro cs hcs
      exact hsign v.natAbs (by rw [hcs]; rfl)

theorem integer?_decimal (v : Int) : integer? (decimal v).toList = some v := by
  rw [decimal, String.toList_ofList]
  refine integer?_signed magnitude?_decimalDigits (fun n hminus => ?_) v
  have hmem : '-' ∈ decimalDigits n := List.mem_of_mem_head? hminus
  exact absurd (decimalDigits_isDigit hmem) (by decide)

theorem integer?_signedHex (v : Int) : integer? (signedHex v).toList = some v := by
  rw [signedHex, String.toList_ofList]
  refine integer?_signed magnitude?_marked (fun n hminus => ?_) v
  cases hminus

/-! ## Words -/

theorem toInt_modEq_word (v : Int64) : v.toInt ≡ (v.toUInt64.toNat : Int) [ZMOD 2 ^ 64] := by
  have hbmod : v.toInt = Int.bmod v.toUInt64.toNat (2 ^ 64) := BitVec.toInt_eq_toNat_bmod v.toBitVec
  rw [hbmod]
  exact Int.bmod_emod

end AsmListing.Numeral
