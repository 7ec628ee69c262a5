/-
  AsmListing.Text.Numeral — numbers as text: lower-case hexadecimal and decimal digits
  without leading zeros, a fixed width reached with zeros, and a sign put in front of
  the digits.
-/

namespace AsmListing.Numeral

/-- Lower-case hexadecimal digits, most significant first; zero has one digit. -/
def hexDigits (n : Nat) : List Char := Nat.toDigits 16 n

def decimalDigits (n : Nat) : List Char := Nat.toDigits 10 n

/-- Zeros in front of `digits` up to `width`; longer digits stay as they are. -/
def padZero (width : Nat) (digits : List Char) : List Char :=
  List.replicate (width - digits.length) '0' ++ digits

/-- The magnitude written by `digits`, behind a minus sign when `v` is negative. -/
def signed (digits : Nat → List Char) (v : Int) : List Char :=
  if v < 0 then '-' :: digits v.natAbs else digits v.natAbs

def hex (n : Nat) : String := String.ofList (hexDigits n)

/-- Hexadecimal digits behind the `0x` mark. -/
def marked (n : Nat) : List Char := '0' :: 'x' :: hexDigits n

/-- A byte as two hexadecimal digits. -/
def hexByte (b : UInt8) : String := String.ofList (padZero 2 (hexDigits b.toNat))

def decimal (v : Int) : String := String.ofList (signed decimalDigits v)

/-- Sign, `0x` and the digits of the magnitude: `-0x10`. -/
def signedHex (v : Int) : String := String.ofList (signed marked v)

end AsmListing.Numeral
