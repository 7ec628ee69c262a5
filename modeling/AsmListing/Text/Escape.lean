/-
  AsmListing.Text.Escape — text made safe inside quotes: `escape` for double quotes,
  `quotedByte` for the one byte of a character literal. No control character is left.
-/

import AsmListing.Text.Numeral

namespace AsmListing.Text

/-- A code below 0x20 or from 0x7f to 0x9f. -/
def isControl (c : Char) : Bool := c.toNat < 0x20 || (0x7f ≤ c.toNat && c.toNat ≤ 0x9f)

/-- A backslash, `x` and two hexadecimal digits. -/
def hexEscape (code : Nat) : List Char := '\\' :: 'x' :: Numeral.padZero 2 (Numeral.hexDigits code)

def escapeChar (c : Char) : List Char :=
  match c with
  | '\\' => ['\\', '\\']
  | '"' => ['\\', '"']
  | '\n' => ['\\', 'n']
  | '\r' => ['\\', 'r']
  | '\t' => ['\\', 't']
  | c => if isControl c then hexEscape c.toNat else [c]

def escape (s : String) : String := String.ofList (s.toList.flatMap escapeChar)

/-- What stands between the single quotes of a character literal. -/
def quotedByte (b : UInt8) : String :=
  String.ofList <|
    match Char.ofUInt8 b with
    | '\n' => ['\\', 'n']
    | '\r' => ['\\', 'r']
    | '\t' => ['\\', 't']
    | '\\' => ['\\', '\\']
    | '\x27' => ['\\', '\x27']
    | c => if 0x20 ≤ b && b ≤ 0x7e then [c] else hexEscape b.toNat

end AsmListing.Text
