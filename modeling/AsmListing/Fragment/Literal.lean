/-
  AsmListing.Fragment.Literal — a number that is no address, in the form that tells a
  reader most: a byte as a character, else hexadecimal where it is preferred, else the
  text packed into it, else decimal.
-/

import AsmListing.Text.Numeral
import AsmListing.Page.Line
import AsmListing.Text.Escape
import AsmListing.Text.Printable

namespace AsmListing

inductive Literal where
  | character (b : UInt8)
  | hexadecimal (v : Int)
  | packed (text : String)
  | decimal (v : Int)
  deriving DecidableEq, Repr

namespace Literal

/-- The form for a value of `size` bytes. -/
def choose (v : Int64) (size : UInt64) (hexa : Bool) : Literal :=
  if size = 1 then .character v.toUInt64.toUInt8
  else if hexa then .hexadecimal v.toInt
  else if 0 < v then
    match Text.packed? v size with
    | some text => .packed text
    | none => .decimal v.toInt
  else .decimal v.toInt

def text : Literal → String
  | .character b => "'" ++ Text.quotedByte b ++ "'"
  | .hexadecimal v => Numeral.signedHex v
  | .packed text => "\"" ++ Text.escape text ++ "\""
  | .decimal v => Numeral.decimal v

def isQuoted : Literal → Bool
  | .character _ | .packed _ => true
  | .hexadecimal _ | .decimal _ => false

/-- Hexadecimal digits would still tell a reader something new. -/
def hexHelps : Literal → Bool
  | .decimal _ => true
  | _ => false

end Literal

end AsmListing
