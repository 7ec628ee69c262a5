/-
  AsmListing.Text.Printable — bytes that stand for text: printable ASCII and its white
  space, and words whose little-endian bytes all are such.
-/

namespace AsmListing.Text

/-- Printable ASCII, or one of tab, line feed, vertical tab, form feed, carriage return. -/
def isPrintable (b : UInt8) : Bool := (0x20 ≤ b && b ≤ 0x7e) || (0x09 ≤ b && b ≤ 0x0d)

/-- The `count` low bytes of `v`, the lowest first. -/
def lowBytes (v : UInt64) (count : Nat) : List UInt8 :=
  (List.range count).map fun i => (v >>> (8 * i).toUInt64).toUInt8

/-- Each byte as the character of that code. -/
def ofBytes (bytes : List UInt8) : String := String.ofList (bytes.map Char.ofUInt8)

/-- A value of 4 or 8 bytes read as text, when every byte of it is printable. -/
def packed? (v : Int64) (size : UInt64) : Option String :=
  if size = 4 ∨ size = 8 then
    let bytes := lowBytes v.toUInt64 size.toNat
    if bytes.all isPrintable then some (ofBytes bytes) else none
  else none

end AsmListing.Text
