/-
  AsmListing.Program.Address — a 64-bit address. Listings show it as `0x` and its
  hexadecimal digits; moving past the top of the address space stops at the top.
-/

import AsmListing.Text.Numeral

namespace AsmListing

structure Address where
  value : UInt64
  deriving DecidableEq, Repr, Inhabited

namespace Address

/-- The last address of the address space. -/
def top : Address := ⟨0xffffffffffffffff⟩

/-- `n` bytes further up, or `top` when that lies beyond it. -/
def advance (a : Address) (n : UInt64) : Address :=
  if a.value.toNat + n.toNat < UInt64.size then ⟨a.value + n⟩ else top

/-- In the half-open range from `start` to `stop`. -/
def inRange (a start stop : Address) : Bool := start.value ≤ a.value && a.value < stop.value

instance : Ord Address := ⟨fun a b => compare a.value b.value⟩

/-- Bare hexadecimal digits, as used behind `sub_` and `loc_`. -/
def hex (a : Address) : String := Numeral.hex a.value.toNat

/-- The form shown in listings: `0x1000`. -/
def text (a : Address) : String := String.ofList (Numeral.marked a.value.toNat)

def padded (a : Address) (width : Nat) : String :=
  String.ofList (Numeral.padZero width (Numeral.hexDigits a.value.toNat))

end Address

end AsmListing
