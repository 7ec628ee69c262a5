/-
  AsmListing.Fragment.Address — fragments of a line: indentation, addresses and data
  bytes. A fragment is the list of tokens to append to the current line.
-/

import AsmListing.Page.Line
import AsmListing.Scene.Basic
import AsmListing.Text.Printable

namespace AsmListing.Scene

variable (s : Scene)

/-- A token with the weight its style has in the palette. -/
def styled (style : Style) (text : String) : Token := ⟨text, style, s.palette.isBold style⟩

/-- One token of blanks, and none at the outermost level. What this asks of a machine is in
    `Listing.Machine`. -/
def indent (level : Nat) : List Token :=
  if level = 0 then [] else [.spaces (level * s.settings.indentWidth.toNat)]

/-! ## Addresses -/

/-- The name of the section, where settings ask for it in front of an address. -/
def sectionTag : Option Section → List Token
  | some sec => if s.settings.sectionTag then [s.styled .comment sec.name, .plain " "] else []
  | none => []

/-- The address at the start of a line. With `ownStyle` an override does not count. -/
def address (a : Address) (sec : Option Section) (colon ownStyle : Bool) : List Token :=
  let style := if ownStyle then .address else (s.context.colorOf a).getD .address
  s.sectionTag sec ++ [⟨if colon then a.text ++ ": " else a.text, style, false⟩]

/-- An address as the value of an operand: plain unless overridden. -/
def valueAddress (a : Address) : List Token := [⟨a.text, (s.context.colorOf a).getD .plain, false⟩]

/-! ## Lines without an instruction -/

/-- One byte of data; a question mark for one that has no value. A printable byte is shown
    as its character too, just as it is. -/
def dataByte (b : Option UInt8) : List Token :=
  s.styled .transfer ".db" ::
    match b with
    | none => [.plain " ?"]
    | some b =>
      .plain (" " ++ Numeral.hexByte b) ::
        if Text.isPrintable b then [s.styled .string ("  '" ++ Text.ofBytes [b] ++ "'")] else []

/-- A line for an address where no instruction could be decoded. -/
def badLine (a : Address) (level : Nat) (sec : Option Section) : List Token :=
  s.indent level ++ s.address a sec true false ++ [.plain "(bad)"]

/-- A line across the listing. -/
def ruleLine : List Token :=
  [s.styled .userComment ("; " ++ String.ofList (List.replicate 69 '-'))]

end AsmListing.Scene
