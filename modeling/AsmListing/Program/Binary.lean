/-
  AsmListing.Program.Binary — what a listing asks of the loaded file: sections, symbols
  and the strings found in its data. `Binary` is the view a listing works with; `Image`
  is a file given by tables, and `Image.view` its view.
-/

import AsmListing.Program.Section
import AsmListing.Table

namespace AsmListing

inductive BinaryKind where
  /-- Headerless image loaded at a configured base. -/
  | raw
  | elf
  | pe
  | machO
  | unknown
  deriving DecidableEq, Repr

structure Binary where
  kind : BinaryKind
  rawBase : UInt64
  sectionOf : Address → Option Section
  symbolAt : Address → Option String
  /-- The quoted string at an address, cut to a length; empty, or an empty pair of quotes,
      when there is nothing printable. -/
  stringAt : Address → Nat → String

namespace Binary

def hasSymbol (b : Binary) (a : Address) : Bool := (b.symbolAt a).isSome

/-- A raw image at base 0 makes every small number look like an address. -/
def isRawAtZero (b : Binary) : Bool := b.kind == .raw && b.rawBase == 0

end Binary

structure Image where
  kind : BinaryKind := .elf
  rawBase : UInt64 := 0
  sections : List Section := []
  symbols : Table Address String := {}
  strings : Table Address String := {}

namespace Image

/-- The stored text counts its two quotes beside the characters that were asked for. -/
def stringAt (i : Image) (a : Address) (limit : Nat) : String :=
  String.ofList (((i.strings.find? a).getD "").toList.take (limit + 2))

def view (i : Image) : Binary where
  kind := i.kind
  rawBase := i.rawBase
  sectionOf a := i.sections.find? (·.contains a)
  symbolAt := i.symbols.find?
  stringAt := i.stringAt

end Image

end AsmListing
