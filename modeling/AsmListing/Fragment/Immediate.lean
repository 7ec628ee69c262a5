/-
  AsmListing.Fragment.Immediate — a number as an operand. It may be a reference: then
  its label or address is shown, with a preview of the string found there. Otherwise it
  is a literal.
-/

import AsmListing.Fragment.Label
import AsmListing.Fragment.Literal

namespace AsmListing

structure ImmediateOptions where
  /-- Hexadecimal for a value that is no address. -/
  hexa : Bool := false
  /-- Show the string at the address, unless a symbol names it. -/
  preview : Bool := true
  /-- Never show a string: for the targets of jumps and calls. -/
  isTarget : Bool := false
  deriving DecidableEq, Repr

namespace Scene

variable (s : Scene)

/-- A reference fully told by its label. -/
def labelSettles (a : Address) : Bool :=
  (s.analysis.isReferenced a && s.analysis.kindOf a != .unknown) ||
    s.analysis.kindOf a == .unmapped || s.binary.kind == .unknown

/-- The section that makes a number an address: the one given, or the one it lies in. -/
def sectionFor (a : Address) (sec : Option Section) : Option Section :=
  if s.binary.isRawAtZero then none else sec <|> s.binary.sectionOf a

/-- The string at an address in a data section. -/
def preview (a : Address) (sec : Section) (o : ImmediateOptions) : List Token :=
  if !o.isTarget && o.preview && !s.binary.hasSymbol a && sec.isData then
    let text := s.binary.stringAt a s.settings.maxDataSize.toNat
    if text = "" ∨ text = "\"\"" then [] else [.plain " ", s.styled .string text]
  else []

def literal (l : Literal) : Token := if l.isQuoted then s.styled .string l.text else .plain l.text

/-- The tokens of the number, and whether writing it in hexadecimal too would still help. -/
def immediate (v : Int64) (size : UInt64) (sec : Option Section) (o : ImmediateOptions) : List Token × Bool :=
  let a : Address := ⟨v.toUInt64⟩
  match s.operandLabel a, s.sectionFor a sec with
  | some label, some within =>
    if s.labelSettles a then (label, true) else (label ++ s.preview a within o, true)
  | some label, none => (label, true)
  | none, some within => (s.valueAddress a ++ s.preview a within o, true)
  | none, none =>
    let l := Literal.choose v size (o.hexa || s.settings.hexImmediates)
    ([s.literal l], l.hexHelps)

end Scene

end AsmListing
