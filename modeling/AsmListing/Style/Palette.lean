/-
  AsmListing.Style.Palette — how each style looks: an optional color and a weight.
-/

import AsmListing.Style.Basic

namespace AsmListing

inductive Hue where
  | black
  | red
  | green
  | yellow
  | blue
  | magenta
  | cyan
  | white
  deriving DecidableEq, Repr

inductive Color where
  | normal (hue : Hue)
  | bright (hue : Hue)
  | rgb (red green blue : UInt8)
  deriving DecidableEq, Repr

structure Look where
  color : Option Color := none
  bold : Bool := false
  deriving DecidableEq, Repr

structure Palette where
  look : Style → Look

namespace Palette

def isBold (p : Palette) (s : Style) : Bool := (p.look s).bold

def set (p : Palette) (s : Style) (l : Look) : Palette := ⟨fun t => if t = s then l else p.look t⟩

def standard : Palette where
  look
    | .plain => {}
    | .address => { color := some (.rgb 78 205 196) }
    | .codeAddress => { color := some (.rgb 100 181 246) }
    | .symbol => { color := some (.rgb 255 165 0), bold := true }
    | .unknown => { color := some (.rgb 128 128 128) }
    | .typeName => { color := some (.normal .green) }
    | .variableName => { color := some (.normal .cyan) }
    | .keyword => { color := some (.rgb 255 107 107), bold := true }
    | .string => { color := some (.normal .yellow) }
    | .sectionName => { color := some (.normal .magenta) }
    | .comment => { color := some (.bright .black) }
    | .internalComment => { color := some (.rgb 108 117 125) }
    | .userComment => { color := some (.rgb 150 255 150) }
    | .transfer => { color := some (.normal .red), bold := true }
    | .highlight => { color := some (.rgb 255 215 0) }

end Palette

end AsmListing
