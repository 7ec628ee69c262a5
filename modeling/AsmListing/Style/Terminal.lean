/-
  AsmListing.Style.Terminal — colored text for a terminal, as ANSI escape sequences. A
  text is wrapped in its opening sequence and a reset; where the text itself resets, the
  opening sequence is given again, so that the rest of it keeps its look.
-/

import AsmListing.Text.Numeral
import AsmListing.Style.Palette

namespace AsmListing

def Hue.index : Hue → Nat
  | .black => 0
  | .red => 1
  | .green => 2
  | .yellow => 3
  | .blue => 4
  | .magenta => 5
  | .cyan => 6
  | .white => 7

namespace Terminal

/-- The numbers that select a foreground color. -/
def colorCodes : Color → List Nat
  | .normal h => [30 + h.index]
  | .bright h => [90 + h.index]
  | .rgb r g b => [38, 2, r.toNat, g.toNat, b.toNat]

def codes (color : Option Color) (bold : Bool) : List Nat :=
  (if bold then [1] else []) ++ (color.map colorCodes).getD []

/-- The sequence that selects `codes`. -/
def select (codes : List Nat) : List Char :=
  '\x1b' :: '[' :: (List.intercalate [';'] (codes.map Numeral.decimalDigits) ++ ['m'])

def reset : List Char := ['\x1b', '[', '0', 'm']

/-- Gives `start` again behind each reset. -/
def reselect (start : List Char) : List Char → List Char
  | [] => []
  | '\x1b' :: '[' :: '0' :: 'm' :: rest => reset ++ start ++ reselect start rest
  | c :: rest => c :: reselect start rest

/-- Plain text without a look stays as it is; any other is wrapped, an empty one too. -/
def paint (color : Option Color) (bold : Bool) (text : String) : String :=
  match codes color bold with
  | [] => text
  | cs => String.ofList (select cs ++ reselect (select cs) text.toList ++ reset)

end Terminal

/-- The color is that of the style, the weight that of the token. -/
def Palette.paint (p : Palette) (s : Style) (bold : Bool) (text : String) : String :=
  Terminal.paint (p.look s).color bold text

end AsmListing
