/-
  AsmListing.Scene.Basic — everything a listing is written from. What is written for one
  scene depends on nothing else.
-/

import AsmListing.Program.Analysis
import AsmListing.Program.Binary
import AsmListing.Scene.Context
import AsmListing.Style.Palette

namespace AsmListing

structure Scene where
  context : Context
  binary : Binary
  analysis : Analysis
  palette : Palette := .standard

namespace Scene

variable (s : Scene)

def settings : Settings := s.context.settings

/-- A symbol stands there, or something refers to it. -/
def isLabel (a : Address) : Bool := s.binary.hasSymbol a || s.analysis.isReferenced a

end Scene

end AsmListing
