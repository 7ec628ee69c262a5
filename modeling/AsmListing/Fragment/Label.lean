/-
  AsmListing.Fragment.Label — the name shown for an address. A symbol comes first;
  otherwise the kind of memory makes one of `sub_`, `loc_` or `unk_` and the digits of
  the address. An override style counts last, in every mode.
-/

import AsmListing.Fragment.Address

namespace AsmListing

structure Label where
  text : String
  style : Style
  kind : MemoryKind
  isSymbol : Bool
  deriving DecidableEq, Repr

namespace Label

/-- The name made for an address without a symbol. -/
def synthesize? (kind : MemoryKind) (isDump : Bool) (a : Address) : Option Label :=
  match kind with
  | .function => some ⟨"sub_" ++ a.hex, .symbol, kind, false⟩
  | .code => if isDump then some ⟨"loc_" ++ a.hex, .codeAddress, kind, false⟩ else none
  | .unknown => some ⟨"unk_" ++ a.hex, .unknown, kind, false⟩
  | .data | .unmapped => none

/-- Names given to places inside a function. -/
def isPlaceName (text : String) : Bool :=
  "loop_".toList.isPrefixOf text.toList || "ret_".toList.isPrefixOf text.toList

/-- The style of a label in a decompiled listing. -/
def readingStyle (l : Label) : Style :=
  if l.isSymbol || l.kind.isFunction then
    if isPlaceName l.text then .address else .symbol
  else .plain

end Label

namespace Scene

variable (s : Scene)

/-- The name of `a`, still in the style of a dump. -/
def name? (a : Address) (referencedOnly : Bool) : Option Label :=
  let kind := s.analysis.kindOf a
  match s.binary.symbolAt a with
  | some name => some ⟨name, .symbol, kind, true⟩
  | none =>
    if referencedOnly && !kind.isFunction && !s.analysis.isReferenced a then none
    else Label.synthesize? kind s.context.isDump a

def restyle (a : Address) (l : Label) : Label :=
  let style := if s.context.isDump then l.style else l.readingStyle
  { l with style := (s.context.colorOf a).getD style }

/-- The label of an address at the start of a line. -/
def label? (a : Address) : Option Label := (s.name? a false).map (s.restyle a)

/-- The label of an address used as an operand: a made-up name other than `sub_` needs a
    reference to the address. -/
def operandLabel? (a : Address) : Option Label := (s.name? a true).map (s.restyle a)

/-- A label's tokens. A function that never returns is said to be such right before. -/
def labelTokens (a : Address) (l : Label) (colon noColor : Bool) : List Token :=
  (if l.kind.isFunction && s.analysis.isNoreturn a then [s.styled .comment "__noreturn__ "] else []) ++
    [⟨if colon then l.text ++ ":" else l.text, if noColor then .plain else l.style, false⟩]

def label (a : Address) (colon noColor : Bool) : Option (List Token) :=
  (s.label? a).map fun l => s.labelTokens a l colon noColor

def operandLabel (a : Address) : Option (List Token) :=
  (s.operandLabel? a).map fun l => s.labelTokens a l false false

def labelOrAddress (a : Address) (level : Nat) (sec : Option Section) (colon : Bool) : List Token :=
  s.indent level ++ (s.label a colon false).getD (s.address a sec colon false)

end Scene

end AsmListing
