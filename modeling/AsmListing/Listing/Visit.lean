/-
  AsmListing.Listing.Visit — what a listing writes for one instruction: the comments
  stored above it, its heading (label or address, raw bytes), its operands, and the
  comments beside it. An instruction merged into another has no line of its own; it is
  echoed as a comment above the place where it went.
-/

import AsmListing.Listing.Basic
import AsmListing.Fragment.OperandPrinter

namespace AsmListing

/-- One pass over a scene, with the printer chosen for its operands. -/
structure Pass extends Scene where
  operands : OperandPrinter := .generic

namespace Scene

variable (s : Scene)

/-! ## Comments -/

/-- A comment above an instruction, on a line of its own. -/
def commentLine (level : Nat) (style : Style) (text : String) : List Token :=
  s.indent level ++ [s.styled style ("; " ++ text)]

/-- The comments of one author above an instruction. In a dump an empty line sets them
    off, unless two empty lines are there already. -/
def commentGroup (level : Nat) (style : Style) (texts : List String) (l : Listing) : Listing :=
  if texts.isEmpty then l
  else
    let start := if s.context.isDump && !l.page.endsBlank then l.newLine else l
    texts.foldl (fun l text => l.putLine (s.commentLine level style text)) start

def commentsAbove (i : Instruction) (level : Nat) (l : Listing) : Listing :=
  s.commentGroup level .userComment (s.analysis.userAbove i.address)
    (s.commentGroup level .internalComment (s.analysis.internalAbove i.address) l)

def commentBeside (style : Style) : Option String → List Token
  | some text => [.plain " ", s.styled style ("; " ++ text)]
  | none => []

/-- Ends the instruction part of the line, then adds the comments beside it. -/
def commentsBeside (i : Instruction) (l : Listing) : Listing :=
  l.mark.put (s.commentBeside .userComment (s.analysis.userBeside i.address) ++
    s.commentBeside .internalComment (s.analysis.internalBeside i.address))

/-! ## Headings -/

/-- The entry of a decompiled function is named by the function's header alone. -/
def isNamedByHeader (a : Address) : Bool := !s.context.isDump && a == s.context.entry

/-- The mark of an instruction that is only echoed. -/
def echoMark (echoed : Bool) : List Token := if echoed then [s.styled .comment "# "] else []

/-- The label in front of an instruction, where it has one there. -/
def headingLabel (a : Address) (colon : Bool) : Option (List Token) :=
  if s.isNamedByHeader a then none else s.label a colon false

/-- What stands at the start of an instruction's line: its label, or its address. Where
    labels have lines of their own, the label goes above and the address follows. -/
def heading (a : Address) (level : Nat) (sec : Option Section) (colon echoed : Bool) (l : Listing) : Listing :=
  let bare := s.indent level ++ s.echoMark echoed ++ s.address a sec colon false
  match s.headingLabel a colon with
  | none => l.put bare
  | some label =>
    if s.settings.labelOwnLine then
      (l.putLine (s.indent level ++ label)).put
        (s.indent level ++ s.echoMark echoed ++ s.address a sec colon true)
    else l.put (s.indent level ++ s.echoMark echoed ++ label ++ if colon then [.plain " "] else [])

/-- The raw bytes of an instruction, if they are shown; two digits each but in an echo,
    which shows them only along with comments. -/
def rawBytes (i : Instruction) (echoed : Bool) : List Token :=
  if !s.settings.showBytes then []
  else if echoed then
    if s.settings.comments then
      i.bytes.map fun b => s.styled .comment (Numeral.hex b.toNat ++ " ")
    else []
  else i.bytes.map fun b => s.styled .comment (Numeral.hexByte b ++ " ")

/-- The bare address of an instruction that has an override style, as jump targets have. -/
def addressIfColored (i : Instruction) (level : Nat) (sec : Option Section) : List Token :=
  if (s.context.colorOf i.address).isSome then s.indent level ++ s.address i.address sec true false else []

/-! ## Echoes -/

/-- The instruction as a comment. -/
def echo (i : Instruction) (level : Nat) (sec : Option Section) (l : Listing) : Listing :=
  let headed := (s.heading i.address level sec true true (s.commentsAbove i level l)).tag i.address
  (s.commentsBeside i (headed.put (s.rawBytes i true ++ [s.styled .comment i.text]))).newLine

/-- Both parts of a merged pair, the first one first: echoed, or without comments only
    shown by their addresses. -/
def echoMerged (jump fused : Option Instruction) (level : Nat) (sec : Option Section) (l : Listing) : Listing :=
  let parts := fused.toList ++ jump.toList
  if s.settings.comments then parts.foldl (fun l i => s.echo i level sec l) l
  else l.put (parts.flatMap fun i => s.addressIfColored i level sec)

end Scene

namespace Pass

variable (p : Pass)

/-! ## Operands -/

/-- Appends what a hook answers. -/
def call {α β : Type} (hook : Hook) (f? : Option α) (apply : α → List Token × β) (l : Listing) : Outcome β :=
  match f? with
  | some f => ⟨l.put (apply f).1, .ok (apply f).2⟩
  | none => ⟨l, .error (.missing hook)⟩

def printInstruction (i : Instruction) (level : Nat) (l : Listing) : Outcome Bool :=
  call .instruction p.operands.instruction? (fun f => f p.toScene i level) l

def printOperand (i : Instruction) (n : Nat) (hexa brackets : Bool) (l : Listing) : Outcome Bool :=
  call .operand p.operands.operand? (fun f => f p.toScene i n hexa brackets) l

def printCondition (jump : Instruction) (fused : Option Instruction) (l : Listing) : Outcome Unit :=
  call .condition p.operands.condition? (fun f => (f p.toScene jump fused, ())) l

/-! ## Instructions -/

/-- The heading of an instruction with a line of its own. -/
def ownHeading (i : Instruction) (level : Nat) (sec : Option Section) (l : Listing) : Listing :=
  if p.settings.printLabels then
    (p.heading i.address level sec true false l).put (p.rawBytes i false)
  else l.put (p.indent level ++ p.address i.address sec true false)

/-- The line of an instruction, without what is above it. -/
def ownLine (i : Instruction) (level : Nat) (sec : Option Section) (l : Listing) : Outcome Unit :=
  (p.printInstruction i level ((p.ownHeading i level sec l).tag i.address)).andThen fun _ l =>
    .done (p.commentsBeside i l).newLine

def visit (i : Instruction) (level : Nat) (sec : Option Section) (l : Listing) : Outcome Unit :=
  let l := p.commentsAbove i level l
  if p.context.isFused i.address then .done l else p.ownLine i level sec l

/-- Instructions one after another, up to the first that fails. Without a section given,
    each counts to the one it lies in. -/
def visitAll (level : Nat) (sec : Option Section) : List Instruction → Listing → Outcome Unit
  | [], l => .done l
  | i :: rest, l =>
    (p.visit i level (sec <|> p.binary.sectionOf i.address) l).andThen fun _ l => visitAll level sec rest l

end Pass

end AsmListing
