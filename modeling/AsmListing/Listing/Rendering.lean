/-
  AsmListing.Listing.Rendering — a finished listing: its lines, the index for
  navigation, and the text it prints as.
-/

import AsmListing.Listing.Basic
import AsmListing.Style.Terminal

namespace AsmListing

structure Rendering where
  lines : List Line
  index : LineIndex
  /-- Whether it prints in color. -/
  color : Bool

namespace Rendering

/-- Joins the buffer; one that is joined already has been handed out before. -/
def ofBuffer (b : Buffer) (index : LineIndex) (color : Bool) : Except Failure Rendering :=
  match b.join with
  | .ok b => .ok ⟨b.page.lines, index, color⟩
  | .error fault => .error (.buffer fault)

variable (r : Rendering)

def text? (line : Nat) : Option String := r.lines[line]?.map Line.text

def boundary? (line : Nat) : Option Boundary := r.lines[line]?.map Line.boundary

/-- The text of a line without the comments behind its instruction. -/
def stripped? (line : Nat) : Option String := r.lines[line]?.map Line.instructionText

def lineOf (a : Address) : Option Nat := r.index.firstLineOf a

def addressOf (line : Nat) : Option Address := r.index.addressOf line

def enclosingAddress (line : Nat) : Option Address := (r.index.enclosing line).map (·.2)

def printToken (palette : Palette) (t : Token) : List Char :=
  (if r.color then palette.paint t.style t.bold t.text else t.text).toList

def printLine (palette : Palette) (l : Line) : List Char := l.tokens.flatMap (r.printToken palette) ++ ['\n']

/-- All lines, each ended by a line feed. -/
def print (palette : Palette) : String := String.ofList (r.lines.flatMap (r.printLine palette))

end Rendering

def Listing.finish (l : Listing) (color : Bool) : Except Failure Rendering :=
  Rendering.ofBuffer { page := l.page } l.index color

end AsmListing
