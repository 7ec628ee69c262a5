/-
  AsmListing.Page.LineIndex — lines and addresses of a listing, for navigation both
  ways. A line keeps the address recorded for it last; an address keeps the least line
  it was ever recorded for.
-/

import AsmListing.Program.Address
import AsmListing.Table

namespace AsmListing

structure LineIndex where
  /-- Tagged lines with their addresses, the greatest line first. -/
  tags : List (Nat × Address) := []
  firstLines : Table Address Nat := {}
  deriving Repr

namespace LineIndex

/-- Puts a line at its place among tags sorted from the greatest line down. -/
def place (line : Nat) (a : Address) : List (Nat × Address) → List (Nat × Address)
  | [] => [(line, a)]
  | (l, b) :: below =>
    if l < line then (line, a) :: (l, b) :: below
    else if l = line then (line, a) :: below
    else (l, b) :: place line a below

def firstLineOf (ix : LineIndex) (a : Address) : Option Nat := ix.firstLines.find? a

def addressOf (ix : LineIndex) (line : Nat) : Option Address := ix.tags.lookup line

def record (ix : LineIndex) (a : Address) (line : Nat) : LineIndex where
  tags := place line a ix.tags
  firstLines := ix.firstLines.insert a (((ix.firstLineOf a).map (min line)).getD line)

/-- The closest tagged line at or above `line`, with its address. -/
def enclosing (ix : LineIndex) (line : Nat) : Option (Nat × Address) := ix.tags.find? (·.1 ≤ line)

def contains (ix : LineIndex) (a : Address) : Bool := ix.firstLines.contains a

def size (ix : LineIndex) : Nat := ix.tags.length

/-- The tagged lines in increasing order. -/
def lines (ix : LineIndex) : List (Nat × Address) := ix.tags.reverse

end LineIndex

end AsmListing
