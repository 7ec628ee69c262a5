/-
  AsmListing.Page.Buffer — a page that can be closed. `join` flattens every line to its
  text and gives a boundary to the lines without a mark; it succeeds once. A joined
  buffer refuses new lines, tokens and any padding that would add blanks; it still takes
  marks.
-/

import AsmListing.Page.Basic

namespace AsmListing

structure Buffer where
  page : Page := {}
  /-- The text of each line, once the buffer is joined. -/
  joined : Option (List String) := none
  deriving DecidableEq, Repr

namespace Buffer

inductive Fault where
  /-- Text was added to a joined buffer. -/
  | frozen
  | alreadyJoined
  deriving DecidableEq, Repr

def Fault.message : Fault → String
  | .frozen => "line buffer mutated after join"
  | .alreadyJoined => "Line buffer already joined"

inductive Edit where
  | newLine
  | push (t : Token)
  | padTo (column : Nat)
  | mark
  | join
  deriving DecidableEq, Repr

def isJoined (b : Buffer) : Bool := b.joined.isSome

def texts (p : Page) : List String := p.lines.map Line.text

/-- Applies `f` to the page of an open buffer. -/
def write (b : Buffer) (f : Page → Page) : Except Fault Buffer :=
  if b.isJoined then .error .frozen else .ok { b with page := f b.page }

def join (b : Buffer) : Except Fault Buffer :=
  if b.isJoined then .error .alreadyJoined else .ok { b with joined := some (texts b.page) }

def apply (b : Buffer) : Edit → Except Fault Buffer
  | .newLine => b.write .newLine
  | .push t => b.write (·.push t)
  | .padTo column => if b.page.cursor < column then b.write (·.padTo column) else .ok b
  | .mark => .ok { b with page := b.page.mark }
  | .join => b.join

/-- An open buffer knows the marked lines only, a joined one the boundary of every line. -/
def boundary? (b : Buffer) (i : Nat) : Option Boundary :=
  (b.page.line? i).bind fun l => if b.isJoined then some l.boundary else l.mark

end Buffer

end AsmListing
