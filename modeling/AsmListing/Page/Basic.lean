/-
  AsmListing.Page.Basic — the lines written so far. Writing only appends: a token goes
  to the end of the current line, which is the newest, and a first line is started when
  there is none. `lines` is the view in reading order.
-/

import AsmListing.Page.Line

namespace AsmListing

structure Page where
  /-- The current line first. -/
  newest : List Line := []
  deriving DecidableEq, Repr

namespace Page

def lines (p : Page) : List Line := p.newest.reverse

def lineCount (p : Page) : Nat := p.newest.length

def line? (p : Page) (i : Nat) : Option Line := p.lines[i]?

/-- The number of the current line. -/
def current? (p : Page) : Option Nat := if p.lineCount = 0 then none else some (p.lineCount - 1)

/-- The column at which the next token starts. -/
def cursor (p : Page) : Nat := (p.newest.head?.map Line.width).getD 0

/-- The last two lines hold no token; so it is too with fewer than two lines. -/
def endsBlank (p : Page) : Bool :=
  match p.newest with
  | last :: before :: _ => before.isBlank && last.isBlank
  | _ => true

def newLine (p : Page) : Page := ⟨{} :: p.newest⟩

def push (p : Page) (t : Token) : Page :=
  match p.newest with
  | [] => ⟨[Line.extend {} [t]]⟩
  | l :: above => ⟨l.extend [t] :: above⟩

def append (p : Page) (ts : List Token) : Page := ts.foldl push p

/-- Blanks up to `column`, or nothing when the line is that wide already. -/
def padTo (p : Page) (column : Nat) : Page :=
  if p.cursor < column then p.push (.spaces (column - p.cursor)) else p

/-- Ends the instruction part of the current line here. -/
def mark (p : Page) : Page :=
  match p.newest with
  | [] => p
  | l :: above => ⟨l.markHere :: above⟩

@[simp] theorem append_nil (p : Page) : p.append [] = p := rfl

theorem append_append (p : Page) (ts us : List Token) : (p.append ts).append us = p.append (ts ++ us) := by
  simp [append]

/-- With a current line, appending changes that line alone. -/
theorem append_current (l : Line) (above : List Line) (ts : List Token) :
    (Page.mk (l :: above)).append ts = ⟨l.extend ts :: above⟩ := by
  induction ts generalizing l with
  | nil => simp
  | cons t ts ih =>
    have : (Page.mk (l :: above)).append (t :: ts) = (Page.mk (l.extend [t] :: above)).append ts := rfl
    rw [this, ih, Line.extend_extend, List.singleton_append]

theorem lines_newLine (p : Page) : p.newLine.lines = p.lines ++ [({} : Line)] := by simp [lines, newLine]

theorem lineCount_eq (p : Page) : p.lineCount = p.lines.length := by simp [lineCount, lines]

end Page

end AsmListing
