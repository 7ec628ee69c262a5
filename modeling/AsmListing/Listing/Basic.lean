/-
  AsmListing.Listing.Basic — a listing while it is written: its page and the index of
  its lines. Every step appends; none takes back what an earlier one wrote. `Outcome` is
  what a step that can fail leaves behind: the listing as far as it came, and the
  result.
-/

import AsmListing.Page.LineIndex
import AsmListing.Listing.Failure

namespace AsmListing

structure Listing where
  page : Page := {}
  index : LineIndex := {}

namespace Listing

def put (l : Listing) (ts : List Token) : Listing := { l with page := l.page.append ts }

def newLine (l : Listing) : Listing := { l with page := l.page.newLine }

def padTo (l : Listing) (column : Nat) : Listing := { l with page := l.page.padTo column }

/-- Ends the instruction part of the current line here. -/
def mark (l : Listing) : Listing := { l with page := l.page.mark }

/-- Records `a` for the current line, starting a first line if there is none. -/
def tag (l : Listing) (a : Address) : Listing :=
  let page := if l.page.lineCount = 0 then l.page.newLine else l.page
  { page, index := l.index.record a (page.lineCount - 1) }

@[simp] theorem put_nil (l : Listing) : l.put [] = l := rfl

theorem put_put (l : Listing) (ts us : List Token) : (l.put ts).put us = l.put (ts ++ us) := by
  simp [put, Page.append_append]

/-- One line of these tokens, and a fresh line below it. -/
def putLine (l : Listing) (ts : List Token) : Listing := (l.put ts).newLine

end Listing

structure Outcome (α : Type) where
  listing : Listing
  result : Except Failure α

namespace Outcome

def done (l : Listing) : Outcome Unit := ⟨l, .ok ()⟩

/-- Goes on from where `o` stopped, unless it failed. -/
def andThen {α β : Type} (o : Outcome α) (next : α → Listing → Outcome β) : Outcome β :=
  match o.result with
  | .ok a => next a o.listing
  | .error e => ⟨o.listing, .error e⟩

@[simp] theorem done_andThen {β : Type} (l : Listing) (next : Unit → Listing → Outcome β) :
    (done l).andThen next = next () l := rfl

end Outcome

end AsmListing
