/-
  AsmListing.Page.Line — one line of a listing: styled tokens, and where its instruction
  ends. A line can be marked with the end of its instruction at any moment; the last
  mark counts. A line without a mark counts as an instruction part throughout, ending
  one column past its last character.
-/

import AsmListing.Style.Basic

namespace AsmListing

structure Token where
  text : String
  style : Style
  bold : Bool
  deriving DecidableEq, Repr

namespace Token

def plain (text : String) : Token := ⟨text, .plain, false⟩

/-- A plain token of `n` blanks. -/
def spaces (n : Nat) : Token := plain (String.ofList (List.replicate n ' '))

/-- Columns taken: one for each character. -/
def width (t : Token) : Nat := t.text.length

/-- Columns taken by tokens one behind the other. -/
def totalWidth : List Token → Nat
  | [] => 0
  | t :: ts => t.width + totalWidth ts

theorem totalWidth_append (ts us : List Token) : totalWidth (ts ++ us) = totalWidth ts + totalWidth us := by
  induction ts with
  | nil => simp [totalWidth]
  | cons t ts ih => simp only [List.cons_append, totalWidth, ih]; omega

end Token

/-- The end of a line's instruction part, in front of any comment behind it. -/
structure Boundary where
  column : Nat
  /-- How many tokens belong to the instruction part. -/
  tokens : Nat
  deriving DecidableEq, Repr

structure Line where
  tokens : List Token := []
  mark : Option Boundary := none
  deriving DecidableEq, Repr

namespace Line

/-- The line with more tokens behind those it has. -/
def extend (l : Line) (ts : List Token) : Line := { l with tokens := l.tokens ++ ts }

def text (l : Line) : String := String.ofList (l.tokens.flatMap (·.text.toList))

def width (l : Line) : Nat := Token.totalWidth l.tokens

def isBlank (l : Line) : Bool := l.tokens.isEmpty

/-- Ends the instruction part here. -/
def markHere (l : Line) : Line := { l with mark := some ⟨l.width, l.tokens.length⟩ }

def boundary (l : Line) : Boundary := l.mark.getD ⟨l.width + 1, l.tokens.length⟩

/-- The text up to the boundary: the line without the comments behind its instruction. -/
def instructionText (l : Line) : String := String.ofList (l.text.toList.take l.boundary.column)

@[simp] theorem extend_nil (l : Line) : l.extend [] = l := by simp [extend]

theorem extend_extend (l : Line) (ts us : List Token) : (l.extend ts).extend us = l.extend (ts ++ us) := by
  simp [extend]

theorem width_extend (l : Line) (ts : List Token) : (l.extend ts).width = l.width + Token.totalWidth ts :=
  Token.totalWidth_append _ _

end Line

end AsmListing
