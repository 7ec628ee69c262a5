/-
  AsmListing.Listing.Machine — functions listed on a machine. Its numbers are words, and
  its texts have a greatest length. Two things are made from numbers alone and can be out
  of its reach: the blanks of a level, and the size of a variable in bits. What cannot be
  made stops everything, with a panic and without a result, at the place that needs it,
  unless a hook is missing before. All other texts are put together from texts that the
  machine holds already; whether its memory goes that far is not asked.
-/

import AsmListing.Listing.Function

namespace AsmListing

/-! ## Words and texts -/

inductive Panic where
  /-- A product is no word. -/
  | overflow
  /-- A text is too long to be one. -/
  | capacity
  deriving DecidableEq, Repr

def Panic.message : Panic → String
  | .overflow => "attempt to multiply with overflow"
  | .capacity => "capacity overflow"

/-- What a build makes of a product that is no word. -/
inductive Arithmetic where
  | checked
  /-- The word that is left of it. -/
  | wrapping
  deriving DecidableEq, Repr

def Arithmetic.product (m : Arithmetic) (a b : UInt64) : Except Panic UInt64 :=
  if m = .checked ∧ UInt64.size ≤ a.toNat * b.toNat then .error .overflow else .ok (a * b)

/-- The greatest number of bytes in a text. -/
def longestText : Nat := 0x7fffffffffffffff

/-- As many blanks as a text. -/
def makeBlanks (count : UInt64) : Except Panic Unit :=
  if longestText < count.toNat then .error .capacity else .ok ()

/-! ## What a function needs -/

inductive Need where
  | blanks (level : Nat)
  /-- The size of a variable, in bits. -/
  | bits (size : UInt64)
  | hook (hook : Hook)
  deriving DecidableEq, Repr

/-- Nobody supplies the writing of a part that cannot be written. -/
def OperandPrinter.supplies (o : OperandPrinter) : Hook → Bool
  | .instruction => o.instruction?.isSome
  | .operand => o.operand?.isSome
  | .condition => o.condition?.isSome
  | .dump => false

def Scene.hasCommentsAbove (s : Scene) (i : Instruction) : Bool :=
  !(s.analysis.internalAbove i.address ++ s.analysis.userAbove i.address).isEmpty

namespace Pass

variable (p : Pass)

/-- What a step needs, in order. Of all that it writes at a level, the blanks come first. -/
def stepNeeds : Step → List Need
  | .visit i level =>
    if p.context.isFused i.address then
      if p.hasCommentsAbove i then [.blanks level] else []
    else [.blanks level, .hook .instruction]
  | .echo _ level | .closeCond level => [.blanks level]
  | .openCond _ _ level => [.blanks level, .hook .condition]
  | .unwritable => [.hook .dump]

/-- What the lines of the variables need, and what the tree does. -/
def needs (tree : Tree) : List Need :=
  (p.context.locals.flatMap fun v => [.blanks 1, .bits v.size]) ++
    (tree.steps p.settings.comments 1).flatMap p.stepNeeds

def supplied : Need → Bool
  | .hook hook => p.operands.supplies hook
  | .blanks _ | .bits _ => true

/-- The needs that are reached: those before the first hook that nobody supplies. -/
def reached (tree : Tree) : List Need := (p.needs tree).takeWhile p.supplied

def meet (m : Arithmetic) : Need → Except Panic Unit
  | .blanks level =>
    if level = 0 then .ok () else (m.product level.toUInt64 p.settings.indentWidth).bind makeBlanks
  | .bits size => (m.product size 8).map fun _ => ()
  | .hook _ => .ok ()

/-- The needs in order, up to the first that cannot be met. -/
def meetAll (m : Arithmetic) : List Need → Except Panic Unit
  | [] => .ok ()
  | n :: rest => (p.meet m n).bind fun _ => meetAll m rest

/-! ## Functions -/

/-- The function at `entry`, as a build with this arithmetic lists it. -/
def render (m : Arithmetic) (entry : Address) (tree : Tree) : Except Panic (Except Failure Rendering) :=
  match p.settings.validate with
  | .error fault => .ok (.error (.settings fault))
  | .ok () => (p.meetAll m (p.reached tree)).map fun _ => p.function entry tree

end Pass

/-- A function to list, with the context of its own listing. -/
structure Job where
  context : Context
  tree : Tree

/-- Lists every job on its own, in order, over one binary and one analysis. A panic in one
    of them is the end of all. -/
def listAll (m : Arithmetic) (jobs : List Job) (binary : Binary) (analysis : Analysis) (operands : OperandPrinter)
    (palette : Palette) : Except Panic (List (Except Failure Rendering)) :=
  jobs.mapM fun job =>
    Pass.render { context := job.context, binary, analysis, palette, operands } m job.context.entry job.tree

end AsmListing
