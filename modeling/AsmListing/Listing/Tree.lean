/-
  AsmListing.Listing.Tree — the control flow of a function as a tree, and the lines it
  is written as. Each body of an `if` is one level deeper than its header. Which steps
  the writing takes, and at which levels, is decided by the tree and by whether comments
  are on: the visits of instructions, the echoes of merged pairs where comments are on,
  and the opening and closing lines of each `if`.
-/

import AsmListing.Listing.Visit

namespace AsmListing

inductive Tree where
  | block (instructions : List Instruction)
  | seq (parts : List Tree)
  /-- A conditional jump with the instruction merged into it, and what it guards. -/
  | cond (jump : Instruction) (fused : Option Instruction) (body : Tree)
  /-- A part that nobody can write down. -/
  | unwritable
  deriving Inhabited

/-! ## Steps -/

inductive Step where
  /-- An instruction of a block. -/
  | visit (i : Instruction) (level : Nat)
  /-- One part of a merged pair, as a comment. -/
  | echo (i : Instruction) (level : Nat)
  /-- The header of an `if`, without the echoes above it. -/
  | openCond (jump : Instruction) (fused : Option Instruction) (level : Nat)
  | closeCond (level : Nat)
  | unwritable
  deriving DecidableEq, Repr

namespace Tree

mutual

def steps (comments : Bool) (level : Nat) : Tree → List Step
  | .block instructions => instructions.map (.visit · level)
  | .seq parts => stepsAll comments level parts
  | .cond jump fused body =>
    (if comments then (fused.toList ++ [jump]).map (.echo · level) else []) ++ [.openCond jump fused level] ++
      steps comments (level + 1) body ++ [.closeCond level]
  | .unwritable => [.unwritable]

def stepsAll (comments : Bool) (level : Nat) : List Tree → List Step
  | [] => []
  | t :: rest => steps comments level t ++ stepsAll comments level rest

end

end Tree

/-! ## Writing -/

namespace Pass

variable (p : Pass)

/-- The header of an `if`: its jump and merged instruction echoed, then the condition. -/
def openCond (jump : Instruction) (fused : Option Instruction) (level : Nat) (l : Listing) : Outcome Unit :=
  let l := p.echoMerged (some jump) fused level none l
  (p.printCondition jump fused (l.put (p.indent level ++ [p.styled .keyword "if "]))).andThen fun _ l =>
    .done (l.putLine [.plain " \x7b"])

mutual

def write (level : Nat) : Tree → Listing → Outcome Unit
  | .block instructions, l => p.visitAll level none instructions l
  | .seq parts, l => writeAll level parts l
  | .cond jump fused body, l =>
    (p.openCond jump fused level l).andThen fun _ l =>
      (write (level + 1) body l).andThen fun _ l =>
        .done (l.putLine (p.indent level ++ [.plain "\x7d"]))
  | .unwritable, l => ⟨l, .error (.missing .dump)⟩

/-- The parts in order, up to the first that fails. -/
def writeAll (level : Nat) : List Tree → Listing → Outcome Unit
  | [], l => .done l
  | t :: rest, l => (write level t l).andThen fun _ l => writeAll level rest l

end

end Pass

end AsmListing
