/-
  AsmListing.Program.Analysis — what is known about addresses: the kind of memory,
  references, function attributes and stored comments. `Analysis` is the view a listing
  works with; `Findings` holds the same as tables, and `Findings.view` is its view.
-/

import AsmListing.Program.Address
import AsmListing.Table

namespace AsmListing

inductive MemoryKind where
  | function
  | code
  | unknown
  | data
  /-- Nothing is recorded for the address. -/
  | unmapped
  deriving DecidableEq, Repr

def MemoryKind.isFunction : MemoryKind → Bool
  | .function => true
  | _ => false

structure FunctionAttributes where
  bits : UInt32
  deriving DecidableEq, Repr

namespace FunctionAttributes

/-- The function never returns to its caller. -/
def noreturn : FunctionAttributes := ⟨1⟩

def contains (f g : FunctionAttributes) : Bool := f.bits &&& g.bits == g.bits

end FunctionAttributes

structure Analysis where
  kindOf : Address → MemoryKind
  isReferenced : Address → Bool
  flags : Address → Option FunctionAttributes
  /-- Comments shown above an instruction. -/
  internalAbove : Address → List String
  userAbove : Address → List String
  /-- Comments shown behind an instruction. -/
  internalBeside : Address → Option String
  userBeside : Address → Option String

def Analysis.isNoreturn (d : Analysis) (a : Address) : Bool :=
  (d.flags a).any (·.contains .noreturn)

structure Findings where
  defaultKind : MemoryKind := .data
  kinds : Table Address MemoryKind := {}
  references : List Address := []
  flags : Table Address FunctionAttributes := {}
  internalAbove : Table Address String := {}
  userAbove : Table Address String := {}
  internalBeside : Table Address String := {}
  userBeside : Table Address String := {}

def Findings.view (f : Findings) : Analysis where
  kindOf a := (f.kinds.find? a).getD f.defaultKind
  isReferenced := f.references.contains
  flags := f.flags.find?
  internalAbove := f.internalAbove.all
  userAbove := f.userAbove.all
  internalBeside := f.internalBeside.find?
  userBeside := f.userBeside.find?

end AsmListing
