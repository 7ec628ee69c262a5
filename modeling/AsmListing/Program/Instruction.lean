/-
  AsmListing.Program.Instruction — a decoded instruction as a listing receives it.
-/

import AsmListing.Program.Address

namespace AsmListing

inductive Operand where
  | register (name : String)
  | immediate (value : Int64) (size : UInt64)
  | memory (base index : Option String) (scale : UInt8) (disp : Int64)
  deriving DecidableEq, Repr

inductive Category where
  | plain
  | compare
  | jump
  | conditionalJump
  | call
  | ret
  deriving DecidableEq, Repr

structure Instruction where
  address : Address
  mnemonic : String
  /-- The decoder's own text of the operands. -/
  operandText : String := ""
  operands : List Operand := []
  bytes : List UInt8 := []
  category : Category := .plain
  /-- The instruction merged into this one's line, such as the compare of a jump. -/
  fused : Option Address := none
  deriving DecidableEq, Repr

namespace Category

/-- Control goes to the operand: a jump or a call. -/
def isBranch : Category → Bool
  | .jump | .conditionalJump | .call => true
  | _ => false

/-- Control leaves for, or comes back from, another function. -/
def isTransfer : Category → Bool
  | .call | .ret => true
  | _ => false

end Category

namespace Instruction

/-- The decoder's own text: the mnemonic, and its operand text unless there is nothing
    to show. An instruction with operands keeps the blank even when that text is empty. -/
def text (i : Instruction) : String :=
  if i.operands.isEmpty && i.operandText.isEmpty then i.mnemonic else i.mnemonic ++ " " ++ i.operandText

end Instruction

end AsmListing
