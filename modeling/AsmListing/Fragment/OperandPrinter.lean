/-
  AsmListing.Fragment.OperandPrinter — the text of mnemonics and operands, which depends
  on the architecture. Each hook answers the tokens to append to the line; one that
  nobody supplied fails. `generic` writes `mnemonic op, op` for any architecture.
-/

import AsmListing.Fragment.Immediate
import AsmListing.Program.Instruction

namespace AsmListing

structure OperandPrinter where
  /-- Mnemonic and operands; true when the text differs from the decoder's own. -/
  instruction? : Option (Scene → Instruction → Nat → List Token × Bool) := none
  /-- The operand of a number, in hexadecimal or not, with or without brackets around memory. -/
  operand? : Option (Scene → Instruction → Nat → Bool → Bool → List Token × Bool) := none
  /-- The condition of a conditional jump and the instruction merged into it. -/
  condition? : Option (Scene → Instruction → Option Instruction → List Token) := none

namespace OperandPrinter

/-- Supplies no hook. -/
def bare : OperandPrinter := {}

/-! ## Any architecture -/

/-- The address of a memory operand: base, scaled index and displacement. -/
def memoryText (base index : Option String) (scale : UInt8) (disp : Int64) : String :=
  let scaled := index.map fun i => if 1 < scale then i ++ "*" ++ Numeral.decimal scale.toNat else i
  let registers := " + ".intercalate (base.toList ++ scaled.toList)
  if registers = "" then String.ofList (Numeral.marked disp.toUInt64.toNat)
  else if disp = 0 then registers
  else if disp < 0 then registers ++ " - " ++ String.ofList (Numeral.marked disp.toInt.natAbs)
  else registers ++ " + " ++ String.ofList (Numeral.marked disp.toInt.natAbs)

/-- The declared variable that a memory operand stands for: one on the stack, behind a
    base register alone. -/
def stackVariable? (s : Scene) (base index : Option String) (disp : Int64) : Option String :=
  if index.isNone && base.isSome then s.context.variableAt disp else none

def genericOperand (s : Scene) (i : Instruction) (n : Nat) (hexa brackets : Bool) : List Token × Bool :=
  match i.operands[n]? with
  | none => ([], false)
  | some (.register name) => ([.plain name], false)
  | some (.immediate v size) =>
    ((s.immediate v size none { hexa, isTarget := i.category.isBranch }).1, false)
  | some (.memory base index scale disp) =>
    match stackVariable? s base index disp with
    | some name => ([s.styled .variableName name], true)
    | none =>
      let text := memoryText base index scale disp
      ([.plain (if brackets then "[" ++ text ++ "]" else text)], false)

/-- What each operand is written as, in order. -/
def genericOperands (s : Scene) (i : Instruction) : List (List Token × Bool) :=
  (List.range i.operands.length).map fun n => genericOperand s i n false true

def mnemonic (s : Scene) (i : Instruction) : Token :=
  if i.category.isTransfer then s.styled .transfer i.mnemonic else .plain i.mnemonic

def genericInstruction (s : Scene) (i : Instruction) (_ : Nat) : List Token × Bool :=
  if i.operands.isEmpty then
    (mnemonic s i :: if i.operandText.isEmpty then [] else [.plain " ", .plain i.operandText], false)
  else
    let ops := genericOperands s i
    let modified := ops.any (·.2)
    (mnemonic s i :: .plain " " :: List.intercalate [.plain ", "] (ops.map (·.1)) ++
      if modified && s.settings.comments then [s.styled .comment (" # " ++ i.text)] else [], modified)

def genericCondition (s : Scene) (jump : Instruction) (fused : Option Instruction) : List Token :=
  [s.styled .keyword jump.mnemonic, .plain "("] ++ (fused.map fun f => .plain f.text).toList ++ [.plain ")"]

def generic : OperandPrinter where
  instruction? := some genericInstruction
  operand? := some genericOperand
  condition? := some genericCondition

end OperandPrinter

end AsmListing
