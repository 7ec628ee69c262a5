/-
  AsmListing.Json.Model — the JSON forms of what a listing is made from and made of.
-/

import AsmListing.Program.Binary
import AsmListing.Program.Analysis
import AsmListing.Program.Instruction
import AsmListing.Page.Line
import AsmListing.Json.Codec

namespace AsmListing

open Json

/-! ## Names -/

def MemoryKind.all : List MemoryKind := [.function, .code, .unknown, .data, .unmapped]

def MemoryKind.name : MemoryKind → String
  | .function => "Function"
  | .code => "Code"
  | .unknown => "Unknown"
  | .data => "Data"
  | .unmapped => "Unmapped"

def BinaryKind.all : List BinaryKind := [.raw, .elf, .pe, .machO, .unknown]

def BinaryKind.name : BinaryKind → String
  | .raw => "Raw"
  | .elf => "Elf"
  | .pe => "Pe"
  | .machO => "MachO"
  | .unknown => "Unknown"

def Category.all : List Category := [.plain, .compare, .jump, .conditionalJump, .call, .ret]

def Category.name : Category → String
  | .plain => "Plain"
  | .compare => "Compare"
  | .jump => "Jump"
  | .conditionalJump => "ConditionalJump"
  | .call => "Call"
  | .ret => "Return"

/-- The name of a style in JSON. -/
def Style.key : Style → String
  | .plain => "Default"
  | .address => "Address"
  | .codeAddress => "CodeAddress"
  | .symbol => "Symbol"
  | .unknown => "Unknown"
  | .typeName => "Type"
  | .variableName => "Variable"
  | .keyword => "Keyword"
  | .string => "String"
  | .sectionName => "Section"
  | .comment => "Comment"
  | .internalComment => "InternalComment"
  | .userComment => "UserComment"
  | .transfer => "RetCall"
  | .highlight => "Highlight"

instance : JsonCodec MemoryKind := ⟨fun k => .string (some k.name), named? MemoryKind.all MemoryKind.name⟩

instance : JsonCodec BinaryKind := ⟨fun k => .string (some k.name), named? BinaryKind.all BinaryKind.name⟩

instance : JsonCodec Category := ⟨fun k => .string (some k.name), named? Category.all Category.name⟩

instance : JsonCodec Style := ⟨fun s => .string (some s.key), named? Style.all Style.key⟩

/-! ## Records -/

instance : JsonCodec Address where
  encode a := record [("value", encode a.value)]
  decode? j :=
    match fields? ["value"] false j with
    | some [value] => do return ⟨← required? value⟩
    | _ => none

instance : JsonCodec Section where
  encode s :=
    record [("name", encode s.name), ("start", encode s.start), ("end", encode s.stop), ("is_data", encode s.isData)]
  decode? j :=
    match fields? ["name", "start", "end", "is_data"] false j with
    | some [name, start, stop, isData] => do
      return ⟨← required? name, ← required? start, ← required? stop, ← required? isData⟩
    | _ => none

instance : JsonCodec Token where
  encode t := record [("text", encode t.text), ("style", encode t.style), ("bold", encode t.bold)]
  decode? j :=
    match fields? ["text", "style", "bold"] false j with
    | some [text, style, bold] => do return ⟨← required? text, ← required? style, ← required? bold⟩
    | _ => none

instance : JsonCodec Boundary where
  encode b := record [("char_offset", encode b.column), ("token_index", encode b.tokens)]
  decode? j :=
    match fields? ["char_offset", "token_index"] false j with
    | some [column, tokens] => do return ⟨← required? column, ← required? tokens⟩
    | _ => none

/-- The content of an operand by the name of its variant. -/
def Operand.decodeAs? (name : String) (content : Json) : Option Operand :=
  if name = "Register" then (decode? content).map .register
  else if name = "Immediate" then
    match fields? ["value", "size"] false content with
    | some [value, size] => do return .immediate (← required? value) (← required? size)
    | _ => none
  else if name = "Memory" then
    match fields? ["base", "index", "scale", "disp"] false content with
    | some [base, index, scale, disp] => do
      return .memory (← optional? base) (← optional? index) (← required? scale) (← required? disp)
    | _ => none
  else none

instance : JsonCodec Operand where
  encode
    | .register name => variant "Register" (encode name)
    | .immediate value size => variant "Immediate" (record [("value", encode value), ("size", encode size)])
    | .memory base index scale disp =>
      variant "Memory"
        (record [("base", encode base), ("index", encode index), ("scale", encode scale), ("disp", encode disp)])
  decode? j := (variant? j).bind fun v => Operand.decodeAs? v.1 v.2

instance : JsonCodec Instruction where
  encode i :=
    record [("address", encode i.address), ("mnemonic", encode i.mnemonic), ("op_str", encode i.operandText),
      ("operands", encode i.operands), ("bytes", encode i.bytes), ("category", encode i.category),
      ("fused", encode i.fused)]
  decode? j :=
    match fields? ["address", "mnemonic", "op_str", "operands", "bytes", "category", "fused"] false j with
    | some [address, mnemonic, operandText, operands, bytes, category, fused] => do
      return {
        address := ← required? address
        mnemonic := ← required? mnemonic
        operandText := ← required? operandText
        operands := ← required? operands
        bytes := ← required? bytes
        category := ← required? category
        fused := ← optional? fused }
    | _ => none

end AsmListing
