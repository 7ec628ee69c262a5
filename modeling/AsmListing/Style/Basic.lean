/-
  AsmListing.Style.Basic — what a piece of a line is, apart from how it looks.
-/

namespace AsmListing

inductive Style where
  | plain
  | address
  | codeAddress
  | symbol
  | unknown
  | typeName
  | variableName
  | keyword
  | string
  | sectionName
  | comment
  | internalComment
  | userComment
  /-- Mnemonics that leave for, or return from, another function. -/
  | transfer
  /-- Only given as the override of an address, such as the target of a jump. -/
  | highlight
  deriving DecidableEq, Repr

namespace Style

def all : List Style :=
  [plain, address, codeAddress, symbol, unknown, typeName, variableName, keyword, string, sectionName,
    comment, internalComment, userComment, transfer, highlight]

/-- The name by which palettes and listings are described. -/
def name : Style → String
  | plain => "default"
  | address => "address"
  | codeAddress => "code_address"
  | symbol => "symbol"
  | unknown => "unknown"
  | typeName => "type"
  | variableName => "variable"
  | keyword => "keyword"
  | string => "string"
  | sectionName => "section"
  | comment => "comment"
  | internalComment => "internal_comment"
  | userComment => "user_comment"
  | transfer => "retcall"
  | highlight => "highlight"

end Style

end AsmListing
