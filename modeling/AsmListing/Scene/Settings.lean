/-
  AsmListing.Scene.Settings — what a listing shows and how it is laid out.
-/

namespace AsmListing

structure Settings where
  /-- Raw bytes in front of each instruction. -/
  showBytes : Bool := false
  /-- Merged instructions are echoed as comments. -/
  comments : Bool := true
  color : Bool := true
  /-- Longest preview of a string, in characters. -/
  maxDataSize : UInt64 := 30
  hexImmediates : Bool := false
  /-- The name of the section in front of each address. -/
  sectionTag : Bool := false
  printLabels : Bool := true
  /-- A label gets a line of its own, above its instruction. -/
  labelOwnLine : Bool := false
  /-- Blanks for each level of nesting. -/
  indentWidth : UInt64 := 4
  deriving DecidableEq, Repr

namespace Settings

/-- A setting with a value that cannot be used. -/
inductive Fault where
  | noPreview
  | noIndent
  deriving DecidableEq, Repr

def Fault.message : Fault → String
  | .noPreview => "Invalid configuration: max_data_size must be greater than 0"
  | .noIndent => "Invalid configuration: indent_width must be greater than 0"

def validate (s : Settings) : Except Fault Unit :=
  if s.maxDataSize = 0 then .error .noPreview
  else if s.indentWidth = 0 then .error .noIndent
  else .ok ()

end Settings

end AsmListing
