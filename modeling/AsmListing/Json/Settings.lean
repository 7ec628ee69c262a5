/-
  AsmListing.Json.Settings — settings read from JSON. Fields that are left out keep
  their defaults, members that are no field are ignored; settings that cannot be used
  are refused once all of them are read.
-/

import AsmListing.Scene.Settings
import AsmListing.Json.Codec
import AsmListing.Json.Reader

namespace AsmListing

open Json

namespace Settings

/-- The fields in their JSON order. -/
def keys : List String :=
  ["show_bytes", "comments", "color", "max_data_size", "hex_immediates", "section_prefix", "print_labels",
    "label_own_line", "indent_width"]

/-- Settings from the fields that are there. -/
def ofFields? : List (Option Json) → Option Settings
  | [showBytes, comments, color, maxDataSize, hexImmediates, sectionTag, printLabels, labelOwnLine, indentWidth] => do
    let d : Settings := {}
    return {
      showBytes := ← defaulted? d.showBytes showBytes
      comments := ← defaulted? d.comments comments
      color := ← defaulted? d.color color
      maxDataSize := ← defaulted? d.maxDataSize maxDataSize
      hexImmediates := ← defaulted? d.hexImmediates hexImmediates
      sectionTag := ← defaulted? d.sectionTag sectionTag
      printLabels := ← defaulted? d.printLabels printLabels
      labelOwnLine := ← defaulted? d.labelOwnLine labelOwnLine
      indentWidth := ← defaulted? d.indentWidth indentWidth }
  | _ => none

instance : JsonCodec Settings where
  encode s :=
    record (keys.zip [encode s.showBytes, encode s.comments, encode s.color, encode s.maxDataSize,
      encode s.hexImmediates, encode s.sectionTag, encode s.printLabels, encode s.labelOwnLine,
      encode s.indentWidth])
  decode? j := (fields? keys true j).bind ofFields?

inductive LoadError where
  /-- There is no such file, or its bytes are no text. -/
  | unreadable
  | malformed
  | invalid (fault : Fault)
  deriving DecidableEq, Repr

def ofText (text : String) : Except LoadError Settings :=
  match (parse? text).bind decode? with
  | none => .error .malformed
  | some (s : Settings) =>
    match s.validate with
    | .ok () => .ok s
    | .error fault => .error (.invalid fault)

/-- From the bytes of a file, `none` for one that does not exist. -/
def ofFile (bytes : Option ByteArray) : Except LoadError Settings :=
  match bytes.bind String.fromUTF8? with
  | some text => ofText text
  | none => .error .unreadable

end Settings

end AsmListing
