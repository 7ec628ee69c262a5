/-
  AsmListing.Json.Writer — the compact text of a JSON value: no blanks, members in
  order, and only those characters of a string escaped that have to be.
-/

import AsmListing.Json.Value
import AsmListing.Text.Numeral

namespace AsmListing.Json

/-- Quote, backslash and the codes below a blank; the short escape where there is one. -/
def escapeChar (c : Char) : List Char :=
  match c with
  | '"' => ['\\', '"']
  | '\\' => ['\\', '\\']
  | '\n' => ['\\', 'n']
  | '\r' => ['\\', 'r']
  | '\t' => ['\\', 't']
  | '\x08' => ['\\', 'b']
  | '\x0c' => ['\\', 'f']
  | c =>
    if c.toNat < 0x20 then '\\' :: 'u' :: Numeral.padZero 4 (Numeral.hexDigits c.toNat) else [c]

/-- Text between quotes. What cannot be text is written as an escape that cannot be text. -/
def quote : Option String → List Char
  | some s => '"' :: s.toList.flatMap escapeChar ++ ['"']
  | none => "\"\\ud800\"".toList

mutual

def write : Json → List Char
  | .null => "null".toList
  | .bool true => "true".toList
  | .bool false => "false".toList
  | .integer n => Numeral.signed Numeral.decimalDigits n
  | .real digits => digits.toList
  | .string s => quote s
  | .array items => '[' :: writeItems items ++ [']']
  | .object members => '\x7b' :: writeMembers members ++ ['\x7d']

def writeItems : List Json → List Char
  | [] => []
  | [j] => write j
  | j :: rest => write j ++ ',' :: writeItems rest

def writeMembers : List (Option String × Json) → List Char
  | [] => []
  | [(k, j)] => quote k ++ ':' :: write j
  | (k, j) :: rest => quote k ++ ':' :: write j ++ ',' :: writeMembers rest

end

def text (j : Json) : String := String.ofList j.write

end AsmListing.Json
