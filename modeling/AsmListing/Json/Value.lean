/-
  AsmListing.Json.Value — JSON as it is written: members in order, repeated keys kept,
  and a number that is no integer as the characters it was written with. A string is
  `none` when it names half of a surrogate pair, which no text can hold.
-/

namespace AsmListing

inductive Json where
  | null
  | bool (b : Bool)
  | integer (n : Int)
  /-- A number with a fraction or an exponent, or a negative zero. -/
  | real (digits : String)
  | string (s : Option String)
  | array (items : List Json)
  | object (members : List (Option String × Json))
  deriving Repr

end AsmListing
