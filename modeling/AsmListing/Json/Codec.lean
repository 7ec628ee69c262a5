/-
  AsmListing.Json.Codec — types with a JSON form. A record is an object or an array of
  its fields in order; a variant is its name, or an object with that one key. Reading
  ignores members that are no field, and refuses a field that occurs twice.
-/

import AsmListing.Json.Value

namespace AsmListing

class JsonCodec (α : Type) where
  encode : α → Json
  decode? : Json → Option α

export JsonCodec (encode decode?)

namespace Json

/-! ## Numbers, text and lists -/

instance : JsonCodec Bool where
  encode := .bool
  decode?
    | .bool b => some b
    | _ => none

instance : JsonCodec String where
  encode s := .string (some s)
  decode?
    | .string s => s
    | _ => none

/-- An integer of a bounded range. -/
def decodeInteger? {α : Type} (low high : Int) (f : Int → α) : Json → Option α
  | .integer n => if low ≤ n ∧ n < high then some (f n) else none
  | _ => none

instance : JsonCodec UInt8 where
  encode n := .integer n.toNat
  decode? := decodeInteger? 0 UInt8.size fun n => UInt8.ofNat n.toNat

instance : JsonCodec UInt64 where
  encode n := .integer n.toNat
  decode? := decodeInteger? 0 UInt64.size fun n => UInt64.ofNat n.toNat

/-- A count; none from 2 ^ 64 on is read. -/
instance : JsonCodec Nat where
  encode n := .integer n
  decode? := decodeInteger? 0 UInt64.size Int.toNat

instance : JsonCodec Int64 where
  encode n := .integer n.toInt
  decode? := decodeInteger? Int64.minValue.toInt (Int64.maxValue.toInt + 1) Int64.ofInt

instance {α : Type} [JsonCodec α] : JsonCodec (Option α) where
  encode
    | some a => encode a
    | none => .null
  decode?
    | .null => some none
    | j => (decode? j).map some

instance {α : Type} [JsonCodec α] : JsonCodec (List α) where
  encode as := .array (as.map encode)
  decode?
    | .array items => items.mapM decode?
    | _ => none

/-! ## Records -/

def record (fields : List (String × Json)) : Json := .object (fields.map fun f => (some f.1, f.2))

/-- The member of an object with this key: `none` when it occurs twice, `some none` when
    it does not occur. -/
def member? (members : List (Option String × Json)) (key : String) : Option (Option Json) :=
  match members.filter (·.1 = some key) with
  | [] => some none
  | [(_, j)] => some (some j)
  | _ => none

/-- The fields of a record in the order of `keys`; an array may leave out trailing ones
    only when `openEnded`. A field that is left out is `none`. -/
def fields? (keys : List String) (openEnded : Bool) : Json → Option (List (Option Json))
  | .object members =>
    if members.all (·.1.isSome) then keys.mapM (member? members) else none
  | .array items =>
    if items.length = keys.length ∨ (openEnded ∧ items.length < keys.length) then
      some (items.map some ++ List.replicate (keys.length - items.length) none)
    else none
  | _ => none

/-- A field that has to be there. -/
def required? {α : Type} [JsonCodec α] (field : Option Json) : Option α := field.bind decode?

/-- A field that is read as `null` when it is left out. -/
def optional? {α : Type} [JsonCodec α] (field : Option Json) : Option (Option α) :=
  decode? (field.getD .null)

/-- A field that keeps its default when it is left out. -/
def defaulted? {α : Type} [JsonCodec α] (default : α) : Option Json → Option α
  | some j => decode? j
  | none => some default

/-! ## Variants -/

def variant (name : String) (content : Json) : Json := .object [(some name, content)]

/-- The name of a variant with content, and the content. -/
def variant? : Json → Option (String × Json)
  | .object [(some name, content)] => some (name, content)
  | _ => none

/-- A variant without content: its bare name, or its name with `null`. -/
def unitVariant? : Json → Option String
  | .string (some name) => some name
  | .object [(some name, .null)] => some name
  | _ => none

/-- The one of `values` with this name. -/
def named? {α : Type} (values : List α) (name : α → String) (j : Json) : Option α :=
  (unitVariant? j).bind fun n => values.find? (name · = n)

end Json

end AsmListing
