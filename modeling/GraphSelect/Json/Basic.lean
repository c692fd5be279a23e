import GraphSelect.Decimal.Binary

/-!
# JSON values

A JSON value whose objects keep the order of their keys. A key that comes again keeps its first place and takes the
last value (`putMember`). Integers are kept exactly while they fit in 64 bits; every other number is binary floating
point.
-/

namespace GraphSelect

/-- A number: an integer of 64 bits, signed or not, or a floating-point number. -/
inductive Json.Number where
  | integer (value : Int)
  | floating (value : Binary)
deriving DecidableEq, Repr, Inhabited

/-- A JSON value with ordered objects. -/
inductive Json where
  | null
  | bool (value : Bool)
  | number (value : Json.Number)
  | string (value : String)
  | array (items : List Json)
  | object (members : List (String × Json))
deriving Repr, Inhabited

namespace Json

/-- What sort of value a JSON value is. -/
inductive Kind where
  | null
  | bool
  | number
  | string
  | array
  | object
deriving DecidableEq, Repr, Inhabited

/-- The sort of a value. -/
def kind : Json → Kind
  | .null => .null
  | .bool _ => .bool
  | .number _ => .number
  | .string _ => .string
  | .array _ => .array
  | .object _ => .object

/-- The phrase for a sort of value in a message. -/
def Kind.phrase : Kind → String
  | .null => "null"
  | .bool => "a boolean"
  | .number => "a number"
  | .string => "a string"
  | .array => "an array"
  | .object => "an object"

/-- The members with `key` set to `value`: in its place if it is there, at the end if it is not. -/
def putMember (key : String) (value : Json) : List (String × Json) → List (String × Json)
  | [] => [(key, value)]
  | (k, v) :: rest => if k = key then (k, value) :: rest else (k, v) :: putMember key value rest

/-- The value of a member of an object. -/
def get? (key : String) : Json → Option Json
  | .object members => members.lookup key
  | _ => none

end Json

end GraphSelect
