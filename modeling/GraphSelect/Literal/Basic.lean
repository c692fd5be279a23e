/-!
# Literals

The values that GraphQL text spells: as an argument of a field or a directive, or as a default. Numbers keep their
spelling, and an object keeps its fields as they were written, repeated ones included.
-/

namespace GraphSelect

/-- A GraphQL value as it is spelled. -/
inductive Literal where
  | null
  | bool (value : Bool)
  | int (text : String)
  | float (text : String)
  | string (text : String)
  | enum (name : String)
  | variable (name : String)
  | list (items : List Literal)
  | object (fields : List (String × Literal))
deriving Repr, Inhabited

namespace Literal

/-- Whether a literal is `null`. -/
def isNull : Literal → Bool
  | .null => true
  | _ => false

/-- The phrase for a literal in a message. -/
def phrase : Literal → String
  | .null => "null"
  | .bool _ => "a boolean"
  | .int _ => "an integer"
  | .float _ => "a float"
  | .string _ => "a string"
  | .enum _ => "an enum"
  | .variable _ => "a variable"
  | .list _ => "a list"
  | .object _ => "an input object"

end Literal

end GraphSelect
