import GraphSelect.Literal.Basic
import GraphSelect.Operation.Kind

/-!
# Operations

What an operation asks for: a selection set on the root type, with fields, the name of the type, and inline fragments
for narrower types. A field of a scalar or enum type has no selection set of its own, any other field has one.
-/

namespace GraphSelect

/-- A member of a selection set. -/
inductive Item where
  | typename
  | scalar (name : String) (arguments : List (String × Literal))
  | composite (name : String) (arguments : List (String × Literal)) (body : List Item)
  | fragment (type : String) (body : List Item)
deriving Repr, Inhabited

namespace Item

/-- Whether an item asks for the name of the type. -/
def isTypename : Item → Bool
  | .typename => true
  | _ => false

/-- Whether an item is a field. -/
def isField : Item → Bool
  | .scalar _ _ => true
  | .composite _ _ _ => true
  | _ => false

/-- Whether an item is an inline fragment. -/
def isFragment : Item → Bool
  | .fragment _ _ => true
  | _ => false

end Item

/-- An operation: its kind, its name if it has one, and its selection set. -/
structure Operation where
  kind : OperationKind
  name? : Option String
  items : List Item
deriving Repr, Inhabited

end GraphSelect
