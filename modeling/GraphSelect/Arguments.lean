import GraphSelect.Literal.Basic
import GraphSelect.Schema.Basic
import GraphSelect.Schema.BuiltIn

/-!
# Arguments of written fields

A selection tree says which fields are selected, never with which arguments. A provider fills that gap: it gives the
arguments of a field from the schema and the type that the field is selected on. `placeholderArguments` gives each
required argument a literal that is as small as its type allows.
-/

namespace GraphSelect

/-- The arguments to write for a field that is selected on a type, in order. -/
abbrev ArgumentProvider := Schema → String → Field → List (String × Literal)

/-! ## Placeholders -/

/-- How deep input objects may stand inside a placeholder. -/
def placeholderDepth : Nat := 32

/-- The smallest literal of a type: an empty list, zero, false, the empty string, the first value of an enum, or an
object of the required fields. There is none for a type that no value has, or that needs more than `levels` levels of
values. -/
def placeholder? (s : Schema) : Nat → TypeRef → Option Literal
  | 0, _ => none
  | _ + 1, .list _ _ => some (.list [])
  | levels + 1, .named name _ =>
    match name with
    | "Int" => some (.int "0")
    | "Float" => some (.float "0.0")
    | "Boolean" => some (.bool false)
    | "String" => some (.string "")
    | "ID" => some (.string "")
    | name =>
      match s.body? name with
      | some .scalar => some (.string "")
      | some (.enum values) => values.head?.map fun v => .enum v.name
      | some (.input fields) =>
        ((fields.filter (·.isRequired)).mapM fun f => (placeholder? s levels f.type).map (f.name, ·)).map .object
      | _ => none

/-- A placeholder for each required argument of a field. -/
def placeholderArguments : ArgumentProvider := fun s _ f =>
  (f.arguments.filter (·.isRequired)).filterMap fun v =>
    (placeholder? s (placeholderDepth + 1) v.type).map (v.name, ·)

/-- No arguments at all. -/
def noArguments : ArgumentProvider := fun _ _ _ => []

/-! ## Tables -/

/-- The arguments that a table lists for a field of a type. -/
structure ArgumentEntry where
  parent : String
  field : String
  arguments : List (String × Literal)

/-- The provider that answers with the first matching entry of a table, and with nothing if no entry matches. -/
def ArgumentProvider.ofTable (table : List ArgumentEntry) : ArgumentProvider := fun _ parent f =>
  ((table.find? fun e => e.parent = parent && e.field = f.name).map (·.arguments)).getD []

/-! ## Fields that can be asked for -/

/-- A field that an operation can ask for on a type: one of its own, `__typename` on a type with a selection set, or
one of the fields that the root of queries has beside its own. -/
def Schema.askableField? (s : Schema) (type name : String) : Option Field :=
  match s.field? type name with
  | some f => some f
  | none =>
    if name = BuiltIn.typenameField.name ∧ (s.kind? type).any TypeKind.isComposite then some BuiltIn.typenameField
    else if s.root? .query = some type then BuiltIn.rootFields.find? (·.name = name)
    else none

end GraphSelect
