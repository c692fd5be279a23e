import GraphSelect.Literal.Basic
import GraphSelect.Operation.Kind

/-!
# Type definitions

What a schema defines: its types with their fields, members and values, and its directives. Each part that a message
can point at carries its position in the text, counted in tokens; nothing but the order of messages depends on it.
-/

namespace GraphSelect

/-- A reference to a type: a named type or a list, either of which may exclude null. -/
inductive TypeRef where
  | named (name : String) (nonNull : Bool)
  | list (item : TypeRef) (nonNull : Bool)
deriving DecidableEq, Repr, Inhabited

namespace TypeRef

/-- The type that is left when every list is taken away. -/
def base : TypeRef → String
  | .named name _ => name
  | .list item _ => item.base

/-- Whether null is excluded. -/
def isNonNull : TypeRef → Bool
  | .named _ nonNull => nonNull
  | .list _ nonNull => nonNull

/-- Whether the type is a list. -/
def isList : TypeRef → Bool
  | .named _ _ => false
  | .list _ _ => true

/-- The type of an item of a list, and the type itself if it is none. -/
def item : TypeRef → TypeRef
  | .named name nonNull => .named name nonNull
  | .list item _ => item

/-- The text of a reference. -/
def text : TypeRef → String
  | .named name nonNull => name ++ if nonNull then "!" else ""
  | .list item nonNull => "[" ++ item.text ++ "]" ++ if nonNull then "!" else ""

end TypeRef

/-- A named argument of a directive or a field, with its value. -/
structure Argument where
  name : String
  value : Literal
  position : Nat := 0
deriving Repr, Inhabited

/-- A directive where it is used. -/
structure Directive where
  name : String
  arguments : List Argument := []
  position : Nat := 0
deriving Repr, Inhabited

/-- The definition of an argument or of a field of an input object. -/
structure InputValue where
  name : String
  type : TypeRef
  default? : Option Literal := none
  directives : List Directive := []
  position : Nat := 0
  typePosition : Nat := 0
deriving Repr, Inhabited

/-- Whether a value must be given: null is excluded and there is no default. -/
def InputValue.isRequired (v : InputValue) : Bool := v.type.isNonNull && v.default?.isNone

/-- The definition of a field. -/
structure Field where
  name : String
  type : TypeRef
  arguments : List InputValue := []
  directives : List Directive := []
  position : Nat := 0
  typePosition : Nat := 0
deriving Repr, Inhabited

/-- A type that is mentioned by name. -/
structure Mention where
  name : String
  position : Nat := 0
deriving Repr, Inhabited

/-- The definition of a value of an enum. -/
structure EnumValue where
  name : String
  directives : List Directive := []
  position : Nat := 0
deriving Repr, Inhabited

/-- What a type consists of. -/
inductive TypeBody where
  | scalar
  | object (interfaces : List Mention) (fields : List Field)
  | interface (interfaces : List Mention) (fields : List Field)
  | union (members : List Mention)
  | enum (values : List EnumValue)
  | input (fields : List InputValue)
deriving Repr, Inhabited

/-- The definition of a type. -/
structure TypeDefinition where
  name : String
  body : TypeBody
  directives : List Directive := []
  position : Nat := 0
deriving Repr, Inhabited

/-- A place where a directive can be used. -/
inductive DirectivePlace where
  | query
  | mutation
  | subscription
  | field
  | fragmentDefinition
  | fragmentSpread
  | inlineFragment
  | variableDefinition
  | schema
  | scalar
  | object
  | fieldDefinition
  | argumentDefinition
  | interface
  | union
  | enum
  | enumValue
  | inputObject
  | inputFieldDefinition
deriving DecidableEq, Repr, Inhabited

namespace DirectivePlace

/-- Every place. -/
def all : List DirectivePlace :=
  [.query, .mutation, .subscription, .field, .fragmentDefinition, .fragmentSpread, .inlineFragment,
    .variableDefinition, .schema, .scalar, .object, .fieldDefinition, .argumentDefinition, .interface, .union, .enum,
    .enumValue, .inputObject, .inputFieldDefinition]

/-- The name of a place. -/
def name : DirectivePlace → String
  | .query => "QUERY"
  | .mutation => "MUTATION"
  | .subscription => "SUBSCRIPTION"
  | .field => "FIELD"
  | .fragmentDefinition => "FRAGMENT_DEFINITION"
  | .fragmentSpread => "FRAGMENT_SPREAD"
  | .inlineFragment => "INLINE_FRAGMENT"
  | .variableDefinition => "VARIABLE_DEFINITION"
  | .schema => "SCHEMA"
  | .scalar => "SCALAR"
  | .object => "OBJECT"
  | .fieldDefinition => "FIELD_DEFINITION"
  | .argumentDefinition => "ARGUMENT_DEFINITION"
  | .interface => "INTERFACE"
  | .union => "UNION"
  | .enum => "ENUM"
  | .enumValue => "ENUM_VALUE"
  | .inputObject => "INPUT_OBJECT"
  | .inputFieldDefinition => "INPUT_FIELD_DEFINITION"

/-- The place with a name. -/
def ofName? (text : String) : Option DirectivePlace := all.find? (·.name = text)

end DirectivePlace

/-- The definition of a directive. -/
structure DirectiveDefinition where
  name : String
  arguments : List InputValue := []
  isRepeatable : Bool := false
  places : List DirectivePlace
  position : Nat := 0
deriving Repr, Inhabited

/-- The root type of a kind of operation, where a schema definition names it. -/
structure RootMention where
  kind : OperationKind
  type : Mention
deriving Repr, Inhabited

end GraphSelect
