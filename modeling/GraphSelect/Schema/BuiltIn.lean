import GraphSelect.Schema.Definition

/-!
# Built-in definitions

The definitions that every schema has without writing them: the five scalars, the types that describe a schema itself,
and four directives.
-/

namespace GraphSelect.BuiltIn

/-- The names of the built-in scalars. -/
def scalars : List String := ["Int", "Float", "String", "Boolean", "ID"]

/-- A type that allows null. -/
def optional (name : String) : TypeRef := .named name false

/-- A type that excludes null. -/
def required (name : String) : TypeRef := .named name true

/-- A list, of which the items exclude null. -/
def listOf (name : String) : TypeRef := .list (required name) false

/-- A list that excludes null, like its items. -/
def requiredListOf (name : String) : TypeRef := .list (required name) true

/-- The argument that asks for deprecated members too. -/
def includeDeprecated : InputValue :=
  { name := "includeDeprecated", type := optional "Boolean", default? := some (.bool false) }

/-- A field without arguments. -/
def plain (name : String) (type : TypeRef) : Field := { name, type }

/-- A field of which deprecated members are left out unless asked for. -/
def filtered (name : String) (type : TypeRef) : Field := { name, type, arguments := [includeDeprecated] }

/-- An object type that implements nothing. -/
def object (name : String) (fields : List Field) : TypeDefinition := { name, body := .object [] fields }

/-- An enum type. -/
def enumeration (name : String) (values : List String) : TypeDefinition :=
  { name, body := .enum (values.map fun value => { name := value }) }

/-- The fields that end the description of anything that can be deprecated. -/
def deprecation : List Field :=
  [plain "isDeprecated" (required "Boolean"), plain "deprecationReason" (optional "String")]

/-- The types that describe a schema. -/
def introspection : List TypeDefinition := [
  object "__Schema" [
    plain "description" (optional "String"), plain "types" (requiredListOf "__Type"),
    plain "queryType" (required "__Type"), plain "mutationType" (optional "__Type"),
    plain "subscriptionType" (optional "__Type"), plain "directives" (requiredListOf "__Directive")],
  object "__Type" [
    plain "kind" (required "__TypeKind"), plain "name" (optional "String"), plain "description" (optional "String"),
    filtered "fields" (listOf "__Field"), plain "interfaces" (listOf "__Type"),
    plain "possibleTypes" (listOf "__Type"), filtered "enumValues" (listOf "__EnumValue"),
    filtered "inputFields" (listOf "__InputValue"), plain "ofType" (optional "__Type"),
    plain "specifiedByURL" (optional "String")],
  enumeration "__TypeKind"
    ["SCALAR", "OBJECT", "INTERFACE", "UNION", "ENUM", "INPUT_OBJECT", "LIST", "NON_NULL"],
  object "__Field" ([
    plain "name" (required "String"), plain "description" (optional "String"),
    filtered "args" (requiredListOf "__InputValue"), plain "type" (required "__Type")] ++ deprecation),
  object "__InputValue" ([
    plain "name" (required "String"), plain "description" (optional "String"), plain "type" (required "__Type"),
    plain "defaultValue" (optional "String")] ++ deprecation),
  object "__EnumValue" ([
    plain "name" (required "String"), plain "description" (optional "String")] ++ deprecation),
  object "__Directive" [
    plain "name" (required "String"), plain "description" (optional "String"),
    plain "locations" (requiredListOf "__DirectiveLocation"), filtered "args" (requiredListOf "__InputValue"),
    plain "isRepeatable" (required "Boolean")],
  enumeration "__DirectiveLocation" (DirectivePlace.all.map (·.name))]

/-- Every built-in type. -/
def types : List TypeDefinition := scalars.map (fun name => { name, body := .scalar }) ++ introspection

/-- The condition of a directive that switches a selection on or off. -/
def condition : InputValue := { name := "if", type := required "Boolean" }

/-- Every built-in directive. -/
def directives : List DirectiveDefinition := [
  { name := "skip", arguments := [condition], places := [.field, .fragmentSpread, .inlineFragment] },
  { name := "include", arguments := [condition], places := [.field, .fragmentSpread, .inlineFragment] },
  { name := "deprecated",
    arguments := [{ name := "reason", type := optional "String", default? := some (.string "No longer supported") }],
    places := [.fieldDefinition, .argumentDefinition, .inputFieldDefinition, .enumValue] },
  { name := "specifiedBy", arguments := [{ name := "url", type := required "String" }], places := [.scalar] }]

/-! ## Fields that every schema adds -/

/-- The field that names the type of an object. -/
def typenameField : Field := plain "__typename" (required "String")

/-- The fields that the query root has beside its own: the schema, and one of its types by name. -/
def rootFields : List Field :=
  [plain "__schema" (required "__Schema"),
    { name := "__type", type := optional "__Type", arguments := [{ name := "name", type := required "String" }] }]

end GraphSelect.BuiltIn
