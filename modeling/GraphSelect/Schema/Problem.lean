import GraphSelect.Schema.Definition

/-!
# Problems of a schema

What can be wrong with the text of a schema, each with a headline. A problem carries its position where it has one, and
problems are told in the order of the text, first those without a position.
-/

namespace GraphSelect

/-- The sorts of type definition. -/
inductive TypeSort where
  | scalar
  | object
  | interface
  | union
  | enum
  | input
deriving DecidableEq, Repr, Inhabited

/-- The sort of a type. -/
def TypeBody.sort : TypeBody → TypeSort
  | .scalar => .scalar
  | .object _ _ => .object
  | .interface _ _ => .interface
  | .union _ => .union
  | .enum _ => .enum
  | .input _ => .input

namespace TypeSort

/-- The phrase for a sort of type. -/
def phrase : TypeSort → String
  | .scalar => "scalar type"
  | .object => "object type"
  | .interface => "interface type"
  | .union => "union type"
  | .enum => "enum type"
  | .input => "input object type"

/-- The phrase with its article. -/
def article : TypeSort → String
  | .scalar => "a scalar type"
  | .object => "an object type"
  | .interface => "an interface type"
  | .union => "a union type"
  | .enum => "an enum type"
  | .input => "an input object type"

end TypeSort

/-- What has a name inside a schema, apart from types. -/
inductive NamedPart where
  | field
  | argument
  | inputField
  | enumValue
  | directive
deriving DecidableEq, Repr, Inhabited

/-- The phrase for a part, with its article. -/
def NamedPart.article : NamedPart → String
  | .field => "a field"
  | .argument => "an argument"
  | .inputField => "an input field"
  | .enumValue => "an enum value"
  | .directive => "a directive"

/-- The parts of which a type has several. -/
inductive TypePart where
  | field
  | value
  | member
deriving DecidableEq, Repr, Inhabited

/-- The word for a part. -/
def TypePart.word : TypePart → String
  | .field => "field"
  | .value => "value"
  | .member => "member"

/-- One thing that is wrong with a schema. -/
inductive Problem where
  | notADocument
  | operationInSchema
  | fragmentInSchema
  | undefinedType (name : String)
  | missingQueryRoot
  | rootNotAnObject (type : String)
  | sharedRoot (type : String)
  | repeatedRoot (kind : OperationKind)
  | repeatedSchema
  | extensionOfNoSchema
  | repeatedType (name : String)
  | builtInRedefined
  | repeatedPart (part : TypePart) (name : String) (sort : TypeSort) (type : String)
  | extensionOfNothing (type : String)
  | extensionOfOtherSort (extension : TypeSort) (type : String) (actual : TypeSort)
  | reservedType (sort : TypeSort) (name : String)
  | reservedPart (part : NamedPart) (name : String)
  | emptyType (sort : TypeSort) (name : String)
  | memberNotAnObject (name : String)
  | interfaceFieldMissing (type interface field : String)
  | interfaceFieldType (type interface field : String) (expected actual : TypeRef)
  | interfaceArgumentMissing (type interface field argument : String)
  | interfaceArgumentType (type interface field argument : String) (expected actual : TypeRef)
  | extraRequiredArgument (type interface field argument : String)
  | repeatedInterface (sort : TypeSort) (type interface : String)
  | interfaceOfInterfaceMissing (type through missing : String)
  | interfaceOfItself (name : String)
  | notAnOutputType (field : String)
  | notAnInputType (name : String)
  | inputRequiresItself (type : String)
  | inputTooDeep (type : String)
  | repeatedArgument (name : String)
  | undefinedDirective (name : String)
  | misplacedDirective (name : String) (place : DirectivePlace)
  | repeatedDirective (name : String)
  | repeatedDirectiveDefinition (name : String)
  | repeatedGivenArgument (name : String)
  | unknownArgument (directive argument : String)
  | missingArgument (directive argument : String)
  | unfitLiteral (type : TypeRef) (value : Literal)
  | unknownEnumValue (type value : String)
  | unknownInputField (type field : String)
  | missingInputField (type field : String)
deriving Repr, Inhabited

namespace Problem

/-- A name between backticks. -/
def code (text : String) : String := "`" ++ text ++ "`"

/-- The message for a problem, on one line. -/
def message : Problem → String
  | notADocument => "syntax error: the text is not a GraphQL document"
  | operationInSchema => "a schema document must not contain an operation definition"
  | fragmentInSchema => "a schema document must not contain a fragment definition"
  | undefinedType name => "cannot find type " ++ code name ++ " in this document"
  | missingQueryRoot => "missing query root operation type in schema definition"
  | rootNotAnObject type => code type ++ " field must return an object type"
  | sharedRoot type => "the same type " ++ code type ++ " must not be used for multiple root operation types"
  | repeatedRoot kind => "duplicate definitions for the " ++ code kind.keyword ++ " root operation type"
  | repeatedSchema => "must not have multiple `schema` definitions"
  | extensionOfNoSchema => "schema extension without a schema definition"
  | repeatedType name => "the type " ++ code name ++ " is defined multiple times in the schema"
  | builtInRedefined => "built-in scalar definitions must be omitted"
  | repeatedPart part name sort type =>
    "duplicate definitions for the " ++ code name ++ " " ++ part.word ++ " of " ++ sort.phrase ++ " " ++ code type
  | extensionOfNothing type => "type extension for undefined type " ++ code type
  | extensionOfOtherSort extension type actual =>
    "adding " ++ extension.article ++ " extension, but " ++ code type ++ " is " ++ actual.article
  | reservedType sort name =>
    sort.article ++ " cannot be named " ++ code name ++ " as names starting with two underscores are reserved"
  | reservedPart part name =>
    part.article ++ " cannot be named " ++ code name ++ " as names starting with two underscores are reserved"
  | emptyType sort name => sort.phrase ++ " " ++ code name ++ " must not be empty"
  | memberNotAnObject name => "union member " ++ code name ++ " must be an object type"
  | interfaceFieldMissing type interface field =>
    "type " ++ code type ++ " does not satisfy interface " ++ code interface ++ ": missing field " ++ code field
  | interfaceFieldType type interface field expected actual =>
    "interface field " ++ code (interface ++ "." ++ field) ++ " expects type " ++ code expected.text ++ " but "
      ++ code (type ++ "." ++ field) ++ " of type " ++ code actual.text ++ " is not a proper subtype"
  | interfaceArgumentMissing type interface field argument =>
    "interface field " ++ code (interface ++ "." ++ field) ++ " expects argument " ++ code argument ++ " but "
      ++ code (type ++ "." ++ field) ++ " does not provide it"
  | interfaceArgumentType type interface field argument expected actual =>
    "interface field argument " ++ code (interface ++ "." ++ field ++ "(" ++ argument ++ ":)") ++ " expects type "
      ++ code expected.text ++ " but " ++ code (type ++ "." ++ field ++ "(" ++ argument ++ ":)") ++ " is of type "
      ++ code actual.text
  | extraRequiredArgument type interface field argument =>
    code (type ++ "." ++ field) ++ " has extra required argument " ++ code argument ++ " not present in interface "
      ++ code (interface ++ "." ++ field)
  | repeatedInterface sort type interface =>
    sort.phrase ++ " " ++ code type ++ " implements interface " ++ code interface ++ " more than once"
  | interfaceOfInterfaceMissing type through missing =>
    "interface " ++ code type ++ " declares that it implements " ++ code through
      ++ ", but to do so it must also implement " ++ code missing
  | interfaceOfItself name => "interface " ++ name ++ " cannot implement itself"
  | notAnOutputType field => code field ++ " field must return an output type"
  | notAnInputType name => code name ++ " field must be of an input type"
  | inputRequiresItself type => code type ++ " input object cannot reference itself"
  | inputTooDeep type => code type ++ " input object requires too many input objects inside each other"
  | repeatedArgument name => "the value " ++ code name ++ " is defined multiple times"
  | undefinedDirective name => "cannot find directive " ++ code ("@" ++ name) ++ " in this document"
  | misplacedDirective name place => name ++ " directive is not supported for " ++ place.name ++ " location"
  | repeatedDirective name => "non-repeatable directive " ++ name ++ " can only be used once per location"
  | repeatedDirectiveDefinition name =>
    "the directive " ++ code ("@" ++ name) ++ " is defined multiple times in the schema"
  | repeatedGivenArgument name => "the argument " ++ code name ++ " is provided multiple times"
  | unknownArgument directive argument =>
    "the argument " ++ code argument ++ " is not supported by " ++ code ("@" ++ directive)
  | missingArgument directive argument =>
    "the required argument " ++ code ("@" ++ directive ++ "(" ++ argument ++ ":)") ++ " is not provided"
  | unfitLiteral type value => "expected value of type " ++ type.text ++ ", found " ++ value.phrase
  | unknownEnumValue type value => "value " ++ code value ++ " does not exist on enum type " ++ code type
  | unknownInputField type field => "field " ++ code field ++ " does not exist on input object type " ++ code type
  | missingInputField type field => "the required field " ++ code (type ++ "." ++ field) ++ " is not provided"

end Problem

/-- A problem and where it is. -/
structure Diagnostic where
  problem : Problem
  position? : Option Nat
deriving Repr, Inhabited

namespace Diagnostic

/-- The line that announces a problem. -/
def headline (d : Diagnostic) : String := "Error: " ++ d.problem.message

/-- The rank of a problem in the text, below all others if it has no position. -/
def rank (d : Diagnostic) : Nat :=
  match d.position? with
  | none => 0
  | some position => position + 1

/-- Problems in the order of the text; those at one place stay in their order. -/
def sort (ds : List Diagnostic) : List Diagnostic := ds.mergeSort fun a b => a.rank ≤ b.rank

/-- How many problems are told in full. -/
def shown : Nat := 5

/-- The headlines that are told. -/
def headlines (ds : List Diagnostic) : List String := (ds.take shown).map headline

/-- The line that says how many problems are not told, if there are any. -/
def remainder? (ds : List Diagnostic) : Option String :=
  let more := ds.length - shown
  if more = 0 then none else some ("...and " ++ toString more ++ " other errors")

/-- The text for some problems. -/
def report (ds : List Diagnostic) : String := String.intercalate "\n" (headlines ds ++ (remainder? ds).toList)

end Diagnostic

end GraphSelect
