import GraphSelect.Document.Executable

/-!
# Documents

A document is a sequence of definitions: of types, directives and the roots of a schema, of extensions that add to
them, and of operations and fragments, which a schema may not hold. `Document.read?` reads a text as one; a text that
the grammar does not allow, the empty one included, is none.
-/

namespace GraphSelect

/-- One definition of a document. -/
inductive Definition where
  | schema (directives : List Directive) (roots : List RootMention) (position : Nat)
  | schemaExtension (directives : List Directive) (roots : List RootMention) (position : Nat)
  | type (definition : TypeDefinition)
  | typeExtension (extension : TypeDefinition)
  | directive (definition : DirectiveDefinition)
  | operation (operation : SpelledOperation) (position : Nat)
  | fragment (fragment : SpelledFragment) (position : Nat)
deriving Repr, Inhabited

/-- The definitions of a text, in order. -/
abbrev Document := List Definition

namespace Reader

/-! ## Parts of definitions -/

/-- Reads the default of an input value, if it has one. -/
def default? : Reader (Option Literal) := do
  if ← accept (.mark .equals) then some <$> literal true else pure none

/-- Reads the definition of an argument or an input field. -/
def inputValue : Reader InputValue := do
  let _ ← skipString
  let place ← position
  let key ← name
  expect (.mark .colon)
  let typePlace ← position
  let type ← typeRef
  let default? ← default?
  pure ⟨key, type, default?, ← directives true, place, typePlace⟩

/-- Reads the definition of a field. -/
def fieldDefinition : Reader Field := do
  let _ ← skipString
  let place ← position
  let key ← name
  let parameters ← optionalBetween .openParen .closeParen inputValue
  expect (.mark .colon)
  let typePlace ← position
  let type ← typeRef
  pure ⟨key, type, parameters, ← directives true, place, typePlace⟩

/-- Reads a type that is mentioned by name. -/
def mention : Reader Mention := do
  let place ← position
  pure ⟨← name, place⟩

/-- Reads the definition of a value of an enum. -/
def enumValue : Reader EnumValue := do
  let _ ← skipString
  let place ← position
  let key ← name
  if key = "true" ∨ key = "false" ∨ key = "null" then failure
  pure ⟨key, ← directives true, place⟩

/-- Reads the root type of a kind of operation. -/
def rootMention : Reader RootMention := do
  match OperationKind.ofKeyword? (← name) with
  | some kind =>
    expect (.mark .colon)
    pure ⟨kind, ← mention⟩
  | none => failure

/-- Reads the interfaces that a type implements, if it says so. -/
def interfaces : Reader (List Mention) := do
  if ← accept (.name "implements") then list .ampersand mention else pure []

/-- Reads the fields of an object or interface type, if they are given. -/
def fields : Reader (List Field) := optionalBetween .openBrace .closeBrace fieldDefinition

/-- Reads the roots of a schema, if they are given. -/
def roots : Reader (List RootMention) := optionalBetween .openBrace .closeBrace rootMention

/-- Reads a place where a directive can be used. -/
def directivePlace : Reader DirectivePlace := do
  match DirectivePlace.ofName? (← name) with
  | some place => pure place
  | none => failure

/-! ## Definitions -/

/-- Reads the definition of a type after its keyword, if the keyword is one. -/
def typeDefinition (keyword : String) : Reader TypeDefinition := do
  let place ← position
  let key ← name
  match keyword with
  | "scalar" => pure ⟨key, .scalar, ← directives true, place⟩
  | "type" =>
    let implemented ← interfaces
    let given ← directives true
    pure ⟨key, .object implemented (← fields), given, place⟩
  | "interface" =>
    let implemented ← interfaces
    let given ← directives true
    pure ⟨key, .interface implemented (← fields), given, place⟩
  | "union" =>
    let given ← directives true
    let members ← if ← accept (.mark .equals) then list .pipe mention else pure []
    pure ⟨key, .union members, given, place⟩
  | "enum" =>
    let given ← directives true
    pure ⟨key, .enum (← optionalBetween .openBrace .closeBrace enumValue), given, place⟩
  | "input" =>
    let given ← directives true
    pure ⟨key, .input (← optionalBetween .openBrace .closeBrace inputValue), given, place⟩
  | _ => failure

/-- Whether a type extension adds anything. -/
def adds (extension : TypeDefinition) : Bool :=
  !extension.directives.isEmpty ||
    match extension.body with
    | .scalar => false
    | .object interfaces fields => !interfaces.isEmpty || !fields.isEmpty
    | .interface interfaces fields => !interfaces.isEmpty || !fields.isEmpty
    | .union members => !members.isEmpty
    | .enum values => !values.isEmpty
    | .input fields => !fields.isEmpty

/-- Reads an extension after its keyword; it must add something. -/
def extensionDefinition (place : Nat) : Reader Definition := do
  let keyword ← name
  if keyword = "schema" then
    let given ← directives true
    let added ← roots
    if given.isEmpty ∧ added.isEmpty then failure
    pure (.schemaExtension given added place)
  else
    let extension ← typeDefinition keyword
    if adds extension then pure (.typeExtension extension) else failure

/-- Reads the definition of a directive after its keyword. -/
def directiveDefinition : Reader DirectiveDefinition := do
  expect (.mark .at)
  let place ← position
  let key ← name
  let parameters ← optionalBetween .openParen .closeParen inputValue
  let isRepeatable ← accept (.name "repeatable")
  expect (.name "on")
  pure ⟨key, parameters, isRepeatable, ← list .pipe directivePlace, place⟩

/-- Reads a definition. Only the definition of a type, a directive or a schema may have a description in front. -/
def definition : Reader Definition := do
  let isDescribed ← skipString
  let place ← position
  match ← peek? with
  | some (.mark .openBrace) => if isDescribed then failure else pure (.operation (← operation) place)
  | some (.name "query") | some (.name "mutation") | some (.name "subscription") =>
    if isDescribed then failure else pure (.operation (← operation) place)
  | some (.name "fragment") => if isDescribed then failure else pure (.fragment (← fragment) place)
  | some (.name "extend") =>
    if isDescribed then failure
    let _ ← next
    extensionDefinition place
  | some (.name "schema") =>
    let _ ← next
    let given ← directives true
    pure (.schema given (← between .openBrace .closeBrace rootMention) place)
  | some (.name "directive") =>
    let _ ← next
    .directive <$> directiveDefinition
  | some (.name keyword) =>
    let _ ← next
    .type <$> typeDefinition keyword
  | _ => failure

/-- Reads definitions up to the end of the text, in at most `n` steps. -/
def definitionsWithin : Nat → Reader Document
  | 0 => failure
  | n + 1 => do
    let first ← definition
    if (← peek?).isNone then pure [first]
    else
      let rest ← definitionsWithin n
      pure (first :: rest)

end Reader

/-- The document that a text spells. -/
def Document.read? (text : String) : Option Document := do
  let tokens ← Token.scan text.toList
  let (document, _) ← (Reader.definitionsWithin tokens.length).run ⟨tokens, 0⟩
  pure document

end GraphSelect
