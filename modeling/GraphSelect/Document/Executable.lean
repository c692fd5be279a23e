import GraphSelect.Document.Value

/-!
# Operations in text

The grammar of executable documents: operations and fragments with their selection sets. It reads more than the library
writes, for a document that defines types may also hold operations, which are then refused as such.
-/

namespace GraphSelect

/-- A member of a selection set as it is spelled. -/
inductive SpelledSelection where
  | field (alias? : Option String) (name : String) (arguments : List Argument) (directives : List Directive)
    (selections : Option (List SpelledSelection))
  | spread (name : String) (directives : List Directive)
  | inline (type? : Option String) (directives : List Directive) (selections : List SpelledSelection)
deriving Repr, Inhabited

/-- The definition of a variable of an operation. -/
structure VariableDefinition where
  name : String
  type : TypeRef
  default? : Option Literal := none
  directives : List Directive := []
deriving Repr, Inhabited

/-- An operation as it is spelled. -/
structure SpelledOperation where
  kind : OperationKind
  name? : Option String := none
  variableDefinitions : List VariableDefinition := []
  directives : List Directive := []
  selections : List SpelledSelection
deriving Repr, Inhabited

/-- A named fragment as it is spelled. -/
structure SpelledFragment where
  name : String
  type : String
  directives : List Directive := []
  selections : List SpelledSelection
deriving Repr, Inhabited

namespace Reader

/-- Reads a name, if one is next. -/
def name? : Reader (Option String) := do
  match ← peek? with
  | some (.name text) =>
    let _ ← next
    pure (some text)
  | _ => pure none

/-- Reads a member of a selection set, nested to `depth` at most. -/
def selectionWithin : Nat → Reader SpelledSelection
  | 0 => failure
  | depth + 1 => do
    let body : Reader (List SpelledSelection) := between .openBrace .closeBrace (selectionWithin depth)
    if ← accept (.mark .spread) then
      match ← name? with
      | some text =>
        if text = "on" then
          let type ← name
          let given ← directives false
          pure (.inline (some type) given (← body))
        else pure (.spread text (← directives false))
      | none =>
        let given ← directives false
        pure (.inline none given (← body))
    else
      let first ← name
      let second? ← if ← accept (.mark .colon) then some <$> name else pure none
      let given ← arguments false
      let marks ← directives false
      let inner ←
        if (← peek?) = some (.mark .openBrace) then some <$> body else pure none
      match second? with
      | some second => pure (.field (some first) second given marks inner)
      | none => pure (.field none first given marks inner)

/-- Reads a selection set in braces. -/
def selectionSet : Reader (List SpelledSelection) := do
  between .openBrace .closeBrace (selectionWithin (← left))

/-- Reads the definition of a variable. -/
def variableDefinition : Reader VariableDefinition := do
  expect (.mark .dollar)
  let key ← name
  expect (.mark .colon)
  let type ← typeRef
  let default? ← if ← accept (.mark .equals) then some <$> literal true else pure none
  pure ⟨key, type, default?, ← directives true⟩

/-- Reads an operation: its keyword with what may follow it, or a selection set alone, which is a query. -/
def operation : Reader SpelledOperation := do
  match ← peek? with
  | some (.name text) =>
    match OperationKind.ofKeyword? text with
    | some kind =>
      let _ ← next
      let name? ← name?
      let defined ← optionalBetween .openParen .closeParen variableDefinition
      let given ← directives false
      pure ⟨kind, name?, defined, given, ← selectionSet⟩
    | none => failure
  | _ => pure { kind := .query, selections := ← selectionSet }

/-- Reads a named fragment. -/
def fragment : Reader SpelledFragment := do
  expect (.name "fragment")
  let key ← name
  if key = "on" then failure
  expect (.name "on")
  let type ← name
  let given ← directives false
  pure ⟨key, type, given, ← selectionSet⟩

end Reader

end GraphSelect
