import GraphSelect.Document.Reader
import GraphSelect.Schema.Definition

/-!
# Values, types and directives in text

The forms that the grammar of schemas and the grammar of operations share. Where a value must be constant, a variable
is not one.
-/

namespace GraphSelect.Reader

/-- The literal that a bare name spells. -/
def nameLiteral (text : String) : Literal :=
  if text = "true" then .bool true
  else if text = "false" then .bool false
  else if text = "null" then .null
  else .enum text

/-- Reads a value, nested to `depth` at most. -/
def literalWithin (constant : Bool) : Nat → Reader Literal
  | 0 => failure
  | depth + 1 => do
    match ← next with
    | .name text => pure (nameLiteral text)
    | .int text => pure (.int text)
    | .float text => pure (.float text)
    | .string text => pure (.string text)
    | .mark .dollar => if constant then failure else .variable <$> name
    | .mark .openBracket =>
      .list <$> untilMark .closeBracket (literalWithin constant depth) ((← left) + 1)
    | .mark .openBrace =>
      let field : Reader (String × Literal) := do
        let key ← name
        expect (.mark .colon)
        pure (key, ← literalWithin constant depth)
      .object <$> untilMark .closeBrace field ((← left) + 1)
    | .mark _ => failure

/-- Reads a value. -/
def literal (constant : Bool) : Reader Literal := do
  literalWithin constant (← left)

/-- Reads a reference to a type, nested to `depth` at most. -/
def typeRefWithin : Nat → Reader TypeRef
  | 0 => failure
  | depth + 1 => do
    match ← next with
    | .name text => pure (.named text (← accept (.mark .bang)))
    | .mark .openBracket =>
      let item ← typeRefWithin depth
      expect (.mark .closeBracket)
      pure (.list item (← accept (.mark .bang)))
    | _ => failure

/-- Reads a reference to a type. -/
def typeRef : Reader TypeRef := do
  typeRefWithin (← left)

/-- Reads an argument with its value. -/
def argument (constant : Bool) : Reader Argument := do
  let place ← position
  let key ← name
  expect (.mark .colon)
  pure ⟨key, ← literal constant, place⟩

/-- Reads arguments in parentheses, if there are any. -/
def arguments (constant : Bool) : Reader (List Argument) :=
  optionalBetween .openParen .closeParen (argument constant)

/-- Reads directives as long as they come, in at most `n` steps. -/
def directivesWithin (constant : Bool) : Nat → Reader (List Directive)
  | 0 => pure []
  | n + 1 => do
    let place ← position
    if ← accept (.mark .at) then
      let key ← name
      let given ← arguments constant
      let rest ← directivesWithin constant n
      pure (⟨key, given, place⟩ :: rest)
    else pure []

/-- Reads directives as long as they come. -/
def directives (constant : Bool) : Reader (List Directive) := do
  directivesWithin constant (← left)

end GraphSelect.Reader
