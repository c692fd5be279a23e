import GraphSelect.Operation.Kind
import GraphSelect.Schema.Problem
import GraphSelect.Tree.Encoding

/-!
# Errors

Why a tree or an operation cannot be made, by cause. Each cause has one message; an `Error`, which is any of them, puts
in front of it the part of the input that is at fault.
-/

namespace GraphSelect

/-- A schema that cannot be used. -/
inductive SchemaError where
  | invalid (problems : List Diagnostic)
  | invalidRootType (name : String)
deriving Repr

/-- An operation that cannot be made. -/
inductive OperationError where
  | unsupported (keyword : String)
  | missingRoot (kind : OperationKind)
deriving DecidableEq, Repr

/-- Why a request fails. -/
inductive Error where
  | input (fault : ShapeFault)
  | schema (error : SchemaError)
  | operation (error : OperationError)
  | recursionLimit
deriving Repr

/-- The message for a schema that cannot be used. -/
def SchemaError.message : SchemaError → String
  | .invalid problems => "GraphQL schema is invalid: " ++ Diagnostic.report problems
  | .invalidRootType name => "type `" ++ name ++ "` is not an object type with fields"

/-- The message for an operation that cannot be made. -/
def OperationError.message : OperationError → String
  | .unsupported keyword =>
    "unsupported operation type '" ++ keyword ++ "', expected one of query, mutation or subscription"
  | .missingRoot kind => "schema does not define a " ++ kind.keyword ++ " root type"

/-- The message for a failed request. -/
def Error.message : Error → String
  | .input fault => "invalid input: " ++ fault.message
  | .schema error => "schema error: " ++ error.message
  | .operation error => "operation error: " ++ error.message
  | .recursionLimit => "selection processing recursion limit exceeded"

/-- The kind of operation with a keyword. -/
def OperationKind.ofText (text : String) : Except OperationError OperationKind :=
  match OperationKind.ofKeyword? text with
  | some kind => .ok kind
  | none => .error (.unsupported text)

end GraphSelect
