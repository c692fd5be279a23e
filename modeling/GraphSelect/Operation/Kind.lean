/-!
# Kinds of operation

The three kinds of GraphQL operation, each with the keyword that starts it and the name that its root type has unless
a schema says otherwise.
-/

namespace GraphSelect

/-- A kind of operation. -/
inductive OperationKind where
  | query
  | mutation
  | subscription
deriving DecidableEq, Repr, Inhabited

namespace OperationKind

/-- Every kind. -/
def all : List OperationKind := [.query, .mutation, .subscription]

/-- The keyword that starts an operation. -/
def keyword : OperationKind → String
  | .query => "query"
  | .mutation => "mutation"
  | .subscription => "subscription"

/-- The usual name of the root type. -/
def usualRoot : OperationKind → String
  | .query => "Query"
  | .mutation => "Mutation"
  | .subscription => "Subscription"

/-- The kind with a keyword. -/
def ofKeyword? (text : String) : Option OperationKind := all.find? (·.keyword = text)

theorem ofKeyword?_keyword (kind : OperationKind) : ofKeyword? kind.keyword = some kind := by
  cases kind <;> decide

end OperationKind

end GraphSelect
