import GraphSelect.Cache
import GraphSelect.Generation
import GraphSelect.Operation.Lowering

/-!
# Building operations from schema text

The whole way from the text of a schema to a tree or an operation, in two forms: functions of the text, and a builder
that keeps the schemas it has parsed and answers the same.
-/

namespace GraphSelect

/-! ## Functions of the text -/

/-- The operation that the tree of a schema selects after an edit, with what the edit says of itself. -/
def Schema.build {α : Type} (s : Schema) (edit : Tree → Tree × α) (o : Options) : Except Error (String × α) :=
  match s.generate o with
  | .error error => .error error
  | .ok tree =>
    let (tree, report) := edit tree
    (s.serialize tree o).map (·, report)

/-- What a function gives for the schema of a text. -/
def withSchema {α : Type} (text : String) (f : Schema → Except Error α) : Except Error α :=
  match Schema.parse text with
  | .error problems => .error (.schema (.invalid problems))
  | .ok s => f s

/-- The unselected tree of the root type of the schema of a text. -/
def generateFrom (text : String) (o : Options) : Except Error Tree := withSchema text (·.generate o)

/-- The operation that a tree selects in the schema of a text. -/
def serializeFrom (text : String) (tree : Tree) (o : Options) : Except Error String :=
  withSchema text (·.serialize tree o)

/-- The operation that the edited tree of the schema of a text selects. -/
def buildFrom {α : Type} (text : String) (edit : Tree → Tree × α) (o : Options) : Except Error (String × α) :=
  withSchema text (·.build edit o)

/-! ## Builders -/

/-- A builder of operations that keeps the schemas it has parsed. -/
structure Builder where
  schemas : Cache
deriving Inhabited

namespace Builder

/-- A builder that keeps up to `capacity` schemas. -/
def empty (capacity : Nat) : Builder := ⟨.empty capacity⟩

/-- The schema of a text, and the builder then. -/
def schema (b : Builder) (text : String) : Except Error Instance × Builder :=
  match b.schemas.getOrParse text with
  | (.ok i, schemas) => (.ok i, ⟨schemas⟩)
  | (.error problems, schemas) => (.error (.schema (.invalid problems)), ⟨schemas⟩)

/-- What a function gives for the schema of a text, and the builder then. -/
def withSchema {α : Type} (b : Builder) (text : String) (f : Schema → Except Error α) : Except Error α × Builder :=
  match b.schema text with
  | (.ok i, b) => (f i.schema, b)
  | (.error error, b) => (.error error, b)

/-- The unselected tree of the root type of the schema of a text. -/
def generate (b : Builder) (text : String) (o : Options) : Except Error Tree × Builder :=
  b.withSchema text (·.generate o)

/-- The operation that a tree selects in the schema of a text. -/
def serialize (b : Builder) (text : String) (tree : Tree) (o : Options) : Except Error String × Builder :=
  b.withSchema text (·.serialize tree o)

/-- The operation that a tree in JSON selects in the schema of a text; the schema is not looked at if the value is not
a tree. -/
def serializeJson (b : Builder) (text : String) (value : Json) (o : Options) : Except Error String × Builder :=
  match Tree.ofJson value with
  | .error fault => (.error (.input fault), b)
  | .ok tree => b.serialize text tree o

/-- The operation that the edited tree of the schema of a text selects. -/
def build {α : Type} (b : Builder) (text : String) (edit : Tree → Tree × α) (o : Options) :
    Except Error (String × α) × Builder :=
  b.withSchema text (·.build edit o)

/-- A builder on one line: what it keeps. -/
def describe (b : Builder) : String := "QueryBuilder \x7b schemas: " ++ b.schemas.describe ++ " \x7d"

end Builder

end GraphSelect
