import GraphSelect.Schema.Merge
import GraphSelect.Schema.Validation

/-!
# Schemas from text

`Schema.parse` gives the schema that a text defines, or every problem of the text in its order. A schema that it gives
has no problem.
-/

namespace GraphSelect.Schema

/-- The schema of a document and everything that is wrong with it. -/
def check (text : String) (document : Document) : Schema × List Diagnostic :=
  let (s, problems) := document.merge
  ({ s with text }, problems ++ s.problems)

/-- The schema that a text defines, or what is wrong with the text. -/
def parse (text : String) : Except (List Diagnostic) Schema :=
  match Document.read? text with
  | none => .error [⟨.notADocument, none⟩]
  | some document =>
    match check text document with
    | (s, []) => .ok s
    | (_, problem :: problems) => .error (Diagnostic.sort (problem :: problems))

end GraphSelect.Schema
