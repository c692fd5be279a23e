import GraphSelect.Document.Basic
import GraphSelect.Schema.Basic
import GraphSelect.Schema.BuiltIn
import GraphSelect.Schema.Problem

/-!
# Schemas from documents

The definitions of a document are put together to a schema: each extension is added at the end of what it extends,
wherever it stands in the text, and of two parts with one name the first is kept and the other is a problem
(`firsts`). The result is a schema that may still break the rules of validation.
-/

namespace GraphSelect

/-! ## First occurrences -/

/-- The items that are the first with their name, apart from those whose name was `seen`, and the others. -/
def firsts {α : Type} (name : α → String) : List String → List α → List α × List α
  | _, [] => ([], [])
  | seen, x :: xs =>
    if name x ∈ seen then
      let (kept, repeated) := firsts name seen xs
      (kept, x :: repeated)
    else
      let (kept, repeated) := firsts name (name x :: seen) xs
      (x :: kept, repeated)

section Firsts

variable {α : Type} (name : α → String)

/-- What is kept is new, and no two kept items share a name. -/
theorem firsts_distinct (seen : List String) (xs : List α) :
    (∀ x ∈ (firsts name seen xs).1, name x ∉ seen) ∧ ((firsts name seen xs).1.map name).Nodup := by
  induction xs generalizing seen with
  | nil => simp [firsts]
  | cons x xs ih =>
    by_cases h : name x ∈ seen
    · simpa [firsts, h] using ih seen
    · obtain ⟨hnew, hnodup⟩ := ih (name x :: seen)
      simp only [firsts, h, if_false, List.mem_cons, List.map_cons, List.nodup_cons, List.mem_map]
      refine ⟨?_, ?_, hnodup⟩
      · rintro y (rfl | hy)
        · exact h
        · exact fun hs => hnew y hy (List.mem_cons_of_mem _ hs)
      · rintro ⟨y, hy, he⟩
        exact hnew y hy (by simp [he])

end Firsts

namespace Document

/-! ## Types -/

/-- The parts of a type followed by those of a type of the same sort. -/
def appendBody : TypeBody → TypeBody → TypeBody
  | .object interfaces fields, .object interfaces' fields' => .object (interfaces ++ interfaces') (fields ++ fields')
  | .interface interfaces fields, .interface interfaces' fields' =>
    .interface (interfaces ++ interfaces') (fields ++ fields')
  | .union members, .union members' => .union (members ++ members')
  | .enum values, .enum values' => .enum (values ++ values')
  | .input fields, .input fields' => .input (fields ++ fields')
  | body, _ => body

/-- A type with an extension added, or with the problem that it is of another sort. -/
def extendType (t : TypeDefinition) (e : TypeDefinition) : TypeDefinition × List Diagnostic :=
  if t.body.sort = e.body.sort then
    ({ t with body := appendBody t.body e.body, directives := t.directives ++ e.directives }, [])
  else (t, [⟨.extensionOfOtherSort e.body.sort t.name t.body.sort, some e.position⟩])

/-- A type with extensions added one after the other. -/
def extendAll : TypeDefinition → List TypeDefinition → TypeDefinition × List Diagnostic
  | t, [] => (t, [])
  | t, e :: es =>
    let (t, problems) := extendType t e
    let (t, more) := extendAll t es
    (t, problems ++ more)

/-- The problems of repeated parts. -/
def repeatedParts {α : Type} (part : TypePart) (t : TypeDefinition) (name : α → String) (position : α → Nat)
    (repeated : List α) : List Diagnostic :=
  repeated.map fun x => ⟨.repeatedPart part (name x) t.body.sort t.name, some (position x)⟩

/-- The problems of interfaces that are named again. -/
def repeatedInterfaces (t : TypeDefinition) (repeated : List Mention) : List Diagnostic :=
  repeated.map fun m => ⟨.repeatedInterface t.body.sort t.name m.name, some m.position⟩

/-- A type with the first of its parts of each name, and the problems of the others. -/
def keepFirstParts (t : TypeDefinition) : TypeDefinition × List Diagnostic :=
  match t.body with
  | .scalar => (t, [])
  | .object interfaces fields =>
    let (is, is') := firsts Mention.name [] interfaces
    let (fs, fs') := firsts Field.name [] fields
    ({ t with body := .object is fs }, repeatedInterfaces t is' ++ repeatedParts .field t Field.name Field.position fs')
  | .interface interfaces fields =>
    let (is, is') := firsts Mention.name [] interfaces
    let (fs, fs') := firsts Field.name [] fields
    ({ t with body := .interface is fs },
      repeatedInterfaces t is' ++ repeatedParts .field t Field.name Field.position fs')
  | .union members =>
    let (ms, ms') := firsts Mention.name [] members
    ({ t with body := .union ms }, repeatedParts .member t Mention.name Mention.position ms')
  | .enum values =>
    let (vs, vs') := firsts EnumValue.name [] values
    ({ t with body := .enum vs }, repeatedParts .value t EnumValue.name EnumValue.position vs')
  | .input fields =>
    let (fs, fs') := firsts InputValue.name [] fields
    ({ t with body := .input fs }, repeatedParts .field t InputValue.name InputValue.position fs')

/-- A type with all its extensions and without repeated parts. -/
def finishType (extensions : List TypeDefinition) (t : TypeDefinition) : TypeDefinition × List Diagnostic :=
  let (t, problems) := extendAll t (extensions.filter (·.name = t.name))
  let (t, more) := keepFirstParts t
  (t, problems ++ more)

/-- The type definitions of a document. -/
def typeDefinitions (document : Document) : List TypeDefinition :=
  document.filterMap fun
    | .type t => some t
    | _ => none

/-- The type extensions of a document. -/
def typeExtensions (document : Document) : List TypeDefinition :=
  document.filterMap fun
    | .typeExtension t => some t
    | _ => none

/-- The problem of a second definition of a type. -/
def repeatedType (t : TypeDefinition) : Diagnostic :=
  if t.body.sort = .scalar ∧ t.name ∈ BuiltIn.types.map (·.name) then ⟨.builtInRedefined, some t.position⟩
  else ⟨.repeatedType t.name, some t.position⟩

/-- The types that a document defines, after the built-in ones, and the problems of putting them together. -/
def mergeTypes (document : Document) : List TypeDefinition × List Diagnostic :=
  let (kept, repeated) := firsts TypeDefinition.name [] (BuiltIn.types ++ document.typeDefinitions)
  let extensions := document.typeExtensions
  let finished := kept.map (finishType extensions)
  let orphans := extensions.filter fun e => !(kept.any (·.name = e.name))
  (finished.map (·.1),
    repeated.map repeatedType ++ finished.flatMap (·.2)
      ++ orphans.map fun e => ⟨.extensionOfNothing e.name, some e.position⟩)

/-! ## Directives -/

/-- The directives that a document defines. -/
def directiveDefinitions (document : Document) : List DirectiveDefinition :=
  document.filterMap fun
    | .directive d => some d
    | _ => none

/-- The directives of a document, which may define a built-in one anew, and the problems of repeated ones. -/
def mergeDirectives (document : Document) : List DirectiveDefinition × List Diagnostic :=
  let (own, repeated) := firsts DirectiveDefinition.name [] document.directiveDefinitions
  (own ++ BuiltIn.directives.filter fun d => !(own.any (·.name = d.name)),
    repeated.map fun d => ⟨.repeatedDirectiveDefinition d.name, some d.position⟩)

/-! ## Roots -/

/-- The directives, the roots and the position of a definition of the schema itself. -/
abbrev SchemaPart := List Directive × List RootMention × Nat

/-- The definitions of the schema itself. -/
def schemaDefinitions (document : Document) : List SchemaPart :=
  document.filterMap fun
    | .schema directives roots position => some (directives, roots, position)
    | _ => none

/-- The extensions of the schema itself. -/
def schemaExtensions (document : Document) : List SchemaPart :=
  document.filterMap fun
    | .schemaExtension directives roots position => some (directives, roots, position)
    | _ => none

/-- The roots that a schema has when its document does not list them: the object types with the usual names. -/
def usualRoots (types : List TypeDefinition) : List RootMention :=
  (OperationKind.all.filter fun kind =>
    types.any fun t => t.name = kind.usualRoot && t.body.isObject).map fun kind => ⟨kind, ⟨kind.usualRoot, 0⟩⟩

/-- A schema with the roots and directives of some definitions of the schema itself, the first of each kind of root. -/
def withRoots (s : Schema) (implied : List RootMention) (parts : List SchemaPart) : Schema × List Diagnostic :=
  let (roots, repeated) := firsts (·.kind.keyword) [] (implied ++ parts.flatMap (·.2.1))
  ({ s with roots, rootDirectives := parts.flatMap (·.1) },
    repeated.map fun r => ⟨.repeatedRoot r.kind, some r.type.position⟩)

/-- A schema with the roots that a document lists or implies. An extension needs something to extend: a definition or
an implied root. -/
def mergeRoots (document : Document) (s : Schema) : Schema × List Diagnostic :=
  let extensions := document.schemaExtensions
  match document.schemaDefinitions with
  | first :: others =>
    let (s, problems) := withRoots { s with rootPosition? := some first.2.2 } [] (first :: extensions)
    (s, others.map (fun part => ⟨.repeatedSchema, some part.2.2⟩) ++ problems)
  | [] =>
    match usualRoots s.types with
    | [] => ({ s with roots := [] }, extensions.map fun part => ⟨.extensionOfNoSchema, some part.2.2⟩)
    | implied => withRoots s implied extensions

/-! ## Whole documents -/

/-- The problems of operations and fragments, which a schema may not hold. -/
def executableProblems (document : Document) : List Diagnostic :=
  document.filterMap fun
    | .operation _ position => some ⟨.operationInSchema, some position⟩
    | .fragment _ position => some ⟨.fragmentInSchema, some position⟩
    | _ => none

/-- The schema of a document, and the problems of putting it together. -/
def merge (document : Document) : Schema × List Diagnostic :=
  let (types, typeProblems) := document.mergeTypes
  let (directives, directiveProblems) := document.mergeDirectives
  let (s, rootProblems) := document.mergeRoots { types, directives, roots := [] }
  (s, document.executableProblems ++ typeProblems ++ directiveProblems ++ rootProblems)

end Document

end GraphSelect
