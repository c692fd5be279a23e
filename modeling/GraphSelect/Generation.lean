import GraphSelect.Error
import GraphSelect.Options.Basic
import GraphSelect.Schema.Basic
import GraphSelect.Tree.Basic

/-!
# Generating trees

`Schema.expand` gives the tree of everything that can be selected on a type, all of it unselected. It follows the
fields of a type and the branches of an interface or union depth first, and carries the types on the way. A type that
is on the way already is not expanded again: it stands as its own fields, one level deep. As each step adds a type of
the schema to the way, the number of types that are not on it goes down, and the expansion ends on every schema.
-/

namespace GraphSelect.Schema

/-! ## The way to a type -/

/-- A type of the schema that is not on the way. -/
def IsNew (s : Schema) (visited : List String) (name : String) : Prop := name ∈ s.typeNames ∧ name ∉ visited

/-- How many types of the schema are not on the way. -/
def unvisited (s : Schema) (visited : List String) : Nat := (s.typeNames.filter fun n => n ∉ visited).length

/-- A step to a new type leaves fewer types. -/
theorem unvisited_cons_lt {s : Schema} {visited : List String} {name : String} (h : s.IsNew visited name) :
    s.unvisited (name :: visited) < s.unvisited visited := by
  have hsplit : (s.typeNames.filter fun n => n ∉ name :: visited) =
      (s.typeNames.filter fun n => n ∉ visited).filter fun n => n ≠ name := by
    rw [List.filter_filter]
    exact List.filter_congr fun n _ => by simp
  rw [unvisited, hsplit]
  exact List.length_filter_lt_length_iff_exists.mpr ⟨name, List.mem_filter.mpr ⟨h.1, by simpa using h.2⟩, by simp⟩

/-! ## Expansion -/

/-- The fields of a type as unselected leaves. -/
def shallow (s : Schema) (name : String) : Tree :=
  Tree.ofEntries ((s.fields name).map fun f => (f.name, .leaf false))

/-- The role of the branch for a field of a composite type. -/
def roleOf (kind : TypeKind) : Role := if kind.isAbstract then .fragment else .node

/-- The selection for a named type: a leaf, the type's own fields if it is on the way, or what `expand` gives for a
new type. -/
def selectionOf (s : Schema) (visited : List String) (name : String) (expand : s.IsNew visited name → Tree) :
    Option Selection :=
  match h : s.kind? name with
  | none => none
  | some kind =>
    if kind.isComposite then
      if hv : name ∈ visited then some (.branch .node (s.shallow name))
      else some (.branch (roleOf kind) (expand ⟨mem_typeNames_of_kind? h, hv⟩))
    else some (.leaf false)

/-- The leaf that asks for the name of the type, on an interface or union if it is wanted. -/
def typenameEntries (s : Schema) (withTypename : Bool) (name : String) : List (String × Selection) :=
  if withTypename && (s.kind? name).any TypeKind.isAbstract then [(Key.typename, .leaf false)] else []

/-- The tree of a type, `visited` being the way to it and the type itself. -/
def expand (s : Schema) (withTypename : Bool) (visited : List String) (name : String) : Tree :=
  let fields := (s.fields name).filterMap fun f =>
    (s.selectionOf visited f.type.base fun h =>
      have := unvisited_cons_lt h
      expand s withTypename (f.type.base :: visited) f.type.base).map (f.name, ·)
  let branches := (s.branchTypes name).filterMap fun t =>
    (s.selectionOf visited t fun h =>
      have := unvisited_cons_lt h
      expand s withTypename (t :: visited) t).map (Key.ofType t, ·)
  Tree.ofEntries (s.typenameEntries withTypename name ++ fields ++ branches)
termination_by s.unvisited visited

/-! ## Trees -/

/-- The tree of an object type that has fields. -/
def generateType (s : Schema) (type : String) (o : Options) : Except SchemaError Tree :=
  if s.kind? type = some .object ∧ (s.fields type).isEmpty = false then
    .ok (s.expand o.includeTypename [type] type)
  else .error (.invalidRootType type)

/-- The tree of the root type of the kind of operation that is asked for. -/
def generate (s : Schema) (o : Options) : Except Error Tree :=
  match s.root? o.kind with
  | none => .error (.operation (.missingRoot o.kind))
  | some root =>
    match s.generateType root o with
    | .ok tree => .ok tree
    | .error error => .error (.schema error)

end GraphSelect.Schema
