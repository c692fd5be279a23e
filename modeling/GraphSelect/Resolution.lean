import GraphSelect.Schema.Basic
import GraphSelect.Tree.Basic

/-!
# What keys stand for

A key of a selection tree has a meaning only on a type. `Schema.meaning?` finds it: the name of the type, a field, or a
branch for a type that objects can have there. A key that is none of these means nothing and is passed over wherever
trees are read against a schema. A field comes before a branch: a key that is both is the field.
-/

namespace GraphSelect

/-- What a key stands for in a selection on a type. -/
inductive Meaning where
  | typename
  | leaf (field : Field)
  | composite (field : Field) (kind : TypeKind)
  | branch (type : String) (kind : TypeKind)
deriving Repr, Inhabited

namespace Schema

/-- The meaning of a field by the kind of its type. -/
def fieldMeaning? (s : Schema) (f : Field) : Option Meaning :=
  (s.kind? f.type.base).map fun kind => if kind.isComposite then .composite f kind else .leaf f

/-- The meaning of a branch key, if objects of type `parent` can have the type that it names. -/
def branchMeaning? (s : Schema) (parent key : String) : Option Meaning :=
  (Key.type? key).bind fun type =>
    if s.isPossible parent type then (s.kind? type).map (.branch type) else none

/-- The meaning of a key in a selection on the type `parent`. -/
def meaning? (s : Schema) (parent key : String) : Option Meaning :=
  if key = Key.typename then some .typename
  else
    match s.field? parent key with
    | some f => s.fieldMeaning? f
    | none => s.branchMeaning? parent key

/-- The type that the tree under a key selects on: that of a composite field if the tree is not empty, or that of a
branch. -/
def target? (s : Schema) (parent key : String) (body : Tree) : Option String :=
  match s.meaning? parent key with
  | some (.composite f _) => if body.isEmpty then none else some f.type.base
  | some (.branch type _) => some type
  | _ => none

/-- The length of the longest chain of nested keys, starting from the type `parent`, that all have a target. -/
def nesting (s : Schema) (parent : String) : Tree → Nat
  | .empty => 0
  | .leaf _ _ rest => s.nesting parent rest
  | .branch key _ body rest =>
    match s.target? parent key body with
    | some type => max (s.nesting type body + 1) (s.nesting parent rest)
    | none => s.nesting parent rest

end Schema

end GraphSelect
