import GraphSelect.Schema.Definition

/-!
# Schemas

A schema is a sequence of type definitions with the root types of its operations. The look-ups here say what a
selection can do with a named type: what kind it is, which fields it has, and which types an object of it can have.
-/

namespace GraphSelect

/-- A schema: its types and directives in order, and the root types that it names. -/
structure Schema where
  text : String := ""
  types : List TypeDefinition
  directives : List DirectiveDefinition := []
  roots : List RootMention
  rootDirectives : List Directive := []
  rootPosition? : Option Nat := none
deriving Repr, Inhabited

/-- What a named type offers to a selection: fields, fields and branches, branches, or nothing below it. -/
inductive TypeKind where
  | object
  | interface
  | union
  | leaf
deriving DecidableEq, Repr, Inhabited

namespace TypeKind

/-- Whether a selection on the type has a selection set. -/
def isComposite : TypeKind → Bool
  | .leaf => false
  | _ => true

/-- Whether an object of the type has a narrower type of its own. -/
def isAbstract : TypeKind → Bool
  | .interface => true
  | .union => true
  | _ => false

end TypeKind

/-- The kind of a type, if a selection can have it: none for an input object. -/
def TypeBody.kind? : TypeBody → Option TypeKind
  | .scalar => some .leaf
  | .object _ _ => some .object
  | .interface _ _ => some .interface
  | .union _ => some .union
  | .enum _ => some .leaf
  | .input _ => none

/-- The fields of an object or interface type. -/
def TypeBody.fields : TypeBody → List Field
  | .object _ fields => fields
  | .interface _ fields => fields
  | _ => []

/-- The interfaces that an object or interface type implements. -/
def TypeBody.interfaces : TypeBody → List Mention
  | .object interfaces _ => interfaces
  | .interface interfaces _ => interfaces
  | _ => []

/-- The members of a union type. -/
def TypeBody.members : TypeBody → List Mention
  | .union members => members
  | _ => []

/-- The fields of an input object. -/
def TypeBody.inputFields : TypeBody → List InputValue
  | .input fields => fields
  | _ => []

/-- Whether the type is an object type. -/
def TypeBody.isObject : TypeBody → Bool
  | .object _ _ => true
  | _ => false

/-- Whether an object or interface type names an interface among those it implements. -/
def TypeDefinition.implements (t : TypeDefinition) (interface : String) : Bool :=
  t.body.interfaces.any (·.name = interface)

namespace Schema

/-- The definition of a named type. -/
def type? (s : Schema) (name : String) : Option TypeDefinition := s.types.find? (·.name = name)

/-- What a named type consists of. -/
def body? (s : Schema) (name : String) : Option TypeBody := (s.type? name).map TypeDefinition.body

/-- The kind of a named type; none if there is no such type or it is an input object. -/
def kind? (s : Schema) (name : String) : Option TypeKind := (s.body? name).bind TypeBody.kind?

/-- The fields of a named type, in order. -/
def fields (s : Schema) (name : String) : List Field := ((s.body? name).map TypeBody.fields).getD []

/-- A field of a named type. -/
def field? (s : Schema) (type name : String) : Option Field := (s.fields type).find? (·.name = name)

/-- The object types that implement an interface, in order. -/
def implementers (s : Schema) (interface : String) : List String :=
  (s.types.filter fun t => t.body.isObject && t.implements interface).map (·.name)

/-- The members of a union, in order. -/
def members (s : Schema) (union : String) : List String :=
  ((s.body? union).map fun b => b.members.map Mention.name).getD []

/-- Whether an object of one type can have another as its type: the type itself, an object type that implements it, or
a member of it. -/
def isPossible (s : Schema) (parent type : String) : Bool :=
  parent = type || (s.implementers parent).contains type || (s.members parent).contains type

/-- The object types that a selection on an interface or union branches into. -/
def branchTypes (s : Schema) (name : String) : List String :=
  match s.kind? name with
  | some .interface => s.implementers name
  | some .union => s.members name
  | _ => []

/-- The root type of a kind of operation. -/
def root? (s : Schema) (kind : OperationKind) : Option String :=
  (s.roots.find? (·.kind = kind)).map (·.type.name)

/-- The definition of a directive. -/
def directive? (s : Schema) (name : String) : Option DirectiveDefinition := s.directives.find? (·.name = name)

/-- The names of the types. -/
def typeNames (s : Schema) : List String := s.types.map (·.name)

theorem mem_typeNames_of_type? {s : Schema} {name : String} {t : TypeDefinition} (h : s.type? name = some t) :
    name ∈ s.typeNames := by
  have hn := List.find?_some h
  simp only [decide_eq_true_eq] at hn
  exact List.mem_map.mpr ⟨t, List.mem_of_find?_eq_some h, hn⟩

/-- A type with a kind is a type of the schema. -/
theorem mem_typeNames_of_kind? {s : Schema} {name : String} {k : TypeKind} (h : s.kind? name = some k) :
    name ∈ s.typeNames := by
  obtain ⟨b, hb, _⟩ := Option.bind_eq_some_iff.mp h
  obtain ⟨t, ht, _⟩ := Option.map_eq_some_iff.mp hb
  exact mem_typeNames_of_type? ht

end Schema

end GraphSelect
