import GraphSelect.Error
import GraphSelect.Operation.Writer
import GraphSelect.Options.Basic
import GraphSelect.Resolution

/-!
# Operations from trees

An operation asks for the selected leaves of a tree that mean something on the types they stand under. Each entry of a
tree contributes an item, or nothing, or one of two marks for a body in which nothing is selected: `touched` for a field
whose body holds no such mark itself, `hollow` for what is around one. Where nothing at all is selected, the touched
fields of the root are written with empty bodies.

A body that may hold branches is written in a fixed order: the name of the type, then fields, then fragments.
-/

namespace GraphSelect

/-- What an entry of a tree contributes to the selection set around it. -/
inductive Contribution where
  | item (item : Item)
  | touched (item : Item)
  | hollow
deriving Repr, Inhabited

namespace Contribution

/-- The items among contributions. -/
def items (cs : List Contribution) : List Item :=
  cs.filterMap fun
    | .item i => some i
    | _ => none

/-- The fields without selection among contributions. -/
def touchedItems (cs : List Contribution) : List Item :=
  cs.filterMap fun
    | .touched i => some i
    | _ => none

/-- Items with the name of the type first, then the fields, then the fragments. -/
def sortItems (is : List Item) : List Item :=
  is.filter Item.isTypename ++ is.filter Item.isField ++ is.filter Item.isFragment

/-- Items in the order of a body: sorted, or as they are. -/
def arrange (sorted : Bool) (is : List Item) : List Item := if sorted then sortItems is else is

/-- The contribution of a field whose body has the given contributions. -/
def ofField (sorted : Bool) (write : List Item → Item) (cs : List Contribution) : Contribution :=
  match items cs, cs with
  | i :: is, _ => .item (write (arrange sorted (i :: is)))
  | [], [] => .touched (write [])
  | [], _ :: _ => .hollow

/-- The contribution, if any, of a branch whose body has the given contributions. -/
def ofBranch (sorted : Bool) (write : List Item → Item) (cs : List Contribution) : Option Contribution :=
  match items cs, cs with
  | i :: is, _ => some (.item (write (arrange sorted (i :: is))))
  | [], [] => none
  | [], _ :: _ => some .hollow

end Contribution

namespace Schema

/-- The contribution of a leaf under a key. -/
def leafContribution (s : Schema) (provider : ArgumentProvider) (parent key : String) (selected : Bool) :
    Option Contribution :=
  if selected then
    match s.meaning? parent key with
    | some .typename => some (.item .typename)
    | some (.leaf f) => some (.item (.scalar f.name (provider s parent f)))
    | _ => none
  else none

/-- Whether the body under a key is written in the fixed order: it stands on an interface or union, or is marked as
one that may hold branches. -/
def isSorted (kind : TypeKind) (role : Role) : Bool := kind.isAbstract || role = .fragment

/-- The contributions of the entries of a tree that is selected on the type `parent`. -/
def contributions (s : Schema) (provider : ArgumentProvider) (parent : String) : Tree → List Contribution
  | .empty => []
  | .leaf key selected rest =>
    (s.leafContribution provider parent key selected).toList ++ s.contributions provider parent rest
  | .branch key role body rest =>
    (match s.meaning? parent key with
      | some (.composite f kind) =>
        if body.isEmpty then []
        else
          [.ofField (isSorted kind role) (.composite f.name (provider s parent f))
            (s.contributions provider f.type.base body)]
      | some (.branch type kind) =>
        (Contribution.ofBranch (isSorted kind role) (.fragment type) (s.contributions provider type body)).toList
      | _ => []) ++ s.contributions provider parent rest

/-- The items of the root: what is selected, or the touched fields if nothing is. -/
def rootItems (cs : List Contribution) : List Item :=
  match Contribution.items cs with
  | [] => Contribution.touchedItems cs
  | i :: is => i :: is

/-- How deep selection sets may nest below the root. -/
def nestingLimit : Nat := 512

/-- The operation that a tree selects on the root type. An operation without items has no name. -/
def operation (s : Schema) (tree : Tree) (o : Options) : Except Error Operation :=
  match s.root? o.kind with
  | none => .error (.operation (.missingRoot o.kind))
  | some root =>
    if nestingLimit < s.nesting root tree then .error .recursionLimit
    else
      let items := rootItems (s.contributions o.provider root tree)
      .ok ⟨o.kind, if items.isEmpty then none else o.name?, items⟩

/-- The text of the operation that a tree selects. -/
def serialize (s : Schema) (tree : Tree) (o : Options) : Except Error String :=
  (s.operation tree o).map Operation.write

end Schema

end GraphSelect
