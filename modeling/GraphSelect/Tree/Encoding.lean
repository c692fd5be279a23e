import GraphSelect.Json.Writer
import GraphSelect.Tree.Path

/-!
# Selection trees as JSON

A tree is written as an object: a leaf is its truth value and a branch the object of its tree, so the role of a branch
is not written. A reader gives it back by one rule: a branch is a fragment exactly if one of its tree's own keys is a
branch key.
-/

namespace GraphSelect

/-- Why a JSON value is not a selection tree. -/
inductive ShapeFault where
  | notAnObject (found : Json.Kind)
  | notASelection (path : List String) (found : Json.Kind)
deriving DecidableEq, Repr

/-- The text for a fault. -/
def ShapeFault.message : ShapeFault → String
  | .notAnObject found => "selection tree must be an object, found " ++ found.phrase
  | .notASelection path found =>
    "selection at `" ++ Tree.joinPath path ++ "` must be a boolean or an object, found " ++ found.phrase

namespace Tree

/-- The JSON value of a tree. -/
def toJson (t : Tree) : Json := .object (members t)
where
  /-- The members of the object of a tree. -/
  members : Tree → List (String × Json)
    | .empty => []
    | .leaf key selected rest => (key, .bool selected) :: members rest
    | .branch key _ body rest => (key, .object (members body)) :: members rest

/-- The text of a tree on one line. -/
def toText (t : Tree) : String := String.ofList ('{' :: text t ++ ['}'])
where
  /-- The text of the entries of a tree, with a comma between two of them. -/
  text : Tree → List Char
    | .empty => []
    | .leaf key selected rest =>
      Json.writeString key ++ ':' :: (toString selected).toList ++ separator rest ++ text rest
    | .branch key _ body rest =>
      Json.writeString key ++ ':' :: '{' :: text body ++ '}' :: separator rest ++ text rest
  /-- A comma, if more entries follow. -/
  separator : Tree → List Char
    | .empty => []
    | _ => [',']

/-- The role of a branch that is known by its tree alone. -/
def roleOf (body : Tree) : Role := if body.hasBranchKey then .fragment else .node

mutual

/-- The selection that a JSON value found under `key` stands for. -/
def readSelection (key : String) : Json → Except ShapeFault Selection
  | .bool selected => .ok (.leaf selected)
  | .object members =>
    match readMembers members with
    | .ok body => .ok (.branch (roleOf body) body)
    | .error (.notASelection path found) => .error (.notASelection (key :: path) found)
    | .error fault => .error fault
  | .null => .error (.notASelection [key] .null)
  | .number _ => .error (.notASelection [key] .number)
  | .string _ => .error (.notASelection [key] .string)
  | .array _ => .error (.notASelection [key] .array)

/-- The tree that the members of an object stand for. -/
def readMembers : List (String × Json) → Except ShapeFault Tree
  | [] => .ok .empty
  | (key, value) :: members =>
    match readSelection key value with
    | .error fault => .error fault
    | .ok selection =>
      match readMembers members with
      | .error fault => .error fault
      | .ok rest => .ok (cons key selection rest)

end

/-- The tree that a JSON value stands for; the first fault is reported, depth first. -/
def ofJson : Json → Except ShapeFault Tree
  | .object members => readMembers members
  | value => .error (.notAnObject value.kind)

end Tree

end GraphSelect
