import GraphSelect.Text.Separated
import GraphSelect.Tree.Basic

/-!
# Paths in a selection tree

A path is a list of keys that leads from a tree through its branches. `at?` follows one, `set?` changes the leaf at
the end of one and nothing else, and `leaves` lists every leaf with its path, depth first.
-/

namespace GraphSelect.Tree

/-- The selection at the end of a path. -/
def at? : List String → Tree → Option Selection
  | [], _ => none
  | [key], t => t.get? key
  | key :: path, t =>
    match t.get? key with
    | some (.branch _ body) => at? path body
    | _ => none

/-- The tree at the end of a path, the tree itself for the empty path. -/
def subtree? : List String → Tree → Option Tree
  | [], t => some t
  | key :: path, t =>
    match t.get? key with
    | some (.branch _ body) => subtree? path body
    | _ => none

/-- The tree with the leaf at the end of a path set, if there is a leaf. -/
def set? (value : Bool) : List String → Tree → Option Tree
  | [], _ => none
  | _ :: _, .empty => none
  | key :: path, .leaf k selected rest =>
    if k = key then
      match path with
      | [] => some (.leaf k value rest)
      | _ :: _ => none
    else (set? value (key :: path) rest).map (.leaf k selected)
  | key :: path, .branch k role body rest =>
    if k = key then (set? value path body).map fun body => .branch k role body rest
    else (set? value (key :: path) rest).map (.branch k role body)

/-- The tree with the tree at the end of a path changed by `f`, if there is one. -/
def modify? (f : Tree → Tree) : List String → Tree → Option Tree
  | [], t => some (f t)
  | _ :: _, .empty => none
  | key :: path, .leaf k selected rest =>
    if k = key then none else (modify? f (key :: path) rest).map (.leaf k selected)
  | key :: path, .branch k role body rest =>
    if k = key then (modify? f path body).map fun body => .branch k role body rest
    else (modify? f (key :: path) rest).map (.branch k role body)

/-- The leaves of a tree with their paths, depth first. -/
def leaves : Tree → List (List String × Bool)
  | .empty => []
  | .leaf key selected rest => ([key], selected) :: leaves rest
  | .branch key _ body rest => (leaves body).map (fun (path, selected) => (key :: path, selected)) ++ leaves rest

/-- The tree with every leaf set to one value. -/
def setAll (value : Bool) : Tree → Tree
  | .empty => .empty
  | .leaf key _ rest => .leaf key value (setAll value rest)
  | .branch key role body rest => .branch key role (setAll value body) (setAll value rest)

/-! ## Selecting by path -/

/-- The tree with the leaf at the end of a path set to `value`; unchanged if the path leads to no leaf. -/
def set (t : Tree) (path : List String) (value : Bool) : Tree := (t.set? value path).getD t

/-- Whether a path leads to a leaf. -/
def isLeafPath (t : Tree) (path : List String) : Bool :=
  match t.at? path with
  | some (.leaf _) => true
  | _ => false

/-- The keys that a text names when they are written with a point between them. -/
def splitPath (text : String) : List String := (Text.split '.' text.toList).map String.ofList

/-- The text that names a path: its keys with a point between them. -/
def joinPath (path : List String) : String := String.ofList (Text.join '.' (path.map String.toList))

/-- Selects the leaves that some texts name one after the other: the tree, and the texts that name no leaf. -/
def selectTexts (t : Tree) : List String → Tree × List String
  | [] => (t, [])
  | text :: texts =>
    match t.set? true (splitPath text) with
    | some t => selectTexts t texts
    | none =>
      let (t, unknown) := selectTexts t texts
      (t, text :: unknown)

end GraphSelect.Tree
