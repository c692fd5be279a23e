import GraphSelect.Proofs.Tree.Entries
import GraphSelect.Tree.Encoding

/-!
# Roles that are not written

A tree in JSON does not say which of its branches are fragments. What a reader makes of it is the tree with every role
found anew by the keys below (`reread`), and nothing else is changed (`ofJson_toJson`, `alike_reread`). Two trees that
differ in roles only are alike (`Alike`): as far as roles are not looked at, they are the same tree.
-/

namespace GraphSelect.Tree

/-! ## Alike trees -/

/-- Two trees have the same entries in the same order, but for the roles of branches. -/
inductive Alike : Tree → Tree → Prop
  | empty : Alike .empty .empty
  | leaf {key : String} {selected : Bool} {rest rest' : Tree} : Alike rest rest' →
      Alike (.leaf key selected rest) (.leaf key selected rest')
  | branch {key : String} {role role' : Role} {body body' rest rest' : Tree} : Alike body body' → Alike rest rest' →
      Alike (.branch key role body rest) (.branch key role' body' rest')

theorem Alike.isEmpty_eq {t u : Tree} (h : t.Alike u) : t.isEmpty = u.isEmpty := by
  cases h <;> rfl

/-! ## Trees that are read again -/

/-- The tree with each branch a fragment exactly if one of the keys of its tree is a branch key. -/
def reread : Tree → Tree
  | .empty => .empty
  | .leaf key selected rest => .leaf key selected rest.reread
  | .branch key _ body rest => .branch key (roleOf body) body.reread rest.reread

theorem alike_reread : ∀ t : Tree, t.Alike t.reread
  | .empty => .empty
  | .leaf _ _ rest => .leaf (alike_reread rest)
  | .branch _ _ body rest => .branch (alike_reread body) (alike_reread rest)

@[simp] theorem keys_reread : ∀ t : Tree, t.reread.keys = t.keys
  | .empty => rfl
  | .leaf key _ rest => congrArg (key :: ·) (keys_reread rest)
  | .branch key _ _ rest => congrArg (key :: ·) (keys_reread rest)

/-- Whether a branch is a fragment does not depend on the roles below it. -/
theorem roleOf_reread (t : Tree) : roleOf t.reread = roleOf t := by
  rw [roleOf, roleOf, hasBranchKey, hasBranchKey, keys_reread]

theorem readMembers_members : ∀ t : Tree, readMembers (toJson.members t) = .ok t.reread
  | .empty => rfl
  | .leaf key selected rest => by
    rw [toJson.members, readMembers, readSelection, readMembers_members rest]
    rfl
  | .branch key role body rest => by
    rw [toJson.members, readMembers, readSelection, readMembers_members body, readMembers_members rest]
    dsimp only
    rw [roleOf_reread]
    rfl

/-- What was written is read as the tree with its roles found anew. -/
theorem ofJson_toJson (t : Tree) : ofJson t.toJson = .ok t.reread :=
  readMembers_members t

end GraphSelect.Tree
