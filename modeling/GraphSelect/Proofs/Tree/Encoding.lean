import GraphSelect.Proofs.Tree.Roles
import GraphSelect.Proofs.Tree.Text
import GraphSelect.Proofs.Tree.Update

/-!
# Trees as JSON and back

A value that is read as a tree is written from it again, member for member (`toJson_of_ofJson`), as reading goes through
the members once and each selection stands for its value. The other way, what is written is read as the tree with its
roles found anew (`ofJson_toJson`): the role of a branch is that of a fragment exactly if one of its own keys is a
branch key (`role_of_at?_reread`, `roleOf_eq_fragment_iff`). The text that is written straight from a tree is the text
of its value (`toText_eq_write`).
-/

namespace GraphSelect

/-- What holds of no members, and of members if it holds of those inside the first value and of the others, holds of all
lists of members. -/
theorem Json.membersInduction {motive : List (String × Json) → Prop} (nil : motive [])
    (cons : ∀ key value members, (∀ inner, value = .object inner → motive inner) → motive members →
      motive ((key, value) :: members)) : ∀ members, motive members
  | [] => nil
  | (key, value) :: members =>
    cons key value members (fun inner _ => membersInduction nil cons inner) (membersInduction nil cons members)
termination_by members => sizeOf members

/-- A key is that of a branch exactly if it is the mark of branches with a character or more behind it. -/
theorem Key.isBranch_iff {key : String} : isBranch key = true ↔ ∃ type, type ≠ "" ∧ "on_" ++ type = key := by
  have hkey : ∀ type, ofType type = "on_" ++ type := by
    intro type
    apply String.toList_injective
    simp [ofType, branchMark]
  unfold isBranch
  rw [Option.isSome_iff_exists]
  constructor
  · rintro ⟨type, h⟩
    refine ⟨type, ?_, (hkey type).symm.trans (ofType_of_type? h).symm⟩
    rintro rfl
    unfold type? at h
    split at h
    · simpa using congrArg String.toList (Option.some.inj h)
    · cases h
  · rintro ⟨type, hne, rfl⟩
    exact ⟨type, hkey type ▸ type?_ofType hne⟩

/-- The JSON value of a selection. -/
def Selection.toJson : Selection → Json
  | .leaf selected => .bool selected
  | .branch _ body => body.toJson

/-- The selection with the roles of branches found anew. -/
def Selection.reread : Selection → Selection
  | .leaf selected => .leaf selected
  | .branch _ body => .branch (Tree.roleOf body) body.reread

namespace Tree

/-! ## From a value to a tree and back -/

theorem members_cons (key : String) (sel : Selection) (t : Tree) :
    toJson.members (cons key sel t) = (key, sel.toJson) :: toJson.members t := by
  cases sel <;> rfl

/-- A selection that is read stands for the value that it was read from, if that is so for the members inside. -/
theorem toJson_of_readSelection {key : String} {value : Json} {sel : Selection}
    (hinner : ∀ inner, value = .object inner → ∀ {t}, readMembers inner = .ok t → toJson.members t = inner)
    (h : readSelection key value = .ok sel) : sel.toJson = value := by
  cases value with
  | bool selected =>
    cases h
    rfl
  | object inner =>
    rw [readSelection] at h
    split at h
    · rename_i body hbody
      cases h
      rw [Selection.toJson, toJson, hinner inner rfl hbody]
    · cases h
    · cases h
  | null => cases h
  | number _ => cases h
  | string _ => cases h
  | array _ => cases h

theorem members_of_readMembers {members : List (String × Json)} {t : Tree} (h : readMembers members = .ok t) :
    toJson.members t = members := by
  induction members using Json.membersInduction generalizing t with
  | nil =>
    cases h
    rfl
  | cons key value members hinner ih =>
    rw [readMembers] at h
    split at h
    · cases h
    · rename_i sel hsel
      split at h
      · cases h
      · rename_i rest hrest
        cases h
        rw [members_cons, toJson_of_readSelection hinner hsel, ih hrest]

/-- A value that is read as a tree is the value of the tree. -/
theorem toJson_of_ofJson {value : Json} {t : Tree} (h : ofJson value = .ok t) : t.toJson = value := by
  cases value with
  | object members => exact congrArg _ (members_of_readMembers h)
  | null => cases h
  | bool _ => cases h
  | number _ => cases h
  | string _ => cases h
  | array _ => cases h

/-! ## Roles that are found anew -/

theorem roleOf_eq_fragment_iff {body : Tree} :
    roleOf body = .fragment ↔ ∃ type, type ≠ "" ∧ "on_" ++ type ∈ body.keys := by
  have hrole : roleOf body = .fragment ↔ body.hasBranchKey = true := by
    unfold roleOf
    split <;> simp [*]
  rw [hrole, hasBranchKey, List.any_eq_true]
  constructor
  · rintro ⟨key, hkey, hbranch⟩
    obtain ⟨type, hne, rfl⟩ := Key.isBranch_iff.mp hbranch
    exact ⟨type, hne, hkey⟩
  · rintro ⟨type, hne, hkey⟩
    exact ⟨_, hkey, Key.isBranch_iff.mpr ⟨type, hne, rfl⟩⟩

theorem reread_cons (k : String) (sel : Selection) (t : Tree) :
    (cons k sel t).reread = cons k sel.reread t.reread := by
  cases sel <;> rfl

theorem get?_reread (key : String) (t : Tree) : t.reread.get? key = (t.get? key).map Selection.reread := by
  induction t using entryInduction with
  | empty => rfl
  | cons k sel rest _ ih =>
    rw [reread_cons, get?_cons, get?_cons, ih]
    split <;> rfl

/-- In a tree that was read, the role of every branch is the one that its own keys give. -/
theorem role_of_at?_reread : ∀ {path : List String} {t : Tree} {role : Role} {body : Tree},
    t.reread.at? path = some (.branch role body) → role = roleOf body
  | [], _, _, _, h => by cases h
  | key :: path, t, role, body, h => by
    rw [at?_cons, get?_reread] at h
    obtain ⟨sel, hsel, hat⟩ := Option.bind_eq_some_iff.mp h
    obtain ⟨sel, _, rfl⟩ := Option.map_eq_some_iff.mp hsel
    cases sel with
    | leaf selected => cases path <;> cases hat
    | branch role' body' =>
      cases path with
      | nil =>
        cases hat
        exact (roleOf_reread body').symm
      | cons k path => exact role_of_at?_reread hat

/-! ## The text of a tree -/

/-- If the members of a tree are written as its entries are, then so is the object that they make up. -/
theorem writeChars_of {t : Tree}
    (h : Json.writeMembers (toJson.members t) = toText.separator t ++ toText.text t) :
    Json.writeChars (.object (toJson.members t)) = '{' :: toText.text t ++ ['}'] := by
  cases hm : toJson.members t with
  | nil =>
    obtain rfl := members_eq_nil_iff.mp hm
    rfl
  | cons m members =>
    have hsep : toText.separator t = [','] := by
      cases t with
      | empty => cases hm
      | leaf _ _ _ => rfl
      | branch _ _ _ _ => rfl
    rw [hm, hsep] at h
    have htext : toText.text t = (Json.writeMembers (m :: members)).tail := (congrArg List.tail h).symm
    simp [htext, Json.writeChars, Json.writeMembers]

theorem writeChars_bool (b : Bool) : Json.writeChars (.bool b) = (toString b).toList := by
  cases b <;> rfl

/-- The members of a tree are written with a comma in front of each, and its entries with a comma between two. -/
theorem writeMembers_members : ∀ t : Tree,
    Json.writeMembers (toJson.members t) = toText.separator t ++ toText.text t
  | .empty => rfl
  | .leaf key selected rest => by
    have hsep : toText.separator (.leaf key selected rest) = [','] := rfl
    rw [toJson.members, Json.writeMembers, writeMembers_members rest, writeChars_bool, hsep, toText.text]
    simp
  | .branch key role body rest => by
    have hsep : toText.separator (.branch key role body rest) = [','] := rfl
    rw [toJson.members, Json.writeMembers, writeMembers_members rest, writeChars_of (writeMembers_members body), hsep,
      toText.text]
    simp

/-- The text of a tree is the text of its value. -/
theorem toText_eq_write (t : Tree) : t.toText = t.toJson.write := by
  rw [toText, Json.write, toJson, writeChars_of (writeMembers_members t)]

/-! ## The round trip -/

/-- A value that is read as a tree comes back from it, with the keys in their order at every level. A tree that is
written is read again with nothing changed but the roles of branches: a branch is a fragment exactly if one of its own
keys is the mark of branches with a character or more behind it. Doing so twice is the same as once. The text that is
written from a tree at once is the text of its value. -/
theorem ofJson_roundTrip (t : Tree) :
    (∀ value u, ofJson value = .ok u → u.toJson = value) ∧
    (∃ u, ofJson t.toJson = .ok u ∧ t.Alike u ∧
      (∀ path role body, u.at? path = some (.branch role body) →
        (role = .fragment ↔ ∃ type, type ≠ "" ∧ "on_" ++ type ∈ body.keys)) ∧
      ofJson u.toJson = .ok u) ∧
    t.toText = t.toJson.write := by
  refine ⟨fun _ _ h => toJson_of_ofJson h, ⟨t.reread, ofJson_toJson t, alike_reread t, fun path role body h => ?_, ?_⟩,
    toText_eq_write t⟩
  · rw [role_of_at?_reread h, roleOf_eq_fragment_iff]
  · -- The tree that is read has the value that it is read from, so it is read from its own value.
    rw [toJson_of_ofJson (ofJson_toJson t)]
    exact ofJson_toJson t

/-- A branch with a branch key of its own that is no fragment, with a fragment that has none in it: read again, the two
change their roles, and then they stay. -/
theorem ofJson_roundTrip_node : ∃ t u inner : Tree, ofJson t.toJson = .ok u ∧ t.Alike u ∧ u.toJson = t.toJson ∧
    t.subtree? ["node"] = some inner ∧ "on_User" ∈ inner.keys ∧
    (t.at? ["node"]).map Selection.role? = some (some .node) ∧
    (u.at? ["node"]).map Selection.role? = some (some .fragment) ∧
    (t.at? ["node", "on_User"]).map Selection.role? = some (some .fragment) ∧
    (u.at? ["node", "on_User"]).map Selection.role? = some (some .node) ∧
    ofJson u.toJson = .ok u ∧ t.toText = t.toJson.write := by
  let user : Tree := .branch "on_User" .fragment (.leaf "name" true .empty) .empty
  let t : Tree := .branch "node" .node (.leaf "id" false user) .empty
  obtain ⟨hback, ⟨u, hread, halike, _, hagain⟩, htext⟩ := ofJson_roundTrip t
  obtain rfl := Except.ok.inj ((ofJson_toJson t).symm.trans hread)
  exact ⟨t, _, _, hread, halike, hback _ _ hread, rfl, by decide, rfl, by decide, rfl, by decide, hagain, htext⟩

end Tree

end GraphSelect
