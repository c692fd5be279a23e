import GraphSelect.Proofs.Tree.Edit
import GraphSelect.Tree.Encoding

/-!
# Leaves that are switched on by name

Leaves can be selected in a tree or in its JSON value. In the value, the truth value at the end of a path is changed to
true, and all else stays as it is (`Json.switchOn`). Where keys are distinct that is the value of the tree in which the
leaf is set (`toJson_set`). So selecting leaves by the texts that name them, and switching them on in the value, come to
the same (`toJson_selectTexts`).
-/

namespace GraphSelect

/-- The members with the value of each that has the key changed by a function. -/
def Json.changeMember (key : String) (f : Json → Json) : List (String × Json) → List (String × Json)
  | [] => []
  | (k, value) :: members => (k, if k = key then f value else value) :: changeMember key f members

/-- The value with the truth value at the end of a path changed to true. Where the path leads to none, nothing is
changed. -/
def Json.switchOn : List String → Json → Json
  | [], .bool _ => .bool true
  | key :: path, .object members => .object (changeMember key (switchOn path) members)
  | _, value => value

/-- The value with the truth values that some texts name changed to true. -/
def Json.switchOnAll (texts : List String) (value : Json) : Json :=
  texts.foldl (fun value text => value.switchOn (Tree.splitPath text)) value

namespace Tree

open Json

/-! ## Single leaves -/

theorem set_nil (t : Tree) (value : Bool) : t.set [] value = t := by
  rw [set, set?]
  rfl

theorem set_leaf (key : String) (path : List String) (k : String) (selected : Bool) (rest : Tree) (value : Bool) :
    (Tree.leaf k selected rest).set (key :: path) value =
      if k = key then if path = [] then .leaf k value rest else .leaf k selected rest
      else .leaf k selected (rest.set (key :: path) value) := by
  rw [set, set?_leaf, set]
  split
  · split <;> rfl
  · cases rest.set? value (key :: path) <;> rfl

theorem set_branch (key : String) (path : List String) (k : String) (role : Role) (body rest : Tree) (value : Bool) :
    (Tree.branch k role body rest).set (key :: path) value =
      if k = key then .branch k role (body.set path value) rest
      else .branch k role body (rest.set (key :: path) value) := by
  rw [set, set?_branch, set, set]
  split
  · cases body.set? value path <;> rfl
  · cases rest.set? value (key :: path) <;> rfl

/-- Where no member has a key, no member is changed. -/
theorem changeMember_of_not_mem {key : String} (f : Json → Json) : ∀ {t : Tree}, key ∉ t.keys →
    changeMember key f (toJson.members t) = toJson.members t
  | .empty, _ => rfl
  | .leaf k selected rest, h => by
    rw [keys, List.mem_cons, not_or] at h
    rw [toJson.members, changeMember, changeMember_of_not_mem f h.2, if_neg (Ne.symm h.1)]
  | .branch k role body rest, h => by
    rw [keys, List.mem_cons, not_or] at h
    rw [toJson.members, changeMember, changeMember_of_not_mem f h.2, if_neg (Ne.symm h.1)]

mutual

theorem members_set : ∀ {t : Tree}, t.Distinct → ∀ (key : String) (path : List String),
    toJson.members (t.set (key :: path) true) = changeMember key (switchOn path) (toJson.members t)
  | .empty, _, _, _ => rfl
  | .leaf k selected rest, h, key, path => by
    obtain ⟨hk, hrest⟩ := h
    rw [set_leaf, toJson.members, changeMember]
    by_cases hkey : k = key
    · subst hkey
      rw [if_pos rfl, if_pos rfl, changeMember_of_not_mem _ hk]
      cases path <;> rfl
    · rw [if_neg hkey, if_neg hkey, ← members_set hrest, toJson.members]
  | .branch k role body rest, h, key, path => by
    obtain ⟨hk, hbody, hrest⟩ := h
    rw [set_branch, toJson.members, changeMember]
    by_cases hkey : k = key
    · subst hkey
      have hset : switchOn path (.object (toJson.members body)) = .object (toJson.members (body.set path true)) :=
        (toJson_set hbody path).symm
      rw [if_pos rfl, if_pos rfl, changeMember_of_not_mem _ hk, hset, toJson.members]
    · rw [if_neg hkey, if_neg hkey, ← members_set hrest, toJson.members]

/-- Setting a leaf in a tree switches on its truth value. -/
theorem toJson_set : ∀ {t : Tree}, t.Distinct → ∀ path : List String,
    (t.set path true).toJson = t.toJson.switchOn path
  | t, _, [] => by
    rw [set_nil]
    rfl
  | t, h, key :: path => by rw [toJson, members_set h, toJson, switchOn]

end

/-! ## Leaves that are named by texts -/

/-- Selecting leaves by texts is an edit. -/
theorem selectTexts_eq_edit : ∀ (texts : List String) (t : Tree),
    (t.selectTexts texts).1 = t.edit (texts.map fun text => (splitPath text, true))
  | [], _ => rfl
  | text :: texts, t => by
    show _ = (t.set (splitPath text) true).edit _
    rw [selectTexts, set]
    cases t.set? true (splitPath text) with
    | none => exact selectTexts_eq_edit texts t
    | some t' => exact selectTexts_eq_edit texts t'

/-- Selecting leaves in a tree switches on what the same texts name in its value. -/
theorem toJson_selectTexts {t : Tree} (h : t.Distinct) (texts : List String) :
    (t.selectTexts texts).1.toJson = t.toJson.switchOnAll texts := by
  rw [selectTexts_eq_edit]
  induction texts generalizing t with
  | nil => rfl
  | cons text texts ih =>
    have hset := ih (h.edit [(splitPath text, true)])
    rw [Json.switchOnAll, List.foldl_cons, ← toJson_set h]
    exact hset

/-! ## What stays the same -/

theorem depth_setAll (b : Bool) : ∀ t : Tree, (t.setAll b).depth = t.depth
  | .empty => rfl
  | .leaf _ _ rest => by rw [setAll, depth, depth, depth_setAll b rest]
  | .branch _ _ body rest => by rw [setAll, depth, depth, depth_setAll b body, depth_setAll b rest]

/-- Selecting leaves by texts keeps everything but the values of leaves. -/
theorem setAll_selectTexts (b : Bool) (texts : List String) (t : Tree) :
    (t.selectTexts texts).1.setAll b = t.setAll b := by
  rw [selectTexts_eq_edit, setAll_edit]

theorem Distinct.selectTexts {t : Tree} (h : t.Distinct) (texts : List String) : (t.selectTexts texts).1.Distinct := by
  rw [← distinct_setAll false, setAll_selectTexts, distinct_setAll]
  exact h

theorem depth_selectTexts (texts : List String) (t : Tree) : (t.selectTexts texts).1.depth = t.depth := by
  rw [← depth_setAll false, setAll_selectTexts, depth_setAll]

end Tree

end GraphSelect
