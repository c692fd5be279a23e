import GraphSelect.Proofs.Tree.Entries

/-!
# Edited trees

Setting a leaf changes its value and nothing else. What does not depend on the values of leaves is therefore the same
before and after: it is the same for a tree and for the tree with all leaves set to one value (`setAll_set?`). Such are
the paths to the leaves, the keys, and their being distinct. `Tree.edit` makes a whole sequence of such changes.
-/

namespace GraphSelect.Tree

/-- The tree after some leaves were set one after the other. A path that leads to no leaf changes nothing. -/
def edit (t : Tree) (edits : List (List String × Bool)) : Tree :=
  edits.foldl (fun t (path, value) => t.set path value) t

/-! ## The tree apart from the values of its leaves -/

theorem keys_setAll (b : Bool) (t : Tree) : (t.setAll b).keys = t.keys := by
  induction t with
  | empty => rfl
  | leaf _ _ _ ih => rw [setAll, keys, keys, ih]
  | branch _ _ _ _ _ ih => rw [setAll, keys, keys, ih]

theorem mem_entries_setAll (b : Bool) {key : String} {role : Role} {body : Tree} : ∀ {t : Tree},
    (key, .branch role body) ∈ t.entries → (key, .branch role (body.setAll b)) ∈ (t.setAll b).entries
  | .empty, h => by cases h
  | .leaf _ _ rest, h => by
    rcases List.mem_cons.mp h with he | h
    · cases he
    · exact List.mem_cons_of_mem _ (mem_entries_setAll b h)
  | .branch _ _ _ rest, h => by
    rcases List.mem_cons.mp h with he | h
    · cases he
      exact List.mem_cons_self
    · exact List.mem_cons_of_mem _ (mem_entries_setAll b h)

theorem leafPaths_setAll (b : Bool) (t : Tree) : (t.setAll b).leafPaths = t.leafPaths := by
  induction t with
  | empty => rfl
  | leaf _ _ _ ih => rw [setAll, leafPaths_leaf, leafPaths_leaf, ih]
  | branch _ _ _ _ ihbody ih => rw [setAll, leafPaths_branch, leafPaths_branch, ihbody, ih]

theorem distinct_setAll (b : Bool) (t : Tree) : (t.setAll b).Distinct ↔ t.Distinct := by
  induction t with
  | empty => rfl
  | leaf _ _ _ ih => rw [setAll, Distinct, Distinct, keys_setAll, ih]
  | branch _ _ _ _ ihbody ih => rw [setAll, Distinct, Distinct, keys_setAll, ihbody, ih]

theorem isEmpty_setAll (b : Bool) (t : Tree) : (t.setAll b).isEmpty = t.isEmpty := by
  cases t <;> rfl

/-- A tree in which all leaves have one value keeps it when they are set to that value. -/
theorem setAll_eq_self {b : Bool} : ∀ {t : Tree}, (∀ path c, (path, c) ∈ t.leaves → c = b) → t.setAll b = t
  | .empty, _ => rfl
  | .leaf key selected rest, h => by
    have hrest := setAll_eq_self fun path c hm => h path c (mem_leaves_leaf.mpr (.inr hm))
    rw [setAll, hrest, h [key] selected (mem_leaves_leaf.mpr (.inl ⟨rfl, rfl⟩))]
  | .branch key role body rest, h => by
    have hbody := setAll_eq_self fun path c hm => h (key :: path) c (mem_leaves_branch.mpr (.inl ⟨path, rfl, hm⟩))
    have hrest := setAll_eq_self fun path c hm => h path c (mem_leaves_branch.mpr (.inr hm))
    rw [setAll, hbody, hrest]

theorem set?_leaf (value : Bool) (key : String) (path : List String) (k : String) (selected : Bool) (rest : Tree) :
    (Tree.leaf k selected rest).set? value (key :: path) =
      if k = key then if path = [] then some (.leaf k value rest) else none
      else (rest.set? value (key :: path)).map (.leaf k selected) := by
  cases path <;> simp [set?]

theorem set?_branch (value : Bool) (key : String) (path : List String) (k : String) (role : Role) (body rest : Tree) :
    (Tree.branch k role body rest).set? value (key :: path) =
      if k = key then (body.set? value path).map fun body => .branch k role body rest
      else (rest.set? value (key :: path)).map (.branch k role body) := by
  cases path <;> simp [set?]

/-- Setting a leaf keeps everything but the value of the leaf. -/
theorem setAll_set? {value : Bool} (b : Bool) : ∀ {t t' : Tree} {path : List String}, t.set? value path = some t' →
    t'.setAll b = t.setAll b
  | _, _, [], h => by simp [set?] at h
  | .empty, _, _ :: _, h => by cases h
  | .leaf k selected rest, t', key :: path, h => by
    rw [set?_leaf] at h
    split at h
    · split at h
      · obtain rfl := Option.some.inj h
        rfl
      · cases h
    · obtain ⟨rest', hrest, rfl⟩ := Option.map_eq_some_iff.mp h
      rw [setAll, setAll, setAll_set? b hrest]
  | .branch k role body rest, t', key :: path, h => by
    rw [set?_branch] at h
    split at h
    · obtain ⟨body', hbody, rfl⟩ := Option.map_eq_some_iff.mp h
      rw [setAll, setAll, setAll_set? b hbody]
    · obtain ⟨rest', hrest, rfl⟩ := Option.map_eq_some_iff.mp h
      rw [setAll, setAll, setAll_set? b hrest]

theorem setAll_set (b : Bool) (t : Tree) (path : List String) (value : Bool) :
    (t.set path value).setAll b = t.setAll b := by
  unfold set
  cases h : t.set? value path with
  | none => rfl
  | some t' => exact setAll_set? b h

theorem setAll_edit (b : Bool) (edits : List (List String × Bool)) (t : Tree) :
    (t.edit edits).setAll b = t.setAll b := by
  induction edits generalizing t with
  | nil => rfl
  | cons e edits ih => exact (ih (t.set e.1 e.2)).trans (setAll_set b t e.1 e.2)

/-! ## Leaves of edited trees -/

theorem leafPaths_edit (t : Tree) (edits : List (List String × Bool)) : (t.edit edits).leafPaths = t.leafPaths := by
  rw [← leafPaths_setAll false, setAll_edit, leafPaths_setAll]

theorem Distinct.edit {t : Tree} (h : t.Distinct) (edits : List (List String × Bool)) : (t.edit edits).Distinct := by
  rw [← distinct_setAll false, setAll_edit, distinct_setAll]
  exact h

/-- A leaf of an edited tree is a leaf of the tree, perhaps with another value. -/
theorem exists_mem_leaves_of_edit {t : Tree} {edits : List (List String × Bool)} {path : List String} {b : Bool}
    (h : (path, b) ∈ (t.edit edits).leaves) : ∃ b', (path, b') ∈ t.leaves := by
  have hpath : path ∈ t.leafPaths := by
    rw [← leafPaths_edit t edits]
    exact List.mem_map_of_mem h
  obtain ⟨⟨_, b'⟩, hb', rfl⟩ := List.mem_map.mp hpath
  exact ⟨b', hb'⟩

/-! ## Changes at the end of a path -/

theorem isEmpty_insert (t : Tree) (key : String) (sel : Selection) : (t.insert key sel).isEmpty = false := by
  induction t using entryInduction with
  | empty => exact isEmpty_cons key sel .empty
  | cons k s rest _ _ =>
    rw [insert_cons]
    split
    · exact isEmpty_cons key sel rest
    · exact isEmpty_cons k s _

/-- A change that changes nothing can be made where any can. -/
theorem modify?_id {f : Tree → Tree} : ∀ {t u : Tree} {path : List String}, t.modify? f path = some u →
    t.modify? id path = some t
  | t, _, [], _ => by rw [modify?]; rfl
  | .empty, _, _ :: _, h => by cases h
  | .leaf k selected rest, u, key :: path, h => by
    rw [modify?] at h ⊢
    split at h
    · cases h
    · rename_i hk
      obtain ⟨rest', hrest, rfl⟩ := Option.map_eq_some_iff.mp h
      rw [if_neg hk, modify?_id hrest]
      rfl
  | .branch k role body rest, u, key :: path, h => by
    rw [modify?] at h ⊢
    split at h
    · rename_i hk
      obtain ⟨body', hbody, rfl⟩ := Option.map_eq_some_iff.mp h
      rw [if_pos hk, modify?_id hbody]
      rfl
    · rename_i hk
      obtain ⟨rest', hrest, rfl⟩ := Option.map_eq_some_iff.mp h
      rw [if_neg hk, modify?_id hrest]
      rfl

end GraphSelect.Tree
