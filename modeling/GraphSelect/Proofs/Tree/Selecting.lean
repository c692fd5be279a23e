import GraphSelect.Proofs.Tree.Update

/-!
# Leaves that are selected one after the other

Where keys are distinct, setting a leaf changes the value of one leaf and keeps all others, so it is a change of all
values at once that looks at their paths (`Distinct.set_eq_mapLeaves`). Such changes compose (`mapLeaves_mapLeaves`),
and so a sequence of selections is one change too, whatever its order: a leaf is selected if it was or if its path is
among those that were selected (`Distinct.edit_eq_mapLeaves`). Whether a path leads to a leaf is the same all along, and
so every text is judged as by the first tree (`snd_selectTexts`).
-/

namespace GraphSelect.Tree

/-! ## Changes of all leaves -/

/-- The tree with the value of each leaf found from its path and its value. -/
def mapLeaves (f : List String → Bool → Bool) : Tree → Tree
  | .empty => .empty
  | .leaf key selected rest => .leaf key (f [key] selected) (mapLeaves f rest)
  | .branch key role body rest => .branch key role (mapLeaves (fun path => f (key :: path)) body) (mapLeaves f rest)

theorem leaves_mapLeaves (f : List String → Bool → Bool) (t : Tree) :
    (t.mapLeaves f).leaves = t.leaves.map fun (path, b) => (path, f path b) := by
  induction t generalizing f with
  | empty => rfl
  | leaf _ _ _ ih => rw [mapLeaves, leaves, leaves, List.map_cons, ih]
  | branch _ _ _ _ ihbody ih =>
    rw [mapLeaves, leaves, leaves, List.map_append, ih, ihbody, List.map_map, List.map_map]
    rfl

theorem mapLeaves_mapLeaves (f g : List String → Bool → Bool) (t : Tree) :
    (t.mapLeaves f).mapLeaves g = t.mapLeaves fun path b => g path (f path b) := by
  induction t generalizing f g with
  | empty => rfl
  | leaf _ _ _ ih => rw [mapLeaves, mapLeaves, mapLeaves, ih]
  | branch _ _ _ _ ihbody ih => rw [mapLeaves, mapLeaves, mapLeaves, ih, ihbody]

/-- A change that keeps the value of every leaf keeps the tree. -/
theorem mapLeaves_eq_self {f : List String → Bool → Bool} {t : Tree} (h : ∀ path ∈ t.leafPaths, ∀ b, f path b = b) :
    t.mapLeaves f = t := by
  induction t generalizing f with
  | empty => rfl
  | leaf key selected rest ih =>
    rw [leafPaths_leaf] at h
    obtain ⟨hkey, hrest⟩ := List.forall_mem_cons.mp h
    rw [mapLeaves, hkey, ih hrest]
  | branch key role body rest ihbody ih =>
    rw [leafPaths_branch] at h
    obtain ⟨hbody, hrest⟩ := List.forall_mem_append.mp h
    rw [mapLeaves, ihbody (List.forall_mem_map.mp hbody), ih hrest]

/-- A change at one path keeps a tree in which no path to a leaf is that path. -/
theorem mapLeaves_of_not_mem {path : List String} {t : Tree} (h : path ∉ t.leafPaths) (value : Bool) :
    (t.mapLeaves fun q b => if q = path then value else b) = t :=
  mapLeaves_eq_self fun q hq _ => if_neg fun he : q = path => h (he ▸ hq)

theorem nil_not_mem_leafPaths (t : Tree) : [] ∉ t.leafPaths := by
  intro h
  obtain ⟨_, _, he, _⟩ := exists_cons_of_mem_leafPaths h
  cases he

/-- In a tree with distinct keys, setting a leaf changes the value at one path and keeps all others. -/
theorem Distinct.set_eq_mapLeaves : ∀ {t : Tree}, t.Distinct → ∀ (path : List String) (value : Bool),
    t.set path value = t.mapLeaves fun q b => if q = path then value else b
  | t, _, [], value => by rw [set_nil, mapLeaves_of_not_mem (nil_not_mem_leafPaths t)]
  | .empty, _, _ :: _, value => set_empty _ value
  | .leaf k selected rest, h, key :: path, value => by
    obtain ⟨hk, hrest⟩ := h
    rw [set_leaf, mapLeaves]
    by_cases hkey : k = key
    · subst hkey
      rw [if_pos rfl, mapLeaves_of_not_mem (mt mem_keys_of_cons_mem_leafPaths hk)]
      by_cases hp : path = []
      · rw [if_pos hp, if_pos (by rw [hp])]
      · rw [if_neg hp, if_neg fun he => hp (List.cons.inj he).2.symm]
    · rw [if_neg hkey, hrest.set_eq_mapLeaves, if_neg fun he => hkey (List.cons.inj he).1]
  | .branch k role body rest, h, key :: path, value => by
    obtain ⟨hk, hbody, hrest⟩ := h
    rw [set_branch, mapLeaves]
    by_cases hkey : k = key
    · subst hkey
      rw [if_pos rfl, mapLeaves_of_not_mem (mt mem_keys_of_cons_mem_leafPaths hk), hbody.set_eq_mapLeaves]
      simp only [List.cons.injEq, true_and]
    · have hkeep : (body.mapLeaves fun q b => if k :: q = key :: path then value else b) = body :=
        mapLeaves_eq_self fun _ _ _ => if_neg fun he => hkey (List.cons.inj he).1
      rw [if_neg hkey, hkeep, hrest.set_eq_mapLeaves]

/-- In a tree with distinct keys, a sequence of selections is one change: it selects the leaves at the paths in it. -/
theorem Distinct.edit_eq_mapLeaves {t : Tree} (h : t.Distinct) (paths : List (List String)) :
    t.edit (paths.map (·, true)) = t.mapLeaves fun q b => b || decide (q ∈ paths) := by
  induction paths generalizing t with
  | nil => exact (mapLeaves_eq_self fun _ _ b => by simp).symm
  | cons path paths ih =>
    have hset : (t.set path true).Distinct := h.edit [(path, true)]
    have hvalue : ∀ (q : List String) (b : Bool), ((if q = path then true else b) || decide (q ∈ paths)) =
        (b || decide (q ∈ path :: paths)) := by
      intro q b
      by_cases hq : q = path <;> simp [hq]
    show (t.set path true).edit (paths.map (·, true)) = _
    rw [ih hset, h.set_eq_mapLeaves, mapLeaves_mapLeaves]
    simp only [hvalue]

/-! ## Texts that name leaves -/

theorem isLeafPath_iff {t : Tree} {path : List String} :
    t.isLeafPath path = true ↔ ∃ b, t.at? path = some (.leaf b) := by
  unfold isLeafPath
  cases t.at? path with
  | none => simp
  | some sel => cases sel <;> simp

/-- Setting leaves does not change which paths lead to leaves. -/
theorem isLeafPath_set (t : Tree) (path q : List String) (value : Bool) :
    (t.set path value).isLeafPath q = t.isLeafPath q := by
  rw [Bool.eq_iff_iff, isLeafPath_iff, isLeafPath_iff]
  exact exists_at?_leaf_iff (setAll_set false t path value) q

/-- The texts that are reported are those that name no leaf of the tree at the start. -/
theorem snd_selectTexts (texts : List String) (t : Tree) :
    (t.selectTexts texts).2 = texts.filter fun text => !t.isLeafPath (splitPath text) := by
  induction texts generalizing t with
  | nil => rfl
  | cons text texts ih =>
    have hleaf : (t.set? true (splitPath text)).isSome = t.isLeafPath (splitPath text) := by
      rw [Bool.eq_iff_iff, isSome_set?, isLeafPath_iff]
    rw [selectTexts, List.filter_cons, ← hleaf]
    cases hset : t.set? true (splitPath text) with
    | none => simp [ih]
    | some t' =>
      rw [← set_eq_of_set? hset]
      simp [ih, isLeafPath_set]

/-- The tree after a selection by texts: a leaf is selected if it was, or if one of the texts names it. -/
theorem Distinct.fst_selectTexts {t : Tree} (h : t.Distinct) (texts : List String) :
    (t.selectTexts texts).1 = t.mapLeaves fun q b => b || decide (q ∈ texts.map splitPath) := by
  have hmap : texts.map (fun text => (splitPath text, true)) = (texts.map splitPath).map (·, true) := by
    rw [List.map_map]
    rfl
  rw [selectTexts_eq_edit, hmap, h.edit_eq_mapLeaves]

/-- Keys without points are told apart in the text that names their path. -/
theorem splitPath_joinPath {path : List String} (hne : path ≠ []) (h : ∀ key ∈ path, '.' ∉ key.toList) :
    splitPath (joinPath path) = path := by
  have hsplit : Text.split '.' (Text.join '.' (path.map String.toList)) = path.map String.toList :=
    Text.split_join (by simpa using hne) (List.forall_mem_map.mpr h)
  rw [splitPath, joinPath, String.toList_ofList, hsplit, List.map_map]
  simp [Function.comp_def]

end GraphSelect.Tree
