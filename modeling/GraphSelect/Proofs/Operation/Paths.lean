import GraphSelect.Proofs.Operation.Contribution
import GraphSelect.Proofs.Tree.Leaves
import Mathlib.Data.List.Perm.Subperm

/-!
# Paths of an operation

The paths of an operation lead from its selection set to its leaves: to scalar fields and names of types. They are
exactly the paths of the selected leaves of the tree that resolve, each of them once (`serialize_paths`).

The proof goes along the tree. What an entry contributes is one step in front of the paths of its body, the step that
the key of the entry means (`paths_leafContribution`, `paths_branchContributions`), and putting a body into order moves
its items but not their paths (`itemPaths_perm`).
-/

namespace GraphSelect

/-! ## Paths of items -/

mutual

/-- The paths from an item to the leaves under it. A field with an empty body leads to no leaf. -/
def Item.paths : Item → List (List Step)
  | .typename => [[.typename]]
  | .scalar name _ => [[.field name]]
  | .composite name _ body => (itemPaths body).map (.field name :: ·)
  | .fragment type body => (itemPaths body).map (.branch type :: ·)

/-- The paths from a selection set to its leaves. -/
def itemPaths : List Item → List (List Step)
  | [] => []
  | item :: items => item.paths ++ itemPaths items

end

/-- The paths from an operation to its leaves. -/
def Operation.paths (operation : Operation) : List (List Step) := itemPaths operation.items

theorem itemPaths_eq_flatMap : ∀ items : List Item, itemPaths items = items.flatMap Item.paths
  | [] => rfl
  | item :: items => by rw [itemPaths, itemPaths_eq_flatMap items, List.flatMap_cons]

theorem mem_itemPaths {items : List Item} {p : List Step} : p ∈ itemPaths items ↔ ∃ i ∈ items, p ∈ i.paths := by
  rw [itemPaths_eq_flatMap, List.mem_flatMap]

theorem itemPaths_append (is js : List Item) : itemPaths (is ++ js) = itemPaths is ++ itemPaths js := by
  simp only [itemPaths_eq_flatMap, List.flatMap_append]

theorem itemPaths_singleton (i : Item) : itemPaths [i] = i.paths := List.append_nil _

theorem itemPaths_perm {is js : List Item} (h : is.Perm js) : (itemPaths is).Perm (itemPaths js) := by
  rw [itemPaths_eq_flatMap, itemPaths_eq_flatMap]
  exact h.flatMap_right _

namespace Schema

open Contribution

variable {s : Schema} {provider : ArgumentProvider}

/-! ## Paths of entries -/

/-- The path of a leaf is the last step that its key means, if the leaf is selected. -/
theorem paths_leafContribution (type key : String) (selected : Bool) :
    itemPaths (items (s.leafContribution provider type key selected).toList) =
      if selected then (((s.meaning? type key).bind Meaning.ends?).map ([·])).toList else [] := by
  unfold leafContribution
  split
  · split
    · rename_i hm
      rw [hm]
      rfl
    · rename_i f hm
      rw [hm]
      rfl
    · rename_i htypename hleaf
      cases hm : s.meaning? type key with
      | none => rfl
      | some m =>
        cases m with
        | typename => exact absurd hm htypename
        | leaf f => exact absurd hm (hleaf f)
        | composite _ _ => rfl
        | branch _ _ => rfl
  · rfl

/-- The paths of a branch entry are, behind the step that its key means, the paths of its body. -/
theorem paths_branchContributions (type key : String) (role : Role) (body : Tree) :
    (itemPaths (items (s.branchContributions provider type key role body))).Perm
      (match (s.meaning? type key).bind Meaning.opens? with
        | some (st, next) => (itemPaths (items (s.contributions provider next body))).map (st :: ·)
        | none => []) := by
  rcases s.items_branchContributions_cases provider type key role body with
    ⟨f, kind, is, hm, hp, _, he⟩ | ⟨next, kind, is, hm, hp, _, he⟩ | ⟨he, hno⟩ <;> rw [he]
  · rw [hm, itemPaths_singleton]
    exact (itemPaths_perm hp).map _
  · rw [hm, itemPaths_singleton]
    exact (itemPaths_perm hp).map _
  · split
    · rename_i st next hm
      rw [hno st next hm]
      exact .refl _
    · exact .refl _

/-! ## Paths of trees -/

section Trees

variable (hs : s.IsValid)
include hs

theorem mem_paths_leafContribution {type key : String} {selected : Bool} {p : List Step} :
    p ∈ itemPaths (items (s.leafContribution provider type key selected).toList) ↔
      (p.map Step.key = [key] ∧ true = selected) ∧ s.Resolves type p := by
  rw [paths_leafContribution]
  constructor
  · intro h
    split at h
    · rename_i hb
      obtain ⟨st, hst, rfl⟩ := Option.map_eq_some_iff.mp (Option.mem_toList.mp h)
      obtain ⟨rfl, he⟩ := hs.ends_iff.mpr hst
      exact ⟨⟨rfl, hb.symm⟩, .last he⟩
    · cases h
  · rintro ⟨⟨hkey, rfl⟩, hr⟩
    obtain ⟨st, rfl, hst⟩ := List.map_eq_singleton_iff.mp hkey
    rw [if_pos rfl, hs.ends_iff.mp ⟨hst, resolves_singleton.mp hr⟩]
    exact List.mem_singleton_self _

/-- The paths that a tree contributes are those of its selected leaves that resolve. -/
theorem mem_paths_contributions : ∀ (t : Tree) {type : String}, (s.kind? type).isSome →
    ∀ {p : List Step}, p ∈ itemPaths (items (s.contributions provider type t)) ↔
      (p.map Step.key, true) ∈ t.leaves ∧ s.Resolves type p
  | .empty, _, _, _ => by simp [contributions, itemPaths, Tree.leaves]
  | .leaf key selected rest, type, ht, p => by
    rw [contributions, items_append, itemPaths_append, List.mem_append, mem_paths_contributions rest ht,
      Tree.mem_leaves_leaf, or_and_right, mem_paths_leafContribution hs]
  | .branch key role body rest, type, ht, p => by
    rw [contributions_branch, items_append, itemPaths_append, List.mem_append, mem_paths_contributions rest ht,
      Tree.mem_leaves_branch, or_and_right, (paths_branchContributions type key role body).mem_iff]
    refine or_congr_left ?_
    constructor
    · intro h
      split at h
      · rename_i st next hm
        obtain ⟨q, hq, rfl⟩ := List.mem_map.mp h
        obtain ⟨rfl, ho⟩ := (hs.opens_iff ht).mpr hm
        obtain ⟨hleaf, hr⟩ := (mem_paths_contributions body (hs.kind?_of_opens ht ho)).mp hq
        exact ⟨⟨_, rfl, hleaf⟩, .step ho hr⟩
      · cases h
    · rintro ⟨⟨q, hq, hleaf⟩, hr⟩
      obtain ⟨st, p', rfl, hst, rfl⟩ := List.map_eq_cons_iff.mp hq
      have hne : p' ≠ [] := by
        rintro rfl
        obtain ⟨_, _, he, _⟩ := Tree.exists_cons_of_mem_leaves hleaf
        cases he
      obtain ⟨next, ho, hr⟩ := (resolves_cons hne).mp hr
      rw [(hs.opens_iff ht).mp ⟨hst, ho⟩]
      exact List.mem_map_of_mem ((mem_paths_contributions body (hs.kind?_of_opens ht ho)).mpr ⟨hleaf, hr⟩)

/-- Different leaves give different paths: the keys of the paths that a tree contributes are keys of as many leaves. -/
theorem keys_paths_contributions_subperm : ∀ (t : Tree) {type : String}, (s.kind? type).isSome →
    ((itemPaths (items (s.contributions provider type t))).map (List.map Step.key)).Subperm t.leafPaths
  | .empty, _, _ => .refl _
  | .leaf key selected rest, type, ht => by
    rw [contributions, items_append, itemPaths_append, List.map_append, Tree.leafPaths_leaf]
    show List.Subperm (_ ++ _) ([[key]] ++ rest.leafPaths)
    refine List.Subperm.append ?_ (keys_paths_contributions_subperm rest ht)
    rw [paths_leafContribution]
    split
    · cases hm : (s.meaning? type key).bind Meaning.ends? with
      | none => exact List.nil_subperm
      | some st =>
        obtain ⟨rfl, _⟩ := hs.ends_iff.mpr hm
        exact .refl _
    · exact List.nil_subperm
  | .branch key role body rest, type, ht => by
    rw [contributions_branch, items_append, itemPaths_append, List.map_append, Tree.leafPaths_branch]
    refine List.Subperm.append ?_ (keys_paths_contributions_subperm rest ht)
    refine ((paths_branchContributions type key role body).map _).subperm.trans ?_
    split
    · rename_i st next hm
      obtain ⟨rfl, ho⟩ := (hs.opens_iff ht).mpr hm
      have ih := keys_paths_contributions_subperm body (hs.kind?_of_opens ht ho)
      have ih := ih.map (List.cons_injective (a := st.key))
      rw [List.map_map] at ih ⊢
      exact ih
    · exact List.nil_subperm

/-- A tree with distinct keys contributes no path twice, not even with other steps under the same keys. -/
theorem nodup_keys_paths_contributions {t : Tree} (htree : t.Distinct) {type : String} (ht : (s.kind? type).isSome) :
    ((itemPaths (items (s.contributions provider type t))).map (List.map Step.key)).Nodup := by
  obtain ⟨_, hperm, hsub⟩ := keys_paths_contributions_subperm (s := s) hs t ht
  exact hperm.nodup_iff.mp (htree.leafPaths_nodup.sublist hsub)

end Trees

/-! ## Paths of operations -/

/-- An item that fits leads to a leaf. -/
theorem Fits.paths_ne_nil {type : String} {i : Item} (h : s.Fits type i) : i.paths ≠ [] := by
  induction h with
  | typename => simp [Item.paths]
  | scalar _ => simp [Item.paths]
  | @composite _ _ _ _ body _ hne _ ih =>
    obtain ⟨j, js, rfl⟩ := List.exists_cons_of_ne_nil hne
    simp [Item.paths, itemPaths, ih j List.mem_cons_self]
  | @fragment _ _ body _ hne _ ih =>
    obtain ⟨j, js, rfl⟩ := List.exists_cons_of_ne_nil hne
    simp [Item.paths, itemPaths, ih j List.mem_cons_self]

theorem itemPaths_ne_nil {type : String} {is : List Item} (hne : is ≠ []) (h : ∀ i ∈ is, s.Fits type i) :
    itemPaths is ≠ [] := by
  obtain ⟨i, is, rfl⟩ := List.exists_cons_of_ne_nil hne
  simp [itemPaths, (h i List.mem_cons_self).paths_ne_nil]

/-- A selection set with exactly one selection at every level, along a path. -/
inductive IsChain : List Item → List Step → Prop
  | typename : IsChain [.typename] [.typename]
  | scalar {name : String} {arguments : List (String × Literal)} : IsChain [.scalar name arguments] [.field name]
  | composite {name : String} {arguments : List (String × Literal)} {body : List Item} {p : List Step} :
      IsChain body p → IsChain [.composite name arguments body] (.field name :: p)
  | fragment {type : String} {body : List Item} {p : List Step} : IsChain body p →
      IsChain [.fragment type body] (.branch type :: p)

/-- Items that lead to one path only are a single item. -/
theorem eq_singleton_of_itemPaths {is : List Item} {p : List Step} (h : ∀ i ∈ is, i.paths ≠ [])
    (hp : itemPaths is = [p]) : ∃ i, is = [i] ∧ i.paths = [p] := by
  cases is with
  | nil => cases hp
  | cons i is =>
    cases is with
    | nil => exact ⟨i, rfl, by rwa [itemPaths_singleton] at hp⟩
    | cons j js =>
      obtain ⟨q, qs, hq⟩ := List.exists_cons_of_ne_nil (h i List.mem_cons_self)
      obtain ⟨r, rs, hr⟩ := List.exists_cons_of_ne_nil (h j (by simp))
      simp [itemPaths, hq, hr] at hp

/-- An item that fits and leads to one leaf only is a chain to it. -/
theorem Fits.isChain {type : String} {i : Item} (h : s.Fits type i) : ∀ {p : List Step}, i.paths = [p] →
    IsChain [i] p := by
  induction h with
  | typename =>
    intro p hp
    obtain rfl := List.singleton_inj.mp hp
    exact .typename
  | scalar _ =>
    intro p hp
    obtain rfl := List.singleton_inj.mp hp
    exact .scalar
  | composite _ _ hfits ih =>
    intro p hp
    obtain ⟨q, hq, rfl⟩ := List.map_eq_singleton_iff.mp hp
    obtain ⟨j, rfl, hj⟩ := eq_singleton_of_itemPaths (fun j hj => (hfits j hj).paths_ne_nil) hq
    exact .composite (ih j List.mem_cons_self hj)
  | fragment _ _ hfits ih =>
    intro p hp
    obtain ⟨q, hq, rfl⟩ := List.map_eq_singleton_iff.mp hp
    obtain ⟨j, rfl, hj⟩ := eq_singleton_of_itemPaths (fun j hj => (hfits j hj).paths_ne_nil) hq
    exact .fragment (ih j List.mem_cons_self hj)

/-- Touched fields lead to no leaf. -/
theorem itemPaths_touchedItems (hs : s.IsValid) {type : String} (ht : (s.kind? type).isSome) (t : Tree) :
    itemPaths (touchedItems (s.contributions provider type t)) = [] := by
  obtain ⟨fs, hfs, _⟩ := exists_touchedItems_eq s provider hs ht t
  rw [hfs, itemPaths_eq_flatMap, List.flatMap_eq_nil_iff]
  intro i hi
  obtain ⟨f, _, rfl⟩ := List.mem_map.mp hi
  rfl

/-- The paths of the items of the root are those that the tree contributes. -/
theorem itemPaths_rootItems (hs : s.IsValid) {type : String} (ht : (s.kind? type).isSome) (t : Tree) :
    itemPaths (rootItems (s.contributions provider type t)) = itemPaths (items (s.contributions provider type t)) := by
  by_cases he : items (s.contributions provider type t) = []
  · rw [rootItems_eq_touchedItems he, itemPaths_touchedItems hs ht, he, itemPaths]
  · rw [rootItems_eq_items he]

/-- The paths of an operation are those that its tree contributes to the root. -/
theorem paths_operation (hs : s.IsValid) {tree : Tree} {o : Options} {op : Operation} {root : String}
    (hroot : s.root? o.kind = some root) (hop : s.operation tree o = .ok op) :
    op.paths = itemPaths (items (s.contributions o.provider root tree)) := by
  obtain ⟨root', hroot', _, _, hitems, _⟩ := operation_eq_ok hop
  obtain rfl := Option.some.inj (hroot'.symm.trans hroot)
  rw [Operation.paths, hitems, itemPaths_rootItems hs (hs.kind?_root hroot ▸ rfl)]

/-- The paths of a written operation are those of the selected leaves of the tree that resolve against the schema, each
of them once. If there are any, then nothing else is written: every item is on a way to one of them. If there are none,
then nothing but empty selection sets is. -/
theorem serialize_paths (hs : s.IsValid) {tree : Tree} (htree : tree.Distinct) {o : Options} {text : String}
    (h : s.serialize tree o = .ok text) :
    ∃ root op, s.root? o.kind = some root ∧ s.operation tree o = .ok op ∧ op.write = text ∧
      (op.paths.map (List.map Step.key)).Nodup ∧
      (∀ p, p ∈ op.paths ↔ (p.map Step.key, true) ∈ tree.leaves ∧ s.Resolves root p) ∧
      (op.paths ≠ [] → ∀ i ∈ op.items, s.Fits root i) ∧
      (op.paths = [] → ∀ i ∈ op.items, ∃ name arguments, i = .composite name arguments []) := by
  obtain ⟨op, hop, hwrite⟩ := serialize_eq_ok h
  obtain ⟨root, hroot, _, _, hitems, _⟩ := operation_eq_ok hop
  have ht : (s.kind? root).isSome := hs.kind?_root hroot ▸ rfl
  have hpaths := paths_operation hs hroot hop
  refine ⟨root, op, hroot, hop, hwrite, ?_, fun p => ?_, fun hne i hi => ?_, fun hnil i hi => ?_⟩
  · rw [hpaths]
    exact nodup_keys_paths_contributions hs htree ht
  · rw [hpaths]
    exact mem_paths_contributions hs tree ht
  · have hitems' : items (s.contributions o.provider root tree) ≠ [] := by
      intro he
      rw [hpaths, he, itemPaths] at hne
      exact hne rfl
    rw [hitems, rootItems_eq_items hitems'] at hi
    exact fits_of_mem_items hs tree ht i hi
  · have hitems' : items (s.contributions o.provider root tree) = [] := by
      by_contra hne
      exact itemPaths_ne_nil hne (fits_of_mem_items hs tree ht) (hpaths ▸ hnil)
    obtain ⟨fs, hfs, _⟩ := exists_touchedItems_eq s o.provider hs ht tree
    rw [hitems, rootItems_eq_touchedItems hitems', hfs] at hi
    obtain ⟨f, _, rfl⟩ := List.mem_map.mp hi
    exact ⟨_, _, rfl⟩

/-- A node with a selected field, a selected branch, a key that means nothing and a leaf that is not selected. -/
theorem serialize_paths_node : ∃ (s : Schema) (tree : Tree) (o : Options) (text : String),
    s.IsValid ∧ tree.Distinct ∧ s.serialize tree o = .ok text ∧ text = "query { node { id ... on User { name } } }" ∧
    ∃ root op, s.root? o.kind = some root ∧ s.operation tree o = .ok op ∧ op.write = text ∧
      (op.paths.map (List.map Step.key)).Nodup ∧
      (∀ p, p ∈ op.paths ↔ (p.map Step.key, true) ∈ tree.leaves ∧ s.Resolves root p) ∧
      (op.paths ≠ [] → ∀ i ∈ op.items, s.Fits root i) ∧
      (op.paths = [] → ∀ i ∈ op.items, ∃ name arguments, i = .composite name arguments []) := by
  let tree : Tree := .branch "node" .fragment (.leaf "id" true (.leaf "title" true
    (.branch "on_User" .node (.leaf "name" true (.leaf "id" false .empty)) .empty))) .empty
  have htree : tree.Distinct := by simp [tree, Tree.Distinct, Tree.keys]
  obtain ⟨s, hs, h⟩ := exists_isValid_of_parse
    "interface Node { id: ID } type User implements Node { id: ID name: ID } type Query { node: Node }"
    (fun s => decide ((s.serialize tree {}).toOption = some "query { node { id ... on User { name } } }"))
    (by decide +kernel)
  have htext := eq_ok_of_toOption_eq_some (of_decide_eq_true h)
  exact ⟨s, tree, {}, _, hs, htree, htext, rfl, serialize_paths hs htree htext⟩

end Schema

end GraphSelect
