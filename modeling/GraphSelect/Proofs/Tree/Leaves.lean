import GraphSelect.Tree.Path
import Mathlib.Data.List.Nodup

/-!
# Leaves of a selection tree

The paths that `Tree.leaves` lists start with a key of the tree, and in a tree with distinct keys no path is listed
twice.
-/

namespace GraphSelect.Tree

/-- A path to a leaf starts with a key of the tree. -/
theorem exists_cons_of_mem_leaves : ∀ {t : Tree} {path : List String} {b : Bool}, (path, b) ∈ t.leaves →
    ∃ key rest, path = key :: rest ∧ key ∈ t.keys
  | .empty, _, _, h => by cases h
  | .leaf key selected rest, path, b, h => by
    rcases List.mem_cons.mp h with h | h
    · cases h
      exact ⟨key, [], rfl, List.mem_cons_self⟩
    · obtain ⟨k, q, hq, hk⟩ := exists_cons_of_mem_leaves h
      exact ⟨k, q, hq, List.mem_cons_of_mem _ hk⟩
  | .branch key role body rest, path, b, h => by
    rcases List.mem_append.mp h with h | h
    · obtain ⟨⟨q, c⟩, _, he⟩ := List.mem_map.mp h
      cases he
      exact ⟨key, q, rfl, List.mem_cons_self⟩
    · obtain ⟨k, q, hq, hk⟩ := exists_cons_of_mem_leaves h
      exact ⟨k, q, hq, List.mem_cons_of_mem _ hk⟩

theorem mem_leaves_leaf {key : String} {selected b : Bool} {rest : Tree} {path : List String} :
    (path, b) ∈ (Tree.leaf key selected rest).leaves ↔ (path = [key] ∧ b = selected) ∨ (path, b) ∈ rest.leaves := by
  simp [leaves]

theorem mem_leaves_branch {key : String} {role : Role} {body rest : Tree} {path : List String} {b : Bool} :
    (path, b) ∈ (Tree.branch key role body rest).leaves ↔
      (∃ q, path = key :: q ∧ (q, b) ∈ body.leaves) ∨ (path, b) ∈ rest.leaves := by
  simp only [leaves, List.mem_append, List.mem_map, Prod.mk.injEq, Prod.exists]
  constructor
  · rintro (⟨q, _, hq, rfl, rfl⟩ | h)
    · exact .inl ⟨q, rfl, hq⟩
    · exact .inr h
  · rintro (⟨q, rfl, hq⟩ | h)
    · exact .inl ⟨q, b, hq, rfl, rfl⟩
    · exact .inr h

/-- A leaf of the tree that an entry holds is a leaf behind the key of the entry. -/
theorem cons_mem_leaves {key : String} {role : Role} {body : Tree} {path : List String} {b : Bool} :
    ∀ {t : Tree}, (key, .branch role body) ∈ t.entries → (path, b) ∈ body.leaves → (key :: path, b) ∈ t.leaves
  | .empty, h, _ => by cases h
  | .leaf _ _ rest, h, hp => by
    rcases List.mem_cons.mp h with h | h
    · cases h
    · exact mem_leaves_leaf.mpr (.inr (cons_mem_leaves h hp))
  | .branch _ _ _ rest, h, hp => by
    rcases List.mem_cons.mp h with h | h
    · cases h
      exact mem_leaves_branch.mpr (.inl ⟨path, rfl, hp⟩)
    · exact mem_leaves_branch.mpr (.inr (cons_mem_leaves h hp))

/-- The paths to the leaves of a tree. -/
def leafPaths (t : Tree) : List (List String) := t.leaves.map Prod.fst

theorem leafPaths_leaf (key : String) (selected : Bool) (rest : Tree) :
    (Tree.leaf key selected rest).leafPaths = [key] :: rest.leafPaths := rfl

theorem leafPaths_branch (key : String) (role : Role) (body rest : Tree) :
    (Tree.branch key role body rest).leafPaths = body.leafPaths.map (key :: ·) ++ rest.leafPaths := by
  simp [leafPaths, leaves, Function.comp_def]

theorem exists_cons_of_mem_leafPaths {t : Tree} {path : List String} (h : path ∈ t.leafPaths) :
    ∃ key rest, path = key :: rest ∧ key ∈ t.keys := by
  obtain ⟨⟨_, b⟩, hm, rfl⟩ := List.mem_map.mp h
  exact exists_cons_of_mem_leaves hm

theorem mem_keys_of_cons_mem_leafPaths {t : Tree} {key : String} {path : List String} (h : key :: path ∈ t.leafPaths) :
    key ∈ t.keys := by
  obtain ⟨k, q, he, hk⟩ := exists_cons_of_mem_leafPaths h
  rw [(List.cons.inj he).1]
  exact hk

/-- In a tree with distinct keys no path is listed twice. -/
theorem Distinct.leafPaths_nodup : ∀ {t : Tree}, t.Distinct → t.leafPaths.Nodup
  | .empty, _ => List.nodup_nil
  | .leaf key selected rest, h => by
    rw [leafPaths_leaf, List.nodup_cons]
    exact ⟨fun hm => h.1 (mem_keys_of_cons_mem_leafPaths hm), h.2.leafPaths_nodup⟩
  | .branch key role body rest, h => by
    rw [leafPaths_branch, List.nodup_append]
    refine ⟨h.2.1.leafPaths_nodup.map (List.cons_injective), h.2.2.leafPaths_nodup, fun p hp q hq he => ?_⟩
    obtain ⟨p, _, rfl⟩ := List.mem_map.mp hp
    exact h.1 (mem_keys_of_cons_mem_leafPaths (he ▸ hq))

end GraphSelect.Tree
