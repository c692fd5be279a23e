import GraphSelect.Proofs.Tree.Entries

/-!
# The listing of leaves

`Tree.leaves` lists the leaves of a tree with their paths. The list that it gives is told by three properties
(`Tree.IsListing`): it has a pair exactly where a look-up along the path finds a leaf with the value, no path twice, and
the pairs in depth-first order, so that of two paths the one comes first whose key comes first where they part
(`Tree.Precedes`). No other list has the three properties (`Distinct.isListing_iff`).

Paths that part never part the other way round (`Precedes.asymm`), and each leaf of a tree parts from all that are
listed behind it (`Distinct.pairwise_precedes`); from these the order follows in both directions.

The same list comes of a walk through the tree (`Tree.visit`) that has one path, to which a key is added on the way down
and from which it is taken on the way back, and one list of the leaves that it met. After every tree the path is what it
was before, and the leaves of the tree were met behind that path (`visit_eq`). `leaves_depthFirst` puts both together.
-/

namespace GraphSelect.Tree

/-! ## The order of paths -/

/-- One path comes before another: at the first key where they differ, its key comes earlier in the tree there. -/
def Precedes (t : Tree) (p q : List String) : Prop :=
  ∃ common key key' rest rest' body, p = common ++ key :: rest ∧ q = common ++ key' :: rest' ∧
    t.subtree? common = some body ∧ key' ∈ body.keys ∧ body.keys.idxOf key < body.keys.idxOf key'

theorem not_precedes_nil_left (t : Tree) (q : List String) : ¬ t.Precedes [] q := by
  rintro ⟨common, key, key', rest, rest', body, hp, _⟩
  exact List.append_ne_nil_of_right_ne_nil common (List.cons_ne_nil key rest) hp.symm

theorem not_precedes_nil_right (t : Tree) (p : List String) : ¬ t.Precedes p [] := by
  rintro ⟨common, key, key', rest, rest', body, _, hq, _⟩
  exact List.append_ne_nil_of_right_ne_nil common (List.cons_ne_nil key' rest') hq.symm

/-- Two paths part at their first keys, or both go into the tree under one key and part there. -/
theorem precedes_cons {t : Tree} {key key' : String} {p q : List String} :
    t.Precedes (key :: p) (key' :: q) ↔
      (key' ∈ t.keys ∧ t.keys.idxOf key < t.keys.idxOf key') ∨
        (key = key' ∧ ∃ body, (t.get? key).bind Selection.body? = some body ∧ body.Precedes p q) := by
  constructor
  · rintro ⟨common, k, k', rest, rest', body, hp, hq, hbody, hmem, hlt⟩
    cases common with
    | nil =>
      cases hp
      cases hq
      cases hbody
      exact .inl ⟨hmem, hlt⟩
    | cons c common =>
      cases hp
      cases hq
      rw [subtree?_cons] at hbody
      obtain ⟨inner, hinner, hbody⟩ := Option.bind_eq_some_iff.mp hbody
      exact .inr ⟨rfl, inner, hinner, common, k, k', rest, rest', body, rfl, rfl, hbody, hmem, hlt⟩
  · rintro (⟨hmem, hlt⟩ | ⟨rfl, inner, hinner, common, k, k', rest, rest', body, rfl, rfl, hbody, hmem, hlt⟩)
    · exact ⟨[], key, key', p, q, t, rfl, rfl, rfl, hmem, hlt⟩
    · refine ⟨key :: common, k, k', rest, rest', body, rfl, rfl, ?_, hmem, hlt⟩
      rw [subtree?_cons, hinner]
      exact hbody

/-- Of two paths at most one comes before the other. -/
theorem Precedes.asymm : ∀ {p q : List String} {t : Tree}, t.Precedes p q → ¬ t.Precedes q p
  | [], q, t, h, _ => not_precedes_nil_left t q h
  | _ :: _, [], t, h, _ => not_precedes_nil_right t _ h
  | key :: p, key' :: q, t, h, h' => by
    rw [precedes_cons] at h h'
    -- Both say where the paths part: here, where one key only can come first, or in the tree under a key they share.
    rcases h with ⟨_, hlt⟩ | ⟨rfl, body, hbody, h⟩
    · rcases h' with ⟨_, hlt'⟩ | ⟨rfl, _⟩
      · exact Nat.lt_asymm hlt hlt'
      · exact Nat.lt_irrefl _ hlt
    · rcases h' with ⟨_, hlt'⟩ | ⟨_, body', hbody', h'⟩
      · exact Nat.lt_irrefl _ hlt'
      · obtain rfl := Option.some.inj (hbody.symm.trans hbody')
        exact h.asymm h'

theorem not_precedes_self (t : Tree) (p : List String) : ¬ t.Precedes p p := fun h => h.asymm h

/-! ## The order of leaves -/

section FirstEntry

variable {k : String} {rest : Tree} (hk : k ∉ rest.keys)
include hk

/-- A path through the first entry comes before the path to any leaf behind another entry. -/
theorem precedes_of_mem_leafPaths {q : List String} (hq : q ∈ rest.leafPaths) (sel : Selection) (p : List String) :
    (cons k sel rest).Precedes (k :: p) q := by
  obtain ⟨key, q, rfl, hkey⟩ := exists_cons_of_mem_leafPaths hq
  have hne : k ≠ key := fun he => hk (he ▸ hkey)
  rw [precedes_cons, keys_cons]
  refine .inl ⟨List.mem_cons_of_mem k hkey, ?_⟩
  rw [List.idxOf_cons_self, List.idxOf_cons_ne _ hne]
  exact Nat.succ_pos _

/-- Paths through the other entries are in the same order with an entry more in front. -/
theorem Precedes.behind {p q : List String} (h : rest.Precedes p q) (sel : Selection) :
    (cons k sel rest).Precedes p q := by
  cases p with
  | nil => exact absurd h (not_precedes_nil_left rest q)
  | cons key p =>
    cases q with
    | nil => exact absurd h (not_precedes_nil_right rest _)
    | cons key' q =>
      rw [precedes_cons] at h ⊢
      rcases h with ⟨hmem, hlt⟩ | ⟨rfl, body, hbody, h⟩
      · have hkey : key ∈ rest.keys := List.idxOf_lt_length_iff.mp (Nat.lt_of_lt_of_le hlt List.idxOf_le_length)
        have hne : k ≠ key := fun he => hk (he ▸ hkey)
        have hne' : k ≠ key' := fun he => hk (he ▸ hmem)
        rw [keys_cons, List.idxOf_cons_ne _ hne, List.idxOf_cons_ne _ hne']
        exact .inl ⟨List.mem_cons_of_mem k hmem, Nat.succ_lt_succ hlt⟩
      · have hne : k ≠ key := by
          rintro rfl
          rw [get?_eq_none_iff.mpr hk] at hbody
          cases hbody
        rw [get?_cons, if_neg hne]
        exact .inr ⟨rfl, body, hbody, h⟩

end FirstEntry

/-- Paths into the tree of the first entry are in the order that they have there. -/
theorem Precedes.inside {p q : List String} {body : Tree} (h : body.Precedes p q) (k : String) (role : Role)
    (rest : Tree) : (Tree.branch k role body rest).Precedes (k :: p) (k :: q) :=
  precedes_cons.mpr (.inr ⟨rfl, body, by rw [get?, if_pos rfl]; rfl, h⟩)

/-- Every leaf comes before those that are listed behind it. -/
theorem Distinct.pairwise_precedes : ∀ {t : Tree}, t.Distinct → t.leafPaths.Pairwise t.Precedes
  | .empty, _ => .nil
  | .leaf k selected rest, ⟨hk, hrest⟩ => by
    rw [leafPaths_leaf, List.pairwise_cons]
    exact ⟨fun q hq => precedes_of_mem_leafPaths hk hq (.leaf selected) [],
      hrest.pairwise_precedes.imp fun h => h.behind hk (.leaf selected)⟩
  | .branch k role body rest, ⟨hk, hbody, hrest⟩ => by
    rw [leafPaths_branch, List.pairwise_append, List.pairwise_map]
    refine ⟨hbody.pairwise_precedes.imp fun h => h.inside k role rest,
      hrest.pairwise_precedes.imp fun h => h.behind hk (.branch role body), fun p hp q hq => ?_⟩
    obtain ⟨p, _, rfl⟩ := List.mem_map.mp hp
    exact precedes_of_mem_leafPaths hk hq (.branch role body) p

/-- Where every pair comes before those behind it, the place of a pair in the list tells the order of the paths. -/
theorem pairwise_precedes_iff {t : Tree} {l : List (List String × Bool)} :
    (l.Pairwise fun x y => t.Precedes x.1 y.1) ↔
      ∀ (i j : Nat) p b q c, l[i]? = some (p, b) → l[j]? = some (q, c) → (i < j ↔ t.Precedes p q) := by
  rw [List.pairwise_iff_getElem]
  constructor
  · intro h
    have hlt : ∀ {i j : Nat} {p b q c}, l[i]? = some (p, b) → l[j]? = some (q, c) → i < j → t.Precedes p q := by
      intro i j p b q c hi hj hij
      obtain ⟨hi, hpi⟩ := List.getElem?_eq_some_iff.mp hi
      obtain ⟨hj, hqj⟩ := List.getElem?_eq_some_iff.mp hj
      simpa [hpi, hqj] using h i j hi hj hij
    intro i j p b q c hi hj
    refine ⟨hlt hi hj, fun hpq => ?_⟩
    -- In any other place the pair would come after itself or before one that comes before it.
    rcases Nat.lt_trichotomy i j with hij | rfl | hij
    · exact hij
    · obtain ⟨rfl, rfl⟩ := Prod.mk.inj (Option.some.inj (hi.symm.trans hj))
      exact absurd hpq (not_precedes_self t p)
    · exact absurd (hlt hj hi hij) hpq.asymm
  · intro h i j hi hj hij
    exact (h i j _ _ _ _ (List.getElem?_eq_getElem hi) (List.getElem?_eq_getElem hj)).mp hij

/-! ## Listings -/

/-- A list of paths with values holds the leaves of a tree, each of them once, depth first in the order of the keys. -/
structure IsListing (t : Tree) (l : List (List String × Bool)) : Prop where
  /-- What is listed is what a look-up finds. -/
  mem_iff : ∀ path b, (path, b) ∈ l ↔ t.at? path = some (.leaf b)
  /-- No path is listed twice. -/
  nodup : (l.map Prod.fst).Nodup
  /-- One pair comes before another exactly if its path does. -/
  lt_iff : ∀ (i j : Nat) p b q c, l[i]? = some (p, b) → l[j]? = some (q, c) → (i < j ↔ t.Precedes p q)

theorem Distinct.isListing_leaves {t : Tree} (h : t.Distinct) : t.IsListing t.leaves where
  mem_iff _ _ := h.mem_leaves_iff
  nodup := h.leafPaths_nodup
  lt_iff := pairwise_precedes_iff.mp (List.pairwise_map.mp h.pairwise_precedes)

/-- Two listings of one tree have the same pairs in the same order. -/
theorem IsListing.unique {t : Tree} {l l' : List (List String × Bool)} (h : t.IsListing l) (h' : t.IsListing l') :
    l = l' := by
  have hperm : l.Perm l' := by
    rw [List.perm_ext_iff_of_nodup h.nodup.of_map h'.nodup.of_map]
    exact fun ⟨path, b⟩ => (h.mem_iff path b).trans (h'.mem_iff path b).symm
  exact hperm.eq_of_pairwise (fun x y _ _ hxy hyx => absurd hyx hxy.asymm) (pairwise_precedes_iff.mpr h.lt_iff)
    (pairwise_precedes_iff.mpr h'.lt_iff)

theorem Distinct.isListing_iff {t : Tree} (h : t.Distinct) {l : List (List String × Bool)} :
    t.IsListing l ↔ l = t.leaves :=
  ⟨fun hl => hl.unique h.isListing_leaves, fun he => he ▸ h.isListing_leaves⟩

/-! ## A walk with one path -/

/-- A walk through a tree: the keys that lead to where it is, and the leaves that it met with their paths. -/
structure Visit where
  path : List String := []
  met : List (List String × Bool) := []

namespace Visit

/-- Goes down: a key is added to the path. -/
def enter (key : String) (v : Visit) : Visit := { v with path := v.path ++ [key] }

/-- Goes back up: the last key is taken from the path. -/
def leave (v : Visit) : Visit := { v with path := v.path.dropLast }

/-- Meets a leaf at the end of the path. -/
def meet (selected : Bool) (v : Visit) : Visit := { v with met := v.met ++ [(v.path, selected)] }

end Visit

/-- Walks through a tree, entry after entry. -/
def visit : Tree → Visit → Visit
  | .empty, v => v
  | .leaf key selected rest, v => rest.visit ((v.enter key).meet selected).leave
  | .branch key _ body rest, v => rest.visit (body.visit (v.enter key)).leave

/-- A walk through a tree comes back to where it started and has met the leaves of the tree in between. -/
theorem visit_eq (t : Tree) (v : Visit) :
    t.visit v = ⟨v.path, v.met ++ t.leaves.map fun (path, b) => (v.path ++ path, b)⟩ := by
  induction t generalizing v with
  | empty => simp [visit, leaves]
  | leaf key selected rest ih =>
    rw [visit, ih]
    simp [Visit.enter, Visit.meet, Visit.leave, leaves]
  | branch key role body rest ihbody ih =>
    rw [visit, ihbody, ih]
    simp [Visit.enter, Visit.leave, leaves, Function.comp_def]

theorem visit_start (t : Tree) : t.visit {} = ⟨[], t.leaves⟩ := by
  rw [visit_eq]
  simp

/-! ## Leaves, depth first -/

/-- The list of leaves is exact. It has a path with a value exactly where a look-up along the path finds a leaf with
that value, it has no path twice, and one pair comes before another exactly if at the first key where their paths differ
its key comes earlier in the tree there. It is the only such list, and it is what a walk through the tree with one path
and one list gives, which ends with the path that it started with. -/
theorem leaves_depthFirst {t : Tree} (h : t.Distinct) :
    (∀ path b, (path, b) ∈ t.leaves ↔ t.at? path = some (.leaf b)) ∧
    t.leafPaths.Nodup ∧
    (∀ (i j : Nat) p b q c, t.leaves[i]? = some (p, b) → t.leaves[j]? = some (q, c) → (i < j ↔ t.Precedes p q)) ∧
    (∀ l, t.IsListing l → l = t.leaves) ∧
    t.visit {} = ⟨[], t.leaves⟩ := by
  obtain ⟨hmem, hnodup, horder⟩ := h.isListing_leaves
  exact ⟨hmem, hnodup, horder, fun l => h.isListing_iff.mp, visit_start t⟩

/-- A leaf that stands behind a nested tree is listed after the leaf in it, and before the leaf of the next entry. -/
theorem leaves_depthFirst_node : ∃ t : Tree, t.Distinct ∧
    t.leaves = [(["user", "friends", "name"], true), (["user", "id"], false), (["node", "on_User", "name"], false)] ∧
    t.at? ["user", "id"] = some (.leaf false) ∧ t.at? ["user", "friends"] ≠ some (.leaf true) ∧
    t.leafPaths.Nodup ∧
    t.Precedes ["user", "friends", "name"] ["user", "id"] ∧ ¬ t.Precedes ["node", "on_User", "name"] ["user", "id"] ∧
    t.IsListing t.leaves ∧ t.visit {} = ⟨[], t.leaves⟩ := by
  let name (selected : Bool) : Tree := .leaf "name" selected .empty
  let t : Tree := .branch "user" .node (.branch "friends" .node (name true) (.leaf "id" false .empty))
    (.branch "node" .fragment (.branch "on_User" .node (name false) .empty) .empty)
  have ht : t.Distinct := by simp [t, name, Distinct, keys]
  obtain ⟨hmem, hnodup, horder, -, hvisit⟩ := leaves_depthFirst ht
  exact ⟨t, ht, rfl, (hmem _ _).mp (by decide), mt (hmem _ _).mpr (by decide), hnodup,
    (horder 0 1 _ _ _ _ rfl rfl).mp (by decide), mt (horder 2 1 _ _ _ _ rfl rfl).mpr (by decide),
    ⟨hmem, hnodup, horder⟩, hvisit⟩

end GraphSelect.Tree
