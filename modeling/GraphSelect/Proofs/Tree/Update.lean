import GraphSelect.Proofs.Tree.Entries
import GraphSelect.Proofs.Tree.Switching

/-!
# Setting a leaf is a point update

`Tree.set?` and `Tree.at?` go down the same way: below the first key, a set is a set of the selection that the key finds
(`get?_set`). So setting a leaf succeeds exactly where a look-up finds one (`isSome_set?`), the look-up then finds the
new value (`at?_set_self`), and what is found at any path that is no start of this one is found as before
(`at?_set_of_not_prefix`). The laws of a point update follow the entries of the tree: sets at different paths commute
(`set_comm`), of two sets at one path the second stays (`set_set`), and setting the value that is there changes nothing
(`set_eq_self`).
-/

namespace GraphSelect

/-! ## Selections -/

/-- The selection with the leaf at the end of a path set to a value; unchanged if the path leads to no leaf. -/
def Selection.set (value : Bool) : List String → Selection → Selection
  | [], .leaf _ => .leaf value
  | _ :: _, .leaf selected => .leaf selected
  | path, .branch role body => .branch role (body.set path value)

/-- The selection with every leaf set to one value. -/
def Selection.setAll (value : Bool) : Selection → Selection
  | .leaf _ => .leaf value
  | .branch role body => .branch role (body.setAll value)

/-- The role of a branch. A leaf has none. -/
def Selection.role? : Selection → Option Role
  | .leaf _ => none
  | .branch role _ => some role

theorem Selection.at?_leaf (path : List String) (b : Bool) :
    Selection.at? path (.leaf b) = if path = [] then some (.leaf b) else none := by
  cases path <;> rfl

theorem Selection.at?_branch {path : List String} (h : path ≠ []) (role : Role) (body : Tree) :
    Selection.at? path (.branch role body) = body.at? path := by
  cases path with
  | nil => exact absurd rfl h
  | cons _ _ => rfl

theorem Selection.set_branch (value : Bool) (path : List String) (role : Role) (body : Tree) :
    Selection.set value path (.branch role body) = .branch role (body.set path value) := by
  cases path <;> rfl

namespace Tree

/-! ## One level -/

theorem set_empty (path : List String) (value : Bool) : Tree.empty.set path value = .empty := by
  cases path <;> rfl

theorem set_cons (key : String) (path : List String) (value : Bool) (k : String) (sel : Selection) (rest : Tree) :
    (cons k sel rest).set (key :: path) value =
      if k = key then cons k (sel.set value path) rest else cons k sel (rest.set (key :: path) value) := by
  cases sel with
  | leaf selected =>
    rw [cons, set_leaf]
    cases path <;> rfl
  | branch role body => rw [cons, set_branch, Selection.set_branch, cons, cons]

/-- Under the first key of the path stands what was there with the rest of the path set, and all else is as it was. -/
theorem get?_set (key : String) (path : List String) (value : Bool) (k : String) (t : Tree) :
    (t.set (key :: path) value).get? k =
      if k = key then (t.get? k).map (Selection.set value path) else t.get? k := by
  induction t using entryInduction with
  | empty => rw [set_empty, get?, Option.map_none, ite_self]
  | cons k' sel rest _ ih =>
    rw [set_cons, get?_cons]
    by_cases hkey : k' = key
    · subst hkey
      rw [if_pos rfl, get?_cons]
      by_cases hk : k' = k
      · simp [hk]
      · simp [hk, Ne.symm hk]
    · rw [if_neg hkey, get?_cons, ih]
      by_cases hk : k' = k
      · subst hk
        simp [hkey]
      · rw [if_neg hk, if_neg hk]

/-! ## Success -/

/-- Setting a leaf succeeds exactly where a look-up finds one. -/
theorem isSome_set? (value : Bool) : ∀ (t : Tree) (path : List String),
    (t.set? value path).isSome = true ↔ ∃ b, t.at? path = some (.leaf b)
  | t, [] => by simp [set?, at?]
  | .empty, key :: path => by simp [set?, at?_cons, get?]
  | .leaf k selected rest, key :: path => by
    rw [set?_leaf, at?_cons, get?]
    by_cases hk : k = key
    · rw [if_pos hk, if_pos hk, Option.bind_some, Selection.at?_leaf]
      by_cases hp : path = [] <;> simp [hp]
    · rw [if_neg hk, if_neg hk, Option.isSome_map, isSome_set? value rest (key :: path), at?_cons]
  | .branch k role body rest, key :: path => by
    rw [set?_branch, at?_cons, get?]
    by_cases hk : k = key
    · rw [if_pos hk, if_pos hk, Option.isSome_map, isSome_set? value body path, Option.bind_some]
      cases path with
      | nil => simp [at?, Selection.at?]
      | cons _ _ => rfl
    · rw [if_neg hk, if_neg hk, Option.isSome_map, isSome_set? value rest (key :: path), at?_cons]

/-- Where setting a leaf succeeds, `set` gives the same tree, and where it fails, the tree as it was. -/
theorem set_eq_of_set? {t t' : Tree} {path : List String} {value : Bool} (h : t.set? value path = some t') :
    t.set path value = t' := by
  rw [set, h, Option.getD_some]

theorem set_eq_of_set?_eq_none {t : Tree} {path : List String} {value : Bool} (h : t.set? value path = none) :
    t.set path value = t := by
  rw [set, h, Option.getD_none]

/-! ## What paths find -/

/-- The path itself finds the new value. -/
theorem at?_set_self (value : Bool) : ∀ {path : List String} {t : Tree} {b : Bool}, t.at? path = some (.leaf b) →
    (t.set path value).at? path = some (.leaf value)
  | [], _, _, h => by cases h
  | key :: path, t, b, h => by
    rw [at?_cons] at h ⊢
    obtain ⟨sel, hsel, hat⟩ := Option.bind_eq_some_iff.mp h
    rw [get?_set, if_pos rfl, hsel, Option.map_some, Option.bind_some]
    cases sel with
    | leaf selected =>
      cases path with
      | nil => rfl
      | cons _ _ => cases hat
    | branch role body =>
      cases path with
      | nil => cases hat
      | cons k path => exact at?_set_self value hat

/-- A path that is no start of the one that is set finds what it found before. -/
theorem at?_set_of_not_prefix (value : Bool) : ∀ {path q : List String} (t : Tree), ¬ q <+: path →
    (t.set path value).at? q = t.at? q
  | _, [], _, h => absurd List.nil_prefix h
  | [], _ :: _, t, _ => by rw [set_nil]
  | key :: path, k :: q, t, h => by
    rw [at?_cons, at?_cons, get?_set]
    by_cases hk : k = key
    · rw [if_pos hk]
      have hq : ¬ q <+: path := fun hq => h (List.cons_prefix_cons.mpr ⟨hk, hq⟩)
      have hne : q ≠ [] := fun he => hq (he ▸ List.nil_prefix)
      cases t.get? k with
      | none => rfl
      | some sel =>
        cases sel with
        | leaf selected => cases path <;> simp [Selection.set, Selection.at?_leaf, hne]
        | branch role body =>
          rw [Option.map_some, Option.bind_some, Option.bind_some, Selection.set_branch, Selection.at?_branch hne,
            Selection.at?_branch hne, at?_set_of_not_prefix value body hq]
    · rw [if_neg hk]

/-! ## Laws of point updates -/

/-- Setting the value that is there changes nothing. -/
theorem set_eq_self {t : Tree} {path : List String} {b : Bool} (h : t.at? path = some (.leaf b)) :
    t.set path b = t := by
  induction t using entryInduction generalizing path with
  | empty => exact set_empty path b
  | cons k sel rest ihbody ih =>
    cases path with
    | nil => exact set_nil _ b
    | cons key path =>
      rw [at?_cons, get?_cons] at h
      rw [set_cons]
      by_cases hk : k = key
      · rw [if_pos hk, Option.bind_some] at h
        have hsel : sel.set b path = sel := by
          cases sel with
          | leaf selected =>
            rw [Selection.at?_leaf] at h
            split at h
            · subst path
              cases h
              rfl
            · cases h
          | branch role body =>
            cases path with
            | nil => cases h
            | cons _ _ => rw [Selection.set_branch, ihbody body rfl h]
        rw [if_pos hk, hsel]
      · rw [if_neg hk] at h
        rw [if_neg hk, ih ((at?_cons key path rest).trans h)]

/-- Of two values that are set at one path, the second stays. -/
theorem set_set (t : Tree) (path : List String) (value w : Bool) :
    (t.set path value).set path w = t.set path w := by
  induction t using entryInduction generalizing path with
  | empty => simp only [set_empty]
  | cons k sel rest ihbody ih =>
    cases path with
    | nil => simp only [set_nil]
    | cons key path =>
      have hsel : (sel.set value path).set w path = sel.set w path := by
        cases sel with
        | leaf _ => cases path <;> rfl
        | branch role body => rw [Selection.set_branch, Selection.set_branch, Selection.set_branch, ihbody body rfl]
      rw [set_cons, set_cons]
      by_cases hk : k = key
      · rw [if_pos hk, if_pos hk, set_cons, if_pos hk, hsel]
      · rw [if_neg hk, if_neg hk, set_cons, if_neg hk, ih]

/-- Sets at different paths commute. -/
theorem set_comm (t : Tree) {path q : List String} (h : q ≠ path) (value w : Bool) :
    (t.set path value).set q w = (t.set q w).set path value := by
  induction t using entryInduction generalizing path q with
  | empty => simp only [set_empty]
  | cons k sel rest ihbody ih =>
    cases path with
    | nil => rw [set_nil, set_nil]
    | cons key path =>
      cases q with
      | nil => rw [set_nil, set_nil]
      | cons key' q =>
        rw [set_cons, set_cons]
        by_cases hk : k = key
        · by_cases hk' : k = key'
          · have hne : q ≠ path := fun he => h (by rw [← hk, ← hk', he])
            have hsel : (sel.set value path).set w q = (sel.set w q).set value path := by
              cases sel with
              | leaf _ =>
                -- Only the empty path changes a leaf, and not both paths are empty.
                cases path <;> cases q <;> first | rfl | exact absurd rfl hne
              | branch role body => simp only [Selection.set_branch, ihbody body rfl hne]
            rw [if_pos hk, if_pos hk', set_cons, set_cons, if_pos hk, if_pos hk', hsel]
          · rw [if_pos hk, if_neg hk', set_cons, set_cons, if_pos hk, if_neg hk']
        · by_cases hk' : k = key'
          · rw [if_neg hk, if_pos hk', set_cons, set_cons, if_neg hk, if_pos hk']
          · rw [if_neg hk, if_neg hk', set_cons, set_cons, if_neg hk, if_neg hk', ih h]

/-! ## What stays the same at every level -/

theorem setAll_cons (b : Bool) (k : String) (sel : Selection) (t : Tree) :
    (cons k sel t).setAll b = cons k (sel.setAll b) (t.setAll b) := by
  cases sel <;> rfl

theorem get?_setAll (b : Bool) (key : String) (t : Tree) :
    (t.setAll b).get? key = (t.get? key).map (Selection.setAll b) := by
  induction t using entryInduction with
  | empty => rfl
  | cons k sel rest _ ih =>
    rw [setAll_cons, get?_cons, get?_cons, ih]
    split <;> rfl

theorem at?_setAll (b : Bool) : ∀ (path : List String) (t : Tree),
    (t.setAll b).at? path = (t.at? path).map (Selection.setAll b)
  | [], _ => rfl
  | key :: path, t => by
    rw [at?_cons, at?_cons, get?_setAll]
    cases t.get? key with
    | none => rfl
    | some sel =>
      cases sel with
      | leaf _ => cases path <;> rfl
      | branch role body =>
        cases path with
        | nil => rfl
        | cons k path => exact at?_setAll b (k :: path) body

theorem subtree?_setAll (b : Bool) : ∀ (path : List String) (t : Tree),
    (t.setAll b).subtree? path = (t.subtree? path).map (setAll b)
  | [], _ => rfl
  | key :: path, t => by
    rw [subtree?_cons, subtree?_cons, get?_setAll]
    cases t.get? key with
    | none => rfl
    | some sel =>
      cases sel with
      | leaf _ => rfl
      | branch role body => exact subtree?_setAll b path body

/-- Trees that differ in the values of leaves only have the same keys at every level. -/
theorem map_keys_subtree?_eq {t t' : Tree} (h : t'.setAll false = t.setAll false) (path : List String) :
    (t'.subtree? path).map keys = (t.subtree? path).map keys := by
  have hkeys : keys ∘ setAll false = keys := funext (keys_setAll false)
  have hsub := congrArg (fun u => (u.subtree? path).map keys) h
  simpa only [subtree?_setAll, Option.map_map, hkeys] using hsub

/-- Trees that differ in the values of leaves only have the same branches at every level, with the same roles. -/
theorem map_role?_at?_eq {t t' : Tree} (h : t'.setAll false = t.setAll false) (path : List String) :
    (t'.at? path).map Selection.role? = (t.at? path).map Selection.role? := by
  have hrole : Selection.role? ∘ Selection.setAll false = Selection.role? := by
    funext sel
    cases sel <;> rfl
  have hat := congrArg (fun u => (u.at? path).map Selection.role?) h
  simpa only [at?_setAll, Option.map_map, hrole] using hat

/-- Trees that differ in the values of leaves only have leaves at the same paths. -/
theorem exists_at?_leaf_iff {t t' : Tree} (h : t'.setAll false = t.setAll false) (path : List String) :
    (∃ b, t'.at? path = some (.leaf b)) ↔ ∃ b, t.at? path = some (.leaf b) := by
  have hleaf : ∀ u : Tree, (∃ b, u.at? path = some (.leaf b)) ↔ (u.at? path).map Selection.role? = some none := by
    intro u
    cases u.at? path with
    | none => simp
    | some sel => cases sel <;> simp [Selection.role?]
  rw [hleaf, hleaf, map_role?_at?_eq h]

/-- Whether a leaf can be set does not depend on what was set before. -/
theorem isSome_set?_set (t : Tree) (path q : List String) (value w : Bool) :
    ((t.set path value).set? w q).isSome = (t.set? w q).isSome := by
  rw [Bool.eq_iff_iff, isSome_set?, isSome_set?]
  exact exists_at?_leaf_iff (setAll_set false t path value) q

/-! ## Point updates -/

/-- Setting a leaf is a point update. It succeeds exactly where a look-up finds a leaf, and where it fails the tree is
as it was. Where it succeeds, the path finds the new value, every path that is no start of it finds what it found
before, and at every level the keys, their order, the roles of branches and the paths to leaves stay the same. So sets
at different paths commute, of two sets at one path the second stays, no set makes another one fail or succeed, and a
leaf that is selected and deselected again gives back the tree in which it was not selected. -/
theorem set_updates (t : Tree) (path : List String) (value : Bool) :
    ((t.set? value path).isSome = true ↔ ∃ b, t.at? path = some (.leaf b)) ∧
    (t.set? value path = none → t.set path value = t) ∧
    (∀ t', t.set? value path = some t' → t.set path value = t' ∧
      t'.at? path = some (.leaf value) ∧
      (∀ q, ¬ q <+: path → t'.at? q = t.at? q) ∧
      (∀ p, (t'.subtree? p).map keys = (t.subtree? p).map keys) ∧
      (∀ p, (t'.at? p).map Selection.role? = (t.at? p).map Selection.role?) ∧
      t'.leafPaths = t.leafPaths) ∧
    (∀ q w, q ≠ path → (t.set path value).set q w = (t.set q w).set path value) ∧
    (∀ w, (t.set path value).set path w = t.set path w) ∧
    (∀ q w, ((t.set path value).set? w q).isSome = (t.set? w q).isSome) ∧
    (t.at? path = some (.leaf false) → (t.set path true).set path false = t) := by
  refine ⟨isSome_set? value t path, set_eq_of_set?_eq_none, fun t' h => ?_, fun q w hq => set_comm t hq value w,
    set_set t path value, fun q w => isSome_set?_set t path q value w, fun h => ?_⟩
  · obtain ⟨b, hat⟩ := (isSome_set? value t path).mp (h ▸ rfl)
    have hset := set_eq_of_set? h
    have hshape := setAll_set? false h
    refine ⟨hset, hset ▸ at?_set_self value hat, fun q hq => hset ▸ at?_set_of_not_prefix value t hq,
      map_keys_subtree?_eq hshape, map_role?_at?_eq hshape, ?_⟩
    rw [← leafPaths_setAll false, hshape, leafPaths_setAll]
  · rw [set_set, set_eq_self h]

/-- A leaf beside a branch and a leaf below it. The one below is selected and deselected again. -/
theorem set_updates_friends : ∃ (t t' : Tree) (path : List String),
    t.at? path = some (.leaf false) ∧ t.set? true path = some t' ∧
    t'.at? path = some (.leaf true) ∧ t'.at? ["id"] = t.at? ["id"] ∧ ¬ ["id"] <+: path ∧
    t'.leafPaths = t.leafPaths ∧
    (t.set path true).set ["id"] true = (t.set ["id"] true).set path true ∧
    (t.set path true).set path false = t := by
  let t : Tree := .leaf "id" false (.branch "friends" .node (.leaf "name" false .empty) .empty)
  obtain ⟨-, -, hset, hcomm, -, -, hback⟩ := set_updates t ["friends", "name"] true
  obtain ⟨-, hself, hother, -, -, hpaths⟩ := hset _ rfl
  exact ⟨t, _, ["friends", "name"], rfl, rfl, hself, hother ["id"] (by decide), by decide, hpaths,
    (hcomm ["id"] true (by decide)), hback rfl⟩

end Tree

end GraphSelect
