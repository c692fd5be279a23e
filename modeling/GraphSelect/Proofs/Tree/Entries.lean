import GraphSelect.Proofs.Tree.Leaves

/-!
# Trees made of entries

`Tree.ofEntries` puts entries into a tree one after the other. Of entries with one key, the first gives the place
(`keys_ofEntries`) and the last the selection (`get?_insertAll_of_mem`). The second half is about paths: a path is
followed step by step (`at?_cons`, `at?_append`, `subtree?_append`), and in a tree with distinct keys the leaves are
what paths lead to (`Distinct.mem_leaves_iff`).
-/

namespace GraphSelect

namespace Tree

/-! ## Insertion of many entries -/

theorem entries_insert {key : String} {sel : Selection} {t : Tree} (h : key ∉ t.keys) :
    (t.insert key sel).entries = t.entries ++ [(key, sel)] := by
  induction t using entryInduction with
  | empty => rw [insert, entries_cons, entries, List.nil_append]
  | cons k s rest _ ih =>
    rw [keys_cons, List.mem_cons, not_or] at h
    rw [insert_cons, if_neg (Ne.symm h.1), entries_cons, entries_cons, ih h.2, List.cons_append]

theorem insertAll_append (t : Tree) (es ds : List (String × Selection)) :
    t.insertAll (es ++ ds) = (t.insertAll es).insertAll ds :=
  List.foldl_append

theorem entries_insertAll : ∀ {es : List (String × Selection)} {t : Tree}, (t.keys ++ es.map Prod.fst).Nodup →
    (t.insertAll es).entries = t.entries ++ es
  | [], t, _ => (List.append_nil _).symm
  | (key, sel) :: es, t, h => by
    have hkey : key ∉ t.keys := fun hm => (List.nodup_append.mp h).2.2 key hm key List.mem_cons_self rfl
    have hrest : ((t.insert key sel).keys ++ es.map Prod.fst).Nodup := by
      rw [keys_insert, if_neg hkey, List.append_assoc]
      exact h
    show ((t.insert key sel).insertAll es).entries = _
    rw [entries_insertAll hrest, entries_insert hkey, List.append_assoc, List.singleton_append]

/-- Entries with different keys are the entries of their tree. -/
theorem entries_ofEntries {es : List (String × Selection)} (h : (es.map Prod.fst).Nodup) :
    (ofEntries es).entries = es :=
  entries_insertAll h

theorem keys_insertAll : ∀ (es : List (String × Selection)) (t : Tree),
    (t.insertAll es).keys = t.keys ++ ((es.map Prod.fst).filter (· ∉ t.keys)).eraseDups
  | [], t => (List.append_nil _).symm
  | (key, sel) :: es, t => by
    show ((t.insert key sel).insertAll es).keys = _
    rw [keys_insertAll es, keys_insert, List.map_cons, List.filter_cons]
    by_cases h : key ∈ t.keys
    · simp [h]
    · simp only [h, if_false, not_false_eq_true, decide_true, if_true, List.eraseDups_cons, List.filter_filter,
        List.append_assoc, List.singleton_append]
      congr 3
      refine List.filter_congr fun k _ => ?_
      rw [Bool.eq_iff_iff]
      simp [and_comm]

/-- The keys of a tree made of entries: those of the entries, each in the place where it comes first. -/
theorem keys_ofEntries (es : List (String × Selection)) : (ofEntries es).keys = (es.map Prod.fst).eraseDups := by
  rw [ofEntries, keys_insertAll]
  simp [keys]

/-- The first entry stays the first one when no entry under its key is put in. -/
theorem insertAll_leaf {k : String} (b : Bool) : ∀ {es : List (String × Selection)} (t : Tree),
    k ∉ es.map Prod.fst → (Tree.leaf k b t).insertAll es = .leaf k b (t.insertAll es)
  | [], _, _ => rfl
  | (k', sel) :: es, t, h => by
    rw [List.map_cons, List.mem_cons, not_or] at h
    show ((Tree.leaf k b t).insert k' sel).insertAll es = _
    rw [insert, if_neg h.1, insertAll_leaf b _ h.2]
    rfl

theorem get?_insertAll_of_not_mem {key : String} : ∀ {es : List (String × Selection)} {t : Tree},
    key ∉ es.map Prod.fst → (t.insertAll es).get? key = t.get? key
  | [], _, _ => rfl
  | (k, sel) :: es, t, h => by
    rw [List.map_cons, List.mem_cons, not_or] at h
    show ((t.insert k sel).insertAll es).get? key = _
    rw [get?_insertAll_of_not_mem h.2, get?_insert, if_neg (Ne.symm h.1)]

/-- The selection under a key is what the entries say, if they agree on it. -/
theorem get?_insertAll_of_mem {key : String} {sel : Selection} : ∀ {es : List (String × Selection)} {t : Tree},
    (key, sel) ∈ es → (∀ sel', (key, sel') ∈ es → sel' = sel) → (t.insertAll es).get? key = some sel
  | (k, s) :: es, t, hm, hall => by
    show ((t.insert k s).insertAll es).get? key = _
    by_cases hes : key ∈ es.map Prod.fst
    · obtain ⟨⟨_, s'⟩, hs', rfl⟩ := List.mem_map.mp hes
      obtain rfl := hall s' (List.mem_cons_of_mem _ hs')
      exact get?_insertAll_of_mem hs' fun s'' hs'' => hall s'' (List.mem_cons_of_mem _ hs'')
    · rw [get?_insertAll_of_not_mem hes, get?_insert]
      rcases List.mem_cons.mp hm with hm | hm
      · cases hm
        exact if_pos rfl
      · exact absurd (List.mem_map_of_mem (f := Prod.fst) hm) hes

end Tree

/-! ## Paths -/

/-- The selection at the end of a path that starts at a selection. -/
def Selection.at? : List String → Selection → Option Selection
  | [], sel => some sel
  | path, sel => sel.body?.bind (Tree.at? path)

namespace Tree

theorem at?_cons (key : String) (path : List String) (t : Tree) :
    t.at? (key :: path) = (t.get? key).bind (Selection.at? path) := by
  cases path with
  | nil => rw [at?]; cases t.get? key <;> rfl
  | cons k path =>
    rw [at?]
    · cases t.get? key with
      | none => rfl
      | some sel => cases sel <;> rfl
    · simp

theorem subtree?_cons (key : String) (path : List String) (t : Tree) :
    t.subtree? (key :: path) = ((t.get? key).bind Selection.body?).bind (subtree? path) := by
  rw [subtree?]
  cases t.get? key with
  | none => rfl
  | some sel => cases sel <;> rfl

theorem subtree?_append : ∀ (p q : List String) (t : Tree), t.subtree? (p ++ q) = (t.subtree? p).bind (subtree? q)
  | [], _, _ => rfl
  | key :: p, q, t => by
    rw [List.cons_append, subtree?_cons, subtree?_cons]
    cases (t.get? key).bind Selection.body? with
    | none => rfl
    | some body => exact subtree?_append p q body

/-- What a path finds is found by its rest from the tree at the end of its start. -/
theorem at?_append : ∀ (p : List String) (key : String) (q : List String) (t : Tree),
    t.at? (p ++ key :: q) = (t.subtree? p).bind (at? (key :: q))
  | [], _, _, _ => rfl
  | k :: p, key, q, t => by
    rw [List.cons_append, at?_cons, subtree?_cons]
    cases t.get? k with
    | none => rfl
    | some sel =>
      cases sel with
      | leaf b => cases p <;> rfl
      | branch role body =>
        have hat : Selection.at? (p ++ key :: q) (.branch role body) = body.at? (p ++ key :: q) := by
          cases p <;> rfl
        rw [Option.bind_some, hat, at?_append p key q body]
        rfl

/-- The tree at the end of a path is the one that the selection there holds. -/
theorem subtree?_eq_bind : ∀ {p : List String} (t : Tree), p ≠ [] → t.subtree? p = (t.at? p).bind Selection.body?
  | [], _, h => absurd rfl h
  | [key], t, _ => by
    rw [at?_cons, subtree?_cons]
    cases t.get? key with
    | none => rfl
    | some sel => cases sel <;> rfl
  | key :: k :: p, t, _ => by
    rw [at?_cons, subtree?_cons]
    cases t.get? key with
    | none => rfl
    | some sel =>
      cases sel with
      | leaf b => rfl
      | branch role body => exact subtree?_eq_bind body (List.cons_ne_nil _ _)

theorem ne_nil_of_at? {p : List String} {t : Tree} {sel : Selection} (h : t.at? p = some sel) : p ≠ [] := by
  rintro rfl
  cases h

/-- Beyond a leaf there is nothing. -/
theorem at?_beyond_leaf {p : List String} {t : Tree} {b : Bool} (h : t.at? p = some (.leaf b)) (key : String)
    (q : List String) : t.at? (p ++ key :: q) = none := by
  rw [at?_append, subtree?_eq_bind t (ne_nil_of_at? h), h]
  rfl

/-- In a tree with distinct keys, the leaves are the leaves that paths lead to. -/
theorem Distinct.mem_leaves_iff : ∀ {t : Tree}, t.Distinct → ∀ {path : List String} {b : Bool},
    (path, b) ∈ t.leaves ↔ t.at? path = some (.leaf b)
  | .empty, _, path, b => by
    cases path with
    | nil => simp [leaves, at?]
    | cons key path => simp [leaves, at?_cons, Tree.get?]
  | .leaf k sel rest, h, path, b => by
    rw [mem_leaves_leaf, h.2.mem_leaves_iff]
    cases path with
    | nil => simp [at?]
    | cons key path =>
      rw [at?_cons, at?_cons, Tree.get?]
      by_cases hk : k = key
      · subst hk
        rw [get?_eq_none_iff.mpr h.1, if_pos rfl]
        cases path with
        | nil => simp [Selection.at?, eq_comm]
        | cons _ _ => simp [Selection.at?, Selection.body?]
      · rw [if_neg hk]
        simp [Ne.symm hk]
  | .branch k role body rest, h, path, b => by
    rw [mem_leaves_branch, h.2.2.mem_leaves_iff]
    cases path with
    | nil => simp [at?]
    | cons key path =>
      rw [at?_cons, at?_cons, Tree.get?]
      by_cases hk : k = key
      · subst hk
        rw [get?_eq_none_iff.mpr h.1, if_pos rfl]
        cases path with
        | nil => simp [Selection.at?, h.2.1.mem_leaves_iff, at?]
        | cons _ _ => simp [Selection.at?, Selection.body?, h.2.1.mem_leaves_iff]
      · rw [if_neg hk]
        simp [Ne.symm hk]

/-- In a tree with distinct keys, every entry is what its key finds. -/
theorem Distinct.get?_of_mem {t : Tree} (h : t.Distinct) {key : String} {sel : Selection}
    (hmem : (key, sel) ∈ t.entries) : t.get? key = some sel := by
  induction t using entryInduction with
  | empty => cases hmem
  | cons k s rest _ ih =>
    obtain ⟨hk, _, hrest⟩ := distinct_cons.mp h
    rw [get?_cons]
    rcases List.mem_cons.mp (entries_cons k s rest ▸ hmem) with he | hmem
    · cases he
      exact if_pos rfl
    · have hkey : key ∈ rest.keys := keys_eq_map_entries rest ▸ List.mem_map_of_mem hmem
      have hne : k ≠ key := fun he => hk (he ▸ hkey)
      rw [if_neg hne]
      exact ih hrest hmem

theorem Distinct.keys_nodup : ∀ {t : Tree}, t.Distinct → t.keys.Nodup
  | .empty, _ => List.nodup_nil
  | .leaf _ _ _, h => List.nodup_cons.mpr ⟨h.1, h.2.keys_nodup⟩
  | .branch _ _ _ _, h => List.nodup_cons.mpr ⟨h.1, h.2.2.keys_nodup⟩

/-- The trees inside a tree with distinct keys have distinct keys. -/
theorem Distinct.subtree? : ∀ {path : List String} {t body : Tree}, t.Distinct → t.subtree? path = some body →
    body.Distinct
  | [], _, _, h, hbody => Option.some.inj hbody ▸ h
  | key :: path, t, body, h, hbody => by
    rw [subtree?_cons] at hbody
    obtain ⟨inner, hinner, hbody⟩ := Option.bind_eq_some_iff.mp hbody
    obtain ⟨sel, hsel, hinner⟩ := Option.bind_eq_some_iff.mp hinner
    exact Distinct.subtree? (h.get? hsel inner hinner) hbody

/-- A path starts with a key of the tree. -/
theorem ne_of_subtree? {k key : String} {path : List String} {t inner : Tree} (hk : k ∉ t.keys)
    (h : t.subtree? (key :: path) = some inner) : k ≠ key := by
  rintro rfl
  rw [subtree?_cons, get?_eq_none_iff.mpr hk] at h
  cases h

/-- In a tree with distinct keys some path leads through as many trees as the tree is deep. -/
theorem Distinct.exists_path_of_depth : ∀ {t : Tree}, t.Distinct →
    ∃ path body, t.subtree? path = some body ∧ path.length + 1 = t.depth
  | .empty, _ => ⟨[], .empty, rfl, rfl⟩
  | .leaf k b rest, h => by
    obtain ⟨path, body, hpath, hlength⟩ := h.2.exists_path_of_depth
    cases path with
    | nil => exact ⟨[], _, rfl, hlength⟩
    | cons key path =>
      refine ⟨key :: path, body, ?_, hlength⟩
      rw [subtree?_cons, Tree.get?, if_neg (ne_of_subtree? h.1 hpath), ← subtree?_cons]
      exact hpath
  | .branch k role body rest, h => by
    obtain ⟨hkey, hbody, hrest⟩ := h
    rcases Nat.le_total rest.depth (body.depth + 1) with hle | hle
    · obtain ⟨path, inner, hpath, hlength⟩ := hbody.exists_path_of_depth
      refine ⟨k :: path, inner, ?_, ?_⟩
      · simpa [subtree?_cons, Tree.get?, Selection.body?] using hpath
      · simp only [depth, List.length_cons]
        omega
    · obtain ⟨path, inner, hpath, hlength⟩ := hrest.exists_path_of_depth
      cases path with
      | nil =>
        refine ⟨[], _, rfl, ?_⟩
        simp only [depth, List.length_nil] at hlength ⊢
        omega
      | cons key path =>
        refine ⟨key :: path, inner, ?_, ?_⟩
        · rw [subtree?_cons, Tree.get?, if_neg (ne_of_subtree? hkey hpath), ← subtree?_cons]
          exact hpath
        · simp only [depth, List.length_cons] at hlength ⊢
          omega

end Tree

end GraphSelect
