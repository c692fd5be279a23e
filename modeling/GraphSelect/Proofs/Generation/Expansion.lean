import GraphSelect.Generation
import GraphSelect.Proofs.Schema.Validity
import GraphSelect.Proofs.Tree.Entries

/-!
# What an expansion holds

`Schema.expand` is opened here once and for all. Its keys are those of `expandedKeys`, and under a key it holds what
`selectionAt` gives for the type that the key leads to: a field of the type (`get?_expand_field`) or a branch
(`get?_expand_branch`). A key that is both at once, a clash, holds the branch. The expansion of a type that is on the
way already is `shallow`, of which everything is said by its entries (`entries_shallow`).

Expansions have distinct keys (`distinct_expand`), by the same recursion that makes them end: the number of types that
are not on the way goes down.
-/

namespace GraphSelect

namespace Schema

/-- What the expansion of a type holds under a key that leads to the type `name`. -/
def selectionAt (s : Schema) (withTypename : Bool) (visited : List String) (name : String) : Option Selection :=
  s.selectionOf visited name fun _ => s.expand withTypename (name :: visited) name

/-- The entries for the fields of a type. -/
def fieldEntries (s : Schema) (withTypename : Bool) (visited : List String) (name : String) :
    List (String × Selection) :=
  (s.fields name).filterMap fun f => (s.selectionAt withTypename visited f.type.base).map (f.name, ·)

/-- The entries for the branches of a type. -/
def branchEntries (s : Schema) (withTypename : Bool) (visited : List String) (name : String) :
    List (String × Selection) :=
  (s.branchTypes name).filterMap fun t => (s.selectionAt withTypename visited t).map (Key.ofType t, ·)

/-- The keys of the expansion of a type: perhaps the name of the type, then its fields, then its branches. -/
def expandedKeys (s : Schema) (withTypename : Bool) (name : String) : List String :=
  ((if withTypename && (s.kind? name).any TypeKind.isAbstract then [Key.typename] else []) ++
    (s.fields name).map Field.name ++ (s.branchTypes name).map Key.ofType).eraseDups

/-- A key that is a field of an interface and at the same time the key of one of its branches. -/
def Clashes (s : Schema) (type key : String) : Prop :=
  (s.field? type key).isSome ∧ ∃ t ∈ s.branchTypes type, key = Key.ofType t

variable {s : Schema}

theorem mem_expandedKeys {withTypename : Bool} {name key : String} : key ∈ s.expandedKeys withTypename name ↔
    (key = Key.typename ∧ withTypename = true ∧ (s.kind? name).any TypeKind.isAbstract = true) ∨
    (∃ f ∈ s.fields name, f.name = key) ∨ ∃ t ∈ s.branchTypes name, Key.ofType t = key := by
  rw [expandedKeys, List.mem_eraseDups, List.mem_append, List.mem_append, List.mem_map, List.mem_map, or_assoc]
  refine or_congr_left ?_
  split
  · rename_i h
    simpa using fun _ => Bool.and_eq_true_iff.mp h
  · rename_i h
    simpa using fun _ => h

theorem expand_eq (withTypename : Bool) (visited : List String) (name : String) :
    s.expand withTypename visited name = Tree.ofEntries
      (s.typenameEntries withTypename name ++ s.fieldEntries withTypename visited name ++
        s.branchEntries withTypename visited name) := by
  rw [expand]
  rfl

/-- What an expansion holds for a type, with everything that is known in each case. -/
theorem selectionAt_cases (withTypename : Bool) (visited : List String) {name : String} {kind : TypeKind}
    (hk : s.kind? name = some kind) :
    (kind = .leaf ∧ s.selectionAt withTypename visited name = some (.leaf false)) ∨
    (kind.isComposite = true ∧ name ∈ visited ∧
      s.selectionAt withTypename visited name = some (.branch .node (s.shallow name))) ∨
    (kind.isComposite = true ∧ name ∉ visited ∧
      s.selectionAt withTypename visited name =
        some (.branch (roleOf kind) (s.expand withTypename (name :: visited) name))) := by
  unfold selectionAt selectionOf
  split
  · rename_i hn
    rw [hn] at hk
    cases hk
  · rename_i kind' hk'
    obtain rfl := Option.some.inj (hk'.symm.trans hk)
    split
    · rename_i hc
      split
      · rename_i hv
        exact .inr (.inl ⟨hc, hv, rfl⟩)
      · rename_i hv
        exact .inr (.inr ⟨hc, hv, rfl⟩)
    · rename_i hc
      refine .inl ⟨?_, rfl⟩
      cases kind' <;> first | rfl | exact absurd rfl hc

/-- What an expansion holds for a type, as one equation. -/
theorem selectionAt_eq (withTypename : Bool) (visited : List String) {name : String} {kind : TypeKind}
    (hk : s.kind? name = some kind) : s.selectionAt withTypename visited name = some (
      if kind.isComposite then
        if name ∈ visited then .branch .node (s.shallow name)
        else .branch (roleOf kind) (s.expand withTypename (name :: visited) name)
      else .leaf false) := by
  rcases selectionAt_cases withTypename visited hk with ⟨rfl, he⟩ | ⟨hc, hv, he⟩ | ⟨hc, hv, he⟩ <;> rw [he]
  · rfl
  · rw [if_pos hc, if_pos hv]
  · rw [if_pos hc, if_neg hv]

theorem selectionAt_isSome (withTypename : Bool) (visited : List String) {name : String} {kind : TypeKind}
    (hk : s.kind? name = some kind) : (s.selectionAt withTypename visited name).isSome := by
  rcases selectionAt_cases withTypename visited hk with ⟨_, h⟩ | ⟨_, _, h⟩ | ⟨_, _, h⟩ <;> rw [h] <;> rfl

theorem mem_fieldEntries {withTypename : Bool} {visited : List String} {name key : String} {sel : Selection} :
    (key, sel) ∈ s.fieldEntries withTypename visited name ↔
      ∃ f ∈ s.fields name, f.name = key ∧ s.selectionAt withTypename visited f.type.base = some sel := by
  simp only [fieldEntries, List.mem_filterMap, Option.map_eq_some_iff, Prod.mk.injEq]
  constructor
  · rintro ⟨f, hf, _, hsel, hkey, rfl⟩
    exact ⟨f, hf, hkey, hsel⟩
  · rintro ⟨f, hf, hkey, hsel⟩
    exact ⟨f, hf, sel, hsel, hkey, rfl⟩

theorem mem_branchEntries {withTypename : Bool} {visited : List String} {name key : String} {sel : Selection} :
    (key, sel) ∈ s.branchEntries withTypename visited name ↔
      ∃ t ∈ s.branchTypes name, Key.ofType t = key ∧ s.selectionAt withTypename visited t = some sel := by
  simp only [branchEntries, List.mem_filterMap, Option.map_eq_some_iff, Prod.mk.injEq]
  constructor
  · rintro ⟨t, ht, _, hsel, hkey, rfl⟩
    exact ⟨t, ht, hkey, hsel⟩
  · rintro ⟨t, ht, hkey, hsel⟩
    exact ⟨t, ht, sel, hsel, hkey, rfl⟩

/-! ## Shallow types -/

theorem get?_shallow {name key : String} :
    (s.shallow name).get? key = if key ∈ (s.fields name).map Field.name then some (.leaf false) else none := by
  split
  · rename_i h
    obtain ⟨f, hf, rfl⟩ := List.mem_map.mp h
    refine Tree.get?_insertAll_of_mem (List.mem_map.mpr ⟨f, hf, rfl⟩) fun sel hsel => ?_
    obtain ⟨_, _, he⟩ := List.mem_map.mp hsel
    exact (Prod.mk.inj he).2.symm
  · rename_i h
    refine (Tree.get?_insertAll_of_not_mem ?_).trans rfl
    rwa [List.map_map]

theorem at?_shallow (name key : String) (rest : List String) :
    (s.shallow name).at? (key :: rest) =
      if rest = [] ∧ key ∈ (s.fields name).map Field.name then some (.leaf false) else none := by
  rw [Tree.at?_cons, get?_shallow]
  by_cases hkey : key ∈ (s.fields name).map Field.name
  · cases rest with
    | nil => simp [hkey, Selection.at?]
    | cons _ _ => simp [hkey, Selection.at?, Selection.body?]
  · simp [hkey]

/-- A shallow type holds precisely its own fields in order, each of them an unselected leaf. -/
theorem IsValid.entries_shallow (hs : s.IsValid) (name : String) :
    (s.shallow name).entries = (s.fields name).map fun f => (f.name, .leaf false) := by
  refine Tree.entries_ofEntries ?_
  rw [List.map_map]
  exact hs.fieldNames_nodup name

/-! ## Entries of an expansion -/

/-- No branch has the key for the name of the type. -/
theorem typename_not_mem_branchKeys (name : String) : Key.typename ∉ (s.branchTypes name).map Key.ofType := by
  intro hm
  obtain ⟨t, _, he⟩ := List.mem_map.mp hm
  exact Key.ofType_ne_typename t he

namespace IsValid

variable (hs : s.IsValid)
include hs

theorem keys_fieldEntries (withTypename : Bool) (visited : List String) (name : String) :
    (s.fieldEntries withTypename visited name).map Prod.fst = (s.fields name).map Field.name := by
  rw [fieldEntries, List.map_filterMap, ← List.filterMap_eq_map]
  refine List.filterMap_congr fun f hf => ?_
  obtain ⟨kind, hk⟩ := hs.exists_kind?_of_mem_fields hf
  obtain ⟨sel, hsel⟩ := Option.isSome_iff_exists.mp (selectionAt_isSome withTypename visited hk)
  rw [hsel]
  rfl

theorem keys_branchEntries (withTypename : Bool) (visited : List String) (name : String) :
    (s.branchEntries withTypename visited name).map Prod.fst = (s.branchTypes name).map Key.ofType := by
  rw [branchEntries, List.map_filterMap, ← List.filterMap_eq_map]
  refine List.filterMap_congr fun t ht => ?_
  obtain ⟨sel, hsel⟩ := Option.isSome_iff_exists.mp (selectionAt_isSome withTypename visited (hs.kind?_branchType ht))
  rw [hsel]
  rfl

/-- The keys of an expansion. -/
theorem keys_expand (withTypename : Bool) (visited : List String) (name : String) :
    (s.expand withTypename visited name).keys = s.expandedKeys withTypename name := by
  rw [expand_eq, Tree.keys_ofEntries, List.map_append, List.map_append, hs.keys_fieldEntries, hs.keys_branchEntries,
    expandedKeys, typenameEntries]
  split <;> rfl

/-- Under the key of a branch an expansion holds what the type of the branch gives. -/
theorem get?_expand_branch (withTypename : Bool) (visited : List String) {name t : String}
    (ht : t ∈ s.branchTypes name) :
    (s.expand withTypename visited name).get? (Key.ofType t) = s.selectionAt withTypename visited t := by
  obtain ⟨sel, hsel⟩ := Option.isSome_iff_exists.mp (selectionAt_isSome withTypename visited (hs.kind?_branchType ht))
  rw [expand_eq, Tree.ofEntries, Tree.insertAll_append, hsel]
  refine Tree.get?_insertAll_of_mem (mem_branchEntries.mpr ⟨t, ht, rfl, hsel⟩) fun sel' hsel' => ?_
  obtain ⟨t', _, hkey, ht'⟩ := mem_branchEntries.mp hsel'
  rw [Key.ofType_injective hkey, hsel] at ht'
  exact (Option.some.inj ht').symm

/-- Under the name of a field that clashes with no branch an expansion holds what the type of the field gives. -/
theorem get?_expand_field (withTypename : Bool) (visited : List String) {name : String} {f : Field}
    (hf : f ∈ s.fields name) (hc : ¬ s.Clashes name f.name) :
    (s.expand withTypename visited name).get? f.name = s.selectionAt withTypename visited f.type.base := by
  obtain ⟨kind, hk⟩ := hs.exists_kind?_of_mem_fields hf
  obtain ⟨sel, hsel⟩ := Option.isSome_iff_exists.mp (selectionAt_isSome withTypename visited hk)
  have hbranch : f.name ∉ (s.branchEntries withTypename visited name).map Prod.fst := by
    rw [hs.keys_branchEntries]
    intro hm
    obtain ⟨t, ht, he⟩ := List.mem_map.mp hm
    exact hc ⟨hs.field?_of_mem_fields hf ▸ rfl, t, ht, he.symm⟩
  rw [expand_eq, Tree.ofEntries, Tree.insertAll_append, Tree.insertAll_append,
    Tree.get?_insertAll_of_not_mem hbranch, hsel]
  refine Tree.get?_insertAll_of_mem (mem_fieldEntries.mpr ⟨f, hf, rfl, hsel⟩) fun sel' hsel' => ?_
  obtain ⟨f', hf', hkey, ht⟩ := mem_fieldEntries.mp hsel'
  obtain rfl : f' = f := by
    have h := hs.field?_of_mem_fields hf'
    rw [hkey, hs.field?_of_mem_fields hf] at h
    exact (Option.some.inj h).symm
  exact Option.some.inj (ht.symm.trans hsel)

/-- No field of a type has the key for the name of the type. -/
theorem typename_not_mem_fieldNames (name : String) : Key.typename ∉ (s.fields name).map Field.name := by
  intro hm
  obtain ⟨f, hf, he⟩ := List.mem_map.mp hm
  exact hs.ne_typename_of_mem_fields hf he

/-- The expansion of an interface or union starts with the name of the type, if it is wanted. -/
theorem exists_expand_eq_leaf {name : String} {kind : TypeKind} (hk : s.kind? name = some kind)
    (ha : kind.isAbstract = true) (visited : List String) :
    ∃ rest, s.expand true visited name = .leaf Key.typename false rest := by
  have htypename : s.typenameEntries true name = [(Key.typename, .leaf false)] := by
    simp [typenameEntries, hk, ha]
  have hrest : Key.typename ∉
      (s.fieldEntries true visited name ++ s.branchEntries true visited name).map Prod.fst := by
    rw [List.map_append, hs.keys_fieldEntries, hs.keys_branchEntries, List.mem_append, not_or]
    exact ⟨hs.typename_not_mem_fieldNames name, typename_not_mem_branchKeys name⟩
  rw [expand_eq, htypename, List.append_assoc, Tree.ofEntries, Tree.insertAll_append]
  exact ⟨_, Tree.insertAll_leaf false .empty hrest⟩

/-- The name of the type is an unselected leaf of the expansion of an interface or union, if it is wanted. -/
theorem get?_expand_typename {withTypename : Bool} (visited : List String) {name : String} {kind : TypeKind}
    (hw : withTypename = true) (hk : s.kind? name = some kind) (ha : kind.isAbstract = true) :
    (s.expand withTypename visited name).get? Key.typename = some (.leaf false) := by
  obtain ⟨rest, he⟩ := hs.exists_expand_eq_leaf hk ha visited
  rw [hw, he]
  exact if_pos rfl

end IsValid

/-! ## Distinct keys -/

theorem distinct_shallow (name : String) : (s.shallow name).Distinct := by
  refine Tree.distinct_ofEntries fun e he => ?_
  obtain ⟨f, _, rfl⟩ := List.mem_map.mp he
  intro body hb
  cases hb

/-- No key occurs twice in an expansion. -/
theorem distinct_expand (withTypename : Bool) (visited : List String) (name : String) :
    (s.expand withTypename visited name).Distinct := by
  have hat : ∀ type sel, s.selectionAt withTypename visited type = some sel → sel.Distinct := by
    intro type sel hsel body hbody
    cases hk : s.kind? type with
    | none =>
      unfold selectionAt selectionOf at hsel
      split at hsel
      · cases hsel
      · rename_i kind hk'
        rw [hk] at hk'
        cases hk'
    | some kind =>
      rcases selectionAt_cases withTypename visited hk with ⟨_, h⟩ | ⟨_, _, h⟩ | ⟨_, hv, h⟩ <;>
        obtain rfl := Option.some.inj (h.symm.trans hsel) <;> cases hbody
      · exact distinct_shallow type
      · have := unvisited_cons_lt ⟨mem_typeNames_of_kind? hk, hv⟩
        exact distinct_expand withTypename (type :: visited) type
  rw [expand_eq]
  refine Tree.distinct_ofEntries fun e he => ?_
  rcases List.mem_append.mp he with he | he
  · rcases List.mem_append.mp he with he | he
    · unfold typenameEntries at he
      split at he
      · obtain rfl := List.mem_singleton.mp he
        intro body hb
        cases hb
      · cases he
    · obtain ⟨f, _, _, hsel⟩ := mem_fieldEntries.mp he
      exact hat _ _ hsel
  · obtain ⟨t, _, _, hsel⟩ := mem_branchEntries.mp he
    exact hat _ _ hsel
termination_by s.unvisited visited

end Schema

end GraphSelect
