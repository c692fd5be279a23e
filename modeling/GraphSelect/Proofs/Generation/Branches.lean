import GraphSelect.Proofs.Generation.Trail

/-!
# Entries of interfaces and unions

Where an interface or union is expanded, its tree should have an entry for the name of the type, if it is wanted, then
one for each field, then one for each type that objects can have there (`declaredEntries`). It has precisely these
entries if none of the fields has the key of a branch, and only then (`generateType_entries`). A key that is both is one
entry, in the place of the field and with the selection of the branch: the field is lost
(`generateType_entries_clash`).
-/

namespace GraphSelect

namespace Schema

variable {s : Schema}

/-- The keys that the tree of an interface or union should have: the name of the type, if it is wanted, each field in
the order of its declaration, and a branch for each type that objects can have. -/
def declaredKeys (s : Schema) (withTypename : Bool) (type : String) : List String :=
  (if withTypename then [Key.typename] else []) ++ (s.fields type).map Field.name ++
    (s.branchTypes type).map Key.ofType

/-- The entries that the tree of an interface or union should have, under those keys in this order. -/
def declaredEntries (s : Schema) (withTypename : Bool) (visited : List String) (type : String) :
    List (String × Selection) :=
  s.typenameEntries withTypename type ++ s.fieldEntries withTypename visited type ++
    s.branchEntries withTypename visited type

theorem IsValid.keys_declaredEntries (hs : s.IsValid) (withTypename : Bool) (visited : List String) {type : String}
    {kind : TypeKind} (hk : s.kind? type = some kind) (ha : kind.isAbstract = true) :
    (s.declaredEntries withTypename visited type).map Prod.fst = s.declaredKeys withTypename type := by
  have htypename : (s.typenameEntries withTypename type).map Prod.fst =
      if withTypename then [Key.typename] else [] := by
    cases withTypename <;> simp [typenameEntries, hk, ha]
  rw [declaredEntries, List.map_append, List.map_append, hs.keys_fieldEntries, hs.keys_branchEntries, htypename,
    declaredKeys]

/-- The keys of the expansion of an interface or union are those it should have, each of them once. -/
theorem expandedKeys_eq (withTypename : Bool) {type : String} {kind : TypeKind} (hk : s.kind? type = some kind)
    (ha : kind.isAbstract = true) :
    s.expandedKeys withTypename type = (s.declaredKeys withTypename type).eraseDups := by
  simp [expandedKeys, declaredKeys, hk, ha]

/-- Erasing repetitions leaves none. -/
theorem nodup_eraseDups : ∀ l : List String, l.eraseDups.Nodup
  | [] => List.nodup_nil
  | a :: l => by
    have hlt : (l.filter fun b => !b == a).length < l.length + 1 := Nat.lt_succ_of_le (List.length_filter_le _ _)
    rw [List.eraseDups_cons, List.nodup_cons, List.mem_eraseDups]
    exact ⟨by simp, nodup_eraseDups _⟩
termination_by l => l.length

/-- Erasing repetitions changes a list exactly if it has any. -/
theorem eraseDups_eq_self_iff {l : List String} : l.eraseDups = l ↔ l.Nodup := by
  constructor
  · intro h
    rw [← h]
    exact nodup_eraseDups l
  · intro h
    induction l with
    | nil => rfl
    | cons a l ih =>
      obtain ⟨ha, hl⟩ := List.nodup_cons.mp h
      have hfilter : l.filter (fun b => !b == a) = l := by
        refine List.filter_eq_self.mpr fun b hb => ?_
        have hne : b ≠ a := fun he => ha (he ▸ hb)
        simpa using hne
      rw [List.eraseDups_cons, hfilter, ih hl]

/-- The keys that a type should have are different exactly if no field has the key of a branch. -/
theorem IsValid.declaredKeys_nodup_iff (hs : s.IsValid) (withTypename : Bool) (type : String) :
    (s.declaredKeys withTypename type).Nodup ↔ ¬ ∃ key, s.Clashes type key := by
  have hfields := hs.fieldNames_nodup type
  have hbranches : ((s.branchTypes type).map Key.ofType).Nodup :=
    (hs.branchTypes_nodup type).map fun _ _ => Key.ofType_injective
  have htypename : Key.typename ∉ (s.fields type).map Field.name ++ (s.branchTypes type).map Key.ofType := by
    intro hm
    rcases List.mem_append.mp hm with hm | hm
    · exact hs.typename_not_mem_fieldNames type hm
    · exact typename_not_mem_branchKeys type hm
  have hname : (s.declaredKeys withTypename type).Nodup ↔
      ((s.fields type).map Field.name ++ (s.branchTypes type).map Key.ofType).Nodup := by
    unfold declaredKeys
    cases withTypename with
    | false => simp
    | true =>
      show (Key.typename :: ((s.fields type).map Field.name ++ (s.branchTypes type).map Key.ofType)).Nodup ↔ _
      rw [List.nodup_cons, and_iff_right htypename]
  rw [hname, List.nodup_append]
  constructor
  · rintro ⟨_, _, hne⟩ ⟨key, hfield, t, ht, rfl⟩
    obtain ⟨f, hf⟩ := Option.isSome_iff_exists.mp hfield
    obtain ⟨hf, he⟩ := mem_fields_of_field? hf
    exact hne f.name (List.mem_map_of_mem hf) (Key.ofType t) (List.mem_map_of_mem ht) he
  · intro hclash
    refine ⟨hfields, hbranches, ?_⟩
    rintro a ha b hb rfl
    obtain ⟨f, hf, rfl⟩ := List.mem_map.mp ha
    obtain ⟨t, ht, he⟩ := List.mem_map.mp hb
    exact hclash ⟨f.name, by rw [hs.field?_of_mem_fields hf]; rfl, t, ht, he.symm⟩

/-- The expansion of an interface or union has the entries it should have exactly if no key of it clashes. -/
theorem IsValid.entries_expand_iff (hs : s.IsValid) (withTypename : Bool) (visited : List String) {type : String}
    {kind : TypeKind} (hk : s.kind? type = some kind) (ha : kind.isAbstract = true) :
    (s.expand withTypename visited type).entries = s.declaredEntries withTypename visited type ↔
      ¬ ∃ key, s.Clashes type key := by
  rw [← hs.declaredKeys_nodup_iff withTypename type]
  constructor
  · intro h
    have hkeys : (s.expand withTypename visited type).keys = s.declaredKeys withTypename type := by
      rw [Tree.keys_eq_map_entries, h, hs.keys_declaredEntries withTypename visited hk ha]
    rw [hs.keys_expand, expandedKeys_eq withTypename hk ha] at hkeys
    exact eraseDups_eq_self_iff.mp hkeys
  · intro h
    rw [expand_eq]
    refine Tree.entries_ofEntries ?_
    rw [← hs.keys_declaredEntries withTypename visited hk ha] at h
    exact h

/-- The entries of interfaces and unions in generated trees. Wherever one is expanded, as it was not met before, its
tree has precisely an entry for the name of the type, if it is wanted, one for each field in the order of the
declaration, and one for each branch, unless a field has the key of a branch. Such a key is left once, with the branch.
Apart from it every field has its own selection, and every branch always has. -/
theorem generateType_entries (hs : s.IsValid) {root : String} (hroot : s.kind? root = some .object) (o : Options) :
    ∃ tree, s.generateType root o = .ok tree ∧ ∀ path body, tree.subtree? path = some body →
      ∃ p met type, path = p.map Step.key ∧ s.Trail root p met type ∧
        ∀ kind, s.kind? type = some kind → kind.isAbstract = true → type ∉ met →
          (s.declaredEntries o.includeTypename (type :: met.reverse) type).map Prod.fst =
            s.declaredKeys o.includeTypename type ∧
          (body.entries = s.declaredEntries o.includeTypename (type :: met.reverse) type ↔
            ¬ ∃ key, s.Clashes type key) ∧
          body.keys = (s.declaredKeys o.includeTypename type).eraseDups ∧
          (∀ f ∈ s.fields type, ¬ s.Clashes type f.name →
            body.get? f.name = s.selectionAt o.includeTypename (type :: met.reverse) f.type.base) ∧
          ∀ t ∈ s.branchTypes type,
            body.get? (Key.ofType t) = s.selectionAt o.includeTypename (type :: met.reverse) t := by
  refine ⟨_, hs.generateType_eq hroot o, fun path body h => ?_⟩
  obtain ⟨p, met, type, rfl, htrail, -, -, rfl⟩ :=
    (subtree?_expand_iff hs o.includeTypename ⟨.object, hroot, rfl⟩).mp h
  refine ⟨p, met, type, rfl, htrail, fun kind hk ha hnew => ?_⟩
  rw [grown, if_neg hnew, hs.keys_expand]
  exact ⟨hs.keys_declaredEntries _ _ hk ha, hs.entries_expand_iff _ _ hk ha, expandedKeys_eq _ hk ha,
    fun f hf hc => hs.get?_expand_field _ _ hf hc, fun t ht => hs.get?_expand_branch _ _ ht⟩

/-- An interface with two types and a field whose name looks like a branch key, but is none. -/
theorem generateType_entries_node : ∃ (s : Schema) (root : String) (o : Options), s.IsValid ∧
    s.kind? root = some .object ∧
    ∃ tree, s.generateType root o = .ok tree ∧ ∀ path body, tree.subtree? path = some body →
      ∃ p met type, path = p.map Step.key ∧ s.Trail root p met type ∧
        ∀ kind, s.kind? type = some kind → kind.isAbstract = true → type ∉ met →
          (s.declaredEntries o.includeTypename (type :: met.reverse) type).map Prod.fst =
            s.declaredKeys o.includeTypename type ∧
          (body.entries = s.declaredEntries o.includeTypename (type :: met.reverse) type ↔
            ¬ ∃ key, s.Clashes type key) ∧
          body.keys = (s.declaredKeys o.includeTypename type).eraseDups ∧
          (∀ f ∈ s.fields type, ¬ s.Clashes type f.name →
            body.get? f.name = s.selectionAt o.includeTypename (type :: met.reverse) f.type.base) ∧
          ∀ t ∈ s.branchTypes type,
            body.get? (Key.ofType t) = s.selectionAt o.includeTypename (type :: met.reverse) t := by
  obtain ⟨s, hs, h⟩ := exists_isValid_of_parse
    "type Query { node: Node } interface Node { id: ID on_Group: Int }
     type User implements Node { id: ID on_Group: Int } type Post implements Node { id: ID on_Group: Int }"
    (fun s => decide (s.kind? "Query" = some .object)) (by decide +kernel)
  have hroot := of_decide_eq_true h
  exact ⟨s, "Query", { includeTypename := true }, hs, hroot, generateType_entries hs hroot _⟩

/-- An interface with a field under the key of the branch for one of its types: the keys in the tree are fewer than the
declared ones, and instead of the field, which is a string, there is the branch. -/
theorem generateType_entries_clash : ∃ s : Schema, s.IsValid ∧ s.kind? "Query" = some .object ∧
    s.kind? "Node" = some .interface ∧
    ∃ tree body, s.generateType "Query" {} = .ok tree ∧ tree.subtree? ["node"] = some body ∧
      s.declaredKeys false "Node" = ["id", "on_User", "on_User"] ∧ body.keys = ["id", "on_User"] ∧
      (s.field? "Node" "on_User").map Field.type = some (.named "String" false) ∧
      ∃ user, body.get? "on_User" = some (.branch .node user) := by
  obtain ⟨s, hs, h⟩ := exists_isValid_of_parse
    "type Query { node: Node } interface Node { id: ID on_User: String }
     type User implements Node { id: ID on_User: String }"
    (fun s => decide (s.kind? "Query" = some .object ∧ s.kind? "Node" = some .interface ∧
      s.kind? "User" = some .object ∧ (s.field? "Query" "node").map Field.type = some (.named "Node" false) ∧
      s.branchTypes "Node" = ["User"] ∧ s.declaredKeys false "Node" = ["id", "on_User", "on_User"] ∧
      s.expandedKeys false "Node" = ["id", "on_User"] ∧
      (s.field? "Node" "on_User").map Field.type = some (.named "String" false)))
    (by decide +kernel)
  obtain ⟨hroot, hnode, huser, hfield, hbranches, hdeclared, hexpanded, hstring⟩ := of_decide_eq_true h
  obtain ⟨f, hf, htype⟩ := Option.map_eq_some_iff.mp hfield
  obtain ⟨hm, hname⟩ := mem_fields_of_field? hf
  have hl : s.Leads "Query" (.field "node") "Node" := by
    have := Leads.field hm
    rwa [hname, htype] at this
  have hc : ¬ s.Clashes "Query" "node" := by
    rintro ⟨_, t, ht, _⟩
    simp [branchTypes, hroot] at ht
  have htrail : s.Trail "Query" [.field "node"] ["Query"] "Node" :=
    .step .start ⟨hl, fun hc' => absurd hc' hc⟩
  have hsubtree := htrail.subtree?_expand hs false (List.nodup_singleton _) ⟨.interface, hnode, rfl⟩
  have hgrown : s.grown false ["Query"] "Node" = s.expand false ["Node", "Query"] "Node" := by
    simp [grown]
  refine ⟨s, hs, hroot, hnode, _, _, hs.generateType_eq hroot {}, hsubtree, hdeclared, ?_, hstring, ?_⟩
  · rw [hgrown, hs.keys_expand, hexpanded]
  · have hm : "User" ∈ s.branchTypes "Node" := by simp [hbranches]
    have hbranch := hs.get?_expand_branch false ["Node", "Query"] hm
    rcases selectionAt_cases false ["Node", "Query"] huser with ⟨hk, _⟩ | ⟨_, hm, _⟩ | ⟨_, _, hsel⟩
    · cases hk
    · simp at hm
    · rw [hgrown]
      exact ⟨_, hbranch.trans hsel⟩

end Schema

end GraphSelect
