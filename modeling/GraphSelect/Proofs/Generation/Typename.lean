import GraphSelect.Proofs.Generation.Trail

/-!
# The name of the type

Asking for the name of the type adds leaves to a generated tree and changes nothing else. Deleting an entry and putting
one into a tree commute (`without_insert`), so the leaves can be deleted level by level, and what is left of an
expansion is the expansion without them (`without_expand`). They are the first entry wherever an interface or union is
expanded, and there is none anywhere else (`generateType_typename`).
-/

namespace GraphSelect

/-! ## Deleting a key -/

namespace Tree

/-- The tree without the entries under a key, at every depth. -/
def without (key : String) : Tree → Tree
  | .empty => .empty
  | .leaf k selected rest => if k = key then without key rest else .leaf k selected (without key rest)
  | .branch k role body rest =>
    if k = key then without key rest else .branch k role (without key body) (without key rest)

end Tree

/-- The selection without the entries under a key in the tree that it holds. -/
def Selection.without (key : String) : Selection → Selection
  | .leaf selected => .leaf selected
  | .branch role body => .branch role (body.without key)

namespace Tree

/-- The entries under other keys, with what is left of their selections. -/
def entriesWithout (key : String) (es : List (String × Selection)) : List (String × Selection) :=
  (es.filter (·.1 ≠ key)).map (Prod.map id (Selection.without key))

variable {key : String}

theorem without_cons (k : String) (sel : Selection) (t : Tree) : (cons k sel t).without key =
    if k = key then t.without key else cons k (sel.without key) (t.without key) := by
  cases sel <;> rfl

/-- Putting an entry into a tree commutes with deleting the entries under another key. -/
theorem without_insert (k : String) (sel : Selection) (t : Tree) : (t.insert k sel).without key =
    if k = key then t.without key else (t.without key).insert k (sel.without key) := by
  induction t using entryInduction with
  | empty =>
    rw [insert, without_cons]
    rfl
  | cons k' s rest _ ih =>
    rw [insert_cons]
    by_cases hk : k' = k
    · subst hk
      rw [if_pos rfl, without_cons, without_cons]
      split
      · rfl
      · rw [insert_cons, if_pos rfl]
    · rw [if_neg hk, without_cons, ih, without_cons]
      split <;> split <;> first | rfl | rw [insert_cons, if_neg hk]

theorem without_insertAll : ∀ (es : List (String × Selection)) (t : Tree), (t.insertAll es).without key =
    (t.without key).insertAll (entriesWithout key es)
  | [], _ => rfl
  | (k, sel) :: es, t => by
    show ((t.insert k sel).insertAll es).without key = _
    rw [without_insertAll es, without_insert, entriesWithout, entriesWithout, List.filter_cons]
    by_cases hk : k = key <;> simp [hk, insertAll]

/-- What is left of a tree made of entries is made of what is left of the entries under other keys. -/
theorem without_ofEntries (es : List (String × Selection)) :
    (ofEntries es).without key = ofEntries (entriesWithout key es) :=
  without_insertAll es .empty

theorem entriesWithout_append (es ds : List (String × Selection)) :
    entriesWithout key (es ++ ds) = entriesWithout key es ++ entriesWithout key ds := by
  rw [entriesWithout, List.filter_append, List.map_append]
  rfl

/-- Entries under other keys are left, and what they hold is what is left of it. -/
theorem entriesWithout_filterMap {α : Type} {l : List α} {name : α → String} {sel? sel?' : α → Option Selection}
    (hkey : ∀ a ∈ l, name a ≠ key) (hsel : ∀ a ∈ l, (sel? a).map (Selection.without key) = sel?' a) :
    entriesWithout key (l.filterMap fun a => (sel? a).map (name a, ·)) =
      l.filterMap fun a => (sel?' a).map (name a, ·) := by
  have hfilter : (l.filterMap fun a => (sel? a).map (name a, ·)).filter (·.1 ≠ key) =
      l.filterMap fun a => (sel? a).map (name a, ·) := by
    refine List.filter_eq_self.mpr fun e he => ?_
    obtain ⟨a, ha, he⟩ := List.mem_filterMap.mp he
    obtain ⟨sel, _, rfl⟩ := Option.map_eq_some_iff.mp he
    exact decide_eq_true (hkey a ha)
  rw [entriesWithout, hfilter, List.map_filterMap]
  refine List.filterMap_congr fun a ha => ?_
  rw [← hsel a ha, Option.map_map, Option.map_map]
  rfl

end Tree

namespace Schema

variable {s : Schema}

/-! ## Expansions with and without the name of the type -/

section Expansions

variable (hs : s.IsValid)
include hs

/-- A shallow type never asks for its name. -/
theorem IsValid.without_shallow (type : String) : (s.shallow type).without Key.typename = s.shallow type := by
  have hentries : ((s.fields type).map fun f => (f.name, Selection.leaf false)) =
      (s.fields type).filterMap fun f => (some (Selection.leaf false)).map (f.name, ·) :=
    (List.filterMap_eq_map (f := fun f : Field => (f.name, Selection.leaf false))) ▸ rfl
  rw [shallow, hentries, Tree.without_ofEntries,
    Tree.entriesWithout_filterMap (fun f hf => hs.ne_typename_of_mem_fields hf) fun _ _ => rfl]
  rfl

/-- Deleting the names of types from an expansion gives the expansion that does not ask for them. -/
theorem IsValid.without_expand (visited : List String) (type : String) :
    (s.expand true visited type).without Key.typename = s.expand false visited type := by
  have hat : ∀ next kind, s.kind? next = some kind →
      (s.selectionAt true visited next).map (Selection.without Key.typename) = s.selectionAt false visited next := by
    intro next kind hk
    rw [selectionAt_eq _ _ hk, selectionAt_eq _ _ hk, Option.map_some]
    by_cases hc : kind.isComposite
    · by_cases hv : next ∈ visited
      · simp only [if_pos hc, if_pos hv, Selection.without, hs.without_shallow]
      · have := unvisited_cons_lt ⟨mem_typeNames_of_kind? hk, hv⟩
        have hnext := IsValid.without_expand (next :: visited) next
        simp only [if_pos hc, if_neg hv, Selection.without, hnext]
    · simp only [if_neg hc, Selection.without]
  have hfields : Tree.entriesWithout Key.typename (s.fieldEntries true visited type) =
      s.fieldEntries false visited type := by
    refine Tree.entriesWithout_filterMap (fun f hf => hs.ne_typename_of_mem_fields hf) fun f hf => ?_
    obtain ⟨kind, hk⟩ := hs.exists_kind?_of_mem_fields hf
    exact hat _ _ hk
  have hbranches : Tree.entriesWithout Key.typename (s.branchEntries true visited type) =
      s.branchEntries false visited type :=
    Tree.entriesWithout_filterMap (fun t _ => Key.ofType_ne_typename t) fun t ht => hat _ _ (hs.kind?_branchType ht)
  have htypename : Tree.entriesWithout Key.typename (s.typenameEntries true type) =
      s.typenameEntries false type := by
    unfold typenameEntries
    split <;> rfl
  rw [expand_eq, expand_eq, Tree.without_ofEntries, Tree.entriesWithout_append, Tree.entriesWithout_append, htypename,
    hfields, hbranches]
termination_by s.unvisited visited

/-! ## Where the name of the type stands -/

/-- The name of the type is an entry of the expansions of interfaces and unions only. -/
theorem IsValid.typename_not_mem_keys_expand (withTypename : Bool) {type : String} {kind : TypeKind}
    (hk : s.kind? type = some kind) (ha : kind.isAbstract = false) (visited : List String) :
    Key.typename ∉ (s.expand withTypename visited type).keys := by
  rw [hs.keys_expand, mem_expandedKeys]
  rintro (⟨_, _, h⟩ | ⟨f, hf, he⟩ | ⟨t, _, he⟩)
  · simp [hk, ha] at h
  · exact hs.ne_typename_of_mem_fields hf he
  · exact Key.ofType_ne_typename t he

/-- A fragment starts with the name of the type, and in a node there is none. -/
theorem IsValid.typename_of_selectionAt {visited : List String} {next : String} {kind : TypeKind}
    (hk : s.kind? next = some kind) {role : Role} {body : Tree}
    (h : s.selectionAt true visited next = some (.branch role body)) :
    (role = .fragment → body.entries.head? = some (Key.typename, .leaf false)) ∧
      (role = .node → Key.typename ∉ body.keys) := by
  rcases selectionAt_cases true visited hk with ⟨_, hsel⟩ | ⟨_, _, hsel⟩ | ⟨_, _, hsel⟩ <;> rw [hsel] at h <;> cases h
  · refine ⟨fun hr => absurd hr (by decide), fun _ => ?_⟩
    rw [Tree.keys_eq_map_entries, hs.entries_shallow, List.map_map]
    exact hs.typename_not_mem_fieldNames next
  · cases ha : kind.isAbstract with
    | false => exact ⟨fun hr => by simp [roleOf, ha] at hr, fun _ => hs.typename_not_mem_keys_expand true hk ha _⟩
    | true =>
      obtain ⟨rest, he⟩ := hs.exists_expand_eq_leaf hk ha (next :: visited)
      exact ⟨fun _ => by rw [he]; rfl, fun hr => by simp [roleOf, ha] at hr⟩

/-- At every place of the expansion of a root, a fragment starts with the name of the type, and in a node there is
none. -/
theorem IsValid.typename_of_at?_expand {root : String} (hroot : s.IsComposite root) {path : List String} {role : Role}
    {body : Tree} (h : (s.expand true [root] root).at? path = some (.branch role body)) :
    (role = .fragment → body.entries.head? = some (Key.typename, .leaf false)) ∧
      (role = .node → Key.typename ∉ body.keys) := by
  obtain ⟨init, key, rfl⟩ := (List.eq_nil_or_concat path).resolve_left (Tree.ne_nil_of_at? h)
  rw [List.concat_eq_append, Tree.at?_append] at h
  obtain ⟨tree, htree, hkey⟩ := Option.bind_eq_some_iff.mp h
  obtain ⟨p, met, type, -, -, -, -, rfl⟩ := (subtree?_expand_iff hs true hroot).mp htree
  rw [Tree.at?] at hkey
  -- The own fields of a type that was met before are leaves, so the type is a new one.
  have hnew : type ∉ met := by
    intro hm
    rw [grown, if_pos hm, get?_shallow] at hkey
    split at hkey <;> cases hkey
  rw [grown, if_neg hnew] at hkey
  rcases hs.exists_grows_of_get?_expand hkey with hleaf | ⟨_, next, kind, _, _, hk, hsel⟩
  · cases hleaf
  · exact hs.typename_of_selectionAt hk hsel

end Expansions

/-! ## Generated trees -/

/-- Asking for the names of types only adds leaves. Without them, the generated tree is the one for the same options
that do not ask for them. They are the first entry of every fragment, and there is none at the root or in a node, which
the types that were met before are too. Of the options, the tree depends on nothing else, and of the operation on its
kind only. -/
theorem generateType_typename (hs : s.IsValid) {root : String} (hroot : s.kind? root = some .object) (o : Options) :
    ∃ tree bare, s.generateType root { o with includeTypename := true } = .ok tree ∧
      s.generateType root { o with includeTypename := false } = .ok bare ∧
      tree.without Key.typename = bare ∧
      Key.typename ∉ tree.keys ∧
      (∀ path role body, tree.at? path = some (.branch role body) →
        (role = .fragment → body.entries.head? = some (Key.typename, .leaf false)) ∧
        (role = .node → Key.typename ∉ body.keys)) ∧
      ∀ o' : Options, o'.includeTypename = o.includeTypename →
        s.generateType root o' = s.generateType root o ∧ (o'.kind = o.kind → s.generate o' = s.generate o) := by
  refine ⟨_, _, hs.generateType_eq hroot _, hs.generateType_eq hroot _, hs.without_expand [root] root,
    hs.typename_not_mem_keys_expand true hroot rfl _, fun path role body h => ?_, fun o' ho => ?_⟩
  · exact hs.typename_of_at?_expand ⟨.object, hroot, rfl⟩ h
  · have hgenerate : ∀ type, s.generateType type o' = s.generateType type o := by
      intro type
      rw [generateType, generateType, ho]
    refine ⟨hgenerate root, fun hkind => ?_⟩
    simp only [generate, hkind, hgenerate]

/-- An interface whose type leads back to it, and a union with the same type. The interface is a fragment where it is
met first, so it starts with the name of the type there. -/
theorem generateType_typename_node : ∃ (s : Schema) (root : String) (o : Options) (tree bare : Tree),
    s.IsValid ∧ s.kind? root = some .object ∧
    s.generateType root { o with includeTypename := true } = .ok tree ∧
    s.generateType root { o with includeTypename := false } = .ok bare ∧
    tree.without Key.typename = bare ∧
    (∃ body, tree.at? ["node"] = some (.branch .fragment body) ∧
      body.entries.head? = some (Key.typename, .leaf false)) ∧
    ∀ o' : Options, o'.includeTypename = o.includeTypename →
      s.generateType root o' = s.generateType root o ∧ (o'.kind = o.kind → s.generate o' = s.generate o) := by
  obtain ⟨s, hs, h⟩ := exists_isValid_of_parse
    "type Query { node: Node hit: Hit } interface Node { next: Node } type User implements Node { next: Node }
     union Hit = User"
    (fun s => decide (s.kind? "Query" = some .object ∧ s.kind? "Node" = some .interface ∧
      (s.field? "Query" "node").map Field.type = some (.named "Node" false) ∧ s.branchTypes "Query" = []))
    (by decide +kernel)
  obtain ⟨hroot, hnode, hfield, hbranches⟩ := of_decide_eq_true h
  obtain ⟨f, hf, htype⟩ := Option.map_eq_some_iff.mp hfield
  obtain ⟨hm, hname⟩ := mem_fields_of_field? hf
  have hclash : ¬ s.Clashes "Query" f.name := by
    rintro ⟨_, t, ht, _⟩
    simp [hbranches] at ht
  obtain ⟨tree, bare, htree, hbare, hwithout, _, hnames, hoptions⟩ := generateType_typename hs hroot {}
  have hat : tree.at? ["node"] = some (.branch .fragment (s.expand true ["Node", "Query"] "Node")) := by
    have hget := hs.get?_expand_field true ["Query"] hm hclash
    rw [htype, TypeRef.base, selectionAt_eq true ["Query"] hnode, hname] at hget
    obtain rfl := Except.ok.inj ((hs.generateType_eq hroot _).symm.trans htree)
    exact hget
  exact ⟨s, "Query", {}, tree, bare, hs, hroot, htree, hbare, hwithout, ⟨_, hat, (hnames _ _ _ hat).1 rfl⟩, hoptions⟩

end Schema

end GraphSelect
