import GraphSelect.Proofs.Generation.Depth
import GraphSelect.Proofs.Tree.Selecting

/-!
# Texts that name the leaves of generated trees

The keys of a generated tree are made of GraphQL names, which have no points in them (`point_not_mem_of_mem_path`). So
the text that joins the keys of a path with points is split into the same path again. With what holds of selections by
texts in any tree, such a text selects its leaf and no other (`selectTexts_selects`).
-/

namespace GraphSelect

namespace Token

/-- There is no point in a name. -/
theorem point_not_mem_of_isName {text : String} (h : isName text = true) : '.' ∉ text.toList := by
  unfold isName at h
  split at h
  · rename_i c rest htext
    obtain ⟨hc, hrest⟩ := Bool.and_eq_true_iff.mp h
    rw [htext, List.mem_cons]
    rintro (rfl | hm)
    · exact absurd hc (by decide)
    · exact absurd (List.all_eq_true.mp hrest _ hm) (by decide)
  · cases h

end Token

namespace Schema

variable {s : Schema}

section Keys

variable (hs : s.IsValid)
include hs

theorem IsValid.point_not_mem_of_mem_fields {type : String} {f : Field} (hf : f ∈ s.fields type) :
    '.' ∉ f.name.toList :=
  Token.point_not_mem_of_isName (Bool.and_eq_true_iff.mp (hs.isNamed_of_mem_fields hf)).1

theorem IsValid.point_not_mem_of_mem_expandedKeys {withTypename : Bool} {type key : String}
    (h : key ∈ s.expandedKeys withTypename type) : '.' ∉ key.toList := by
  rcases mem_expandedKeys.mp h with ⟨rfl, _⟩ | ⟨f, hf, rfl⟩ | ⟨t, ht, rfl⟩
  · decide
  · exact hs.point_not_mem_of_mem_fields hf
  · have hname := Token.point_not_mem_of_isName (hs.isName_of_kind? (hs.kind?_branchType ht))
    simpa [Key.ofType, Key.branchMark] using hname

theorem IsValid.point_not_mem_of_get?_grown {withTypename : Bool} {met : List String} {type key : String}
    {sel : Selection} (h : (s.grown withTypename met type).get? key = some sel) : '.' ∉ key.toList := by
  unfold grown at h
  split at h
  · rw [get?_shallow] at h
    split at h
    · rename_i hkey
      obtain ⟨f, hf, rfl⟩ := List.mem_map.mp hkey
      exact hs.point_not_mem_of_mem_fields hf
    · cases h
  · have hkey : key ∈ s.expandedKeys withTypename type := by
      rw [← hs.keys_expand withTypename (type :: met.reverse)]
      by_contra hno
      rw [Tree.get?_eq_none_iff.mpr hno] at h
      cases h
    exact hs.point_not_mem_of_mem_expandedKeys hkey

/-- No key of a path that finds something in a generated tree has a point in it. -/
theorem IsValid.point_not_mem_of_mem_path {withTypename : Bool} {root : String} (hroot : s.IsComposite root)
    {path : List String} {sel : Selection} (h : (s.expand withTypename [root] root).at? path = some sel) {key : String}
    (hkey : key ∈ path) : '.' ∉ key.toList := by
  obtain ⟨init, rest, rfl⟩ := List.append_of_mem hkey
  rw [Tree.at?_append] at h
  obtain ⟨body, hbody, hat⟩ := Option.bind_eq_some_iff.mp h
  obtain ⟨_, met, last, _, _, _, _, rfl⟩ := (subtree?_expand_iff hs withTypename hroot).mp hbody
  rw [Tree.at?_cons] at hat
  obtain ⟨_, hget, _⟩ := Option.bind_eq_some_iff.mp hat
  exact hs.point_not_mem_of_get?_grown hget

/-- The text of the path to a leaf of a generated tree names that path. -/
theorem IsValid.splitPath_joinPath {withTypename : Bool} {root : String} (hroot : s.IsComposite root)
    {path : List String} {b : Bool} (h : (s.expand withTypename [root] root).at? path = some (.leaf b)) :
    Tree.splitPath (Tree.joinPath path) = path :=
  Tree.splitPath_joinPath (Tree.ne_nil_of_at? h) fun _ hkey => hs.point_not_mem_of_mem_path hroot h hkey

end Keys

/-- A tree that is generated is the expansion of an object type. -/
theorem exists_eq_expand {o : Options} {type : String} {tree : Tree}
    (h : s.generateType type o = .ok tree ∨ s.generate o = .ok tree) :
    ∃ root, s.IsComposite root ∧ tree = s.expand o.includeTypename [root] root := by
  have htype : ∀ type, s.generateType type o = .ok tree →
      ∃ root, s.IsComposite root ∧ tree = s.expand o.includeTypename [root] root := by
    intro type h
    unfold generateType at h
    split at h
    · rename_i hroot
      exact ⟨type, ⟨.object, hroot.1, rfl⟩, (Except.ok.inj h).symm⟩
    · cases h
  rcases h with h | h
  · exact htype type h
  · unfold generate at h
    split at h
    · cases h
    · rename_i root _
      split at h
      · rename_i tree' hgenerated
        exact htype root (Except.ok.inj h ▸ hgenerated)
      · cases h

/-! ## Selections by texts -/

/-- Selecting leaves by texts. The texts that are reported are those that name no leaf of the tree at the start, in
their order, and whether a text is reported does not depend on the others. In the tree that is left a leaf is selected
if it was, or if one of the texts names it, and all else is as before; so neither the order of the texts nor their
repetition matters. In a generated tree every leaf has a text: the one that joins the keys of its path selects it and
no other leaf. -/
theorem selectTexts_selects :
    (∀ (t : Tree) (texts : List String), t.Distinct →
      (t.selectTexts texts).2 = texts.filter (fun text => !t.isLeafPath (Tree.splitPath text)) ∧
      (t.selectTexts texts).1 = t.mapLeaves (fun path b => b || decide (path ∈ texts.map Tree.splitPath)) ∧
      (∀ texts', (∀ text, text ∈ texts' ↔ text ∈ texts) → (t.selectTexts texts').1 = (t.selectTexts texts).1) ∧
      ∀ text ∈ texts, text ∈ (t.selectTexts texts).2 ↔ text ∈ (t.selectTexts [text]).2) ∧
    ∀ (s : Schema) (o : Options) (type : String) (tree : Tree), s.IsValid →
      (s.generateType type o = .ok tree ∨ s.generate o = .ok tree) → ∀ path b, (path, b) ∈ tree.leaves →
        ∃ tree', tree.selectTexts [Tree.joinPath path] = (tree', []) ∧ ∀ q, (q, true) ∈ tree'.leaves ↔ q = path := by
  refine ⟨fun t texts ht => ⟨Tree.snd_selectTexts texts t, ht.fst_selectTexts texts, fun texts' h => ?_,
    fun text hm => ?_⟩, fun s o type tree hs htree path b hleaf => ?_⟩
  · have hnamed : ∀ path, path ∈ texts'.map Tree.splitPath ↔ path ∈ texts.map Tree.splitPath := by simp [h]
    rw [ht.fst_selectTexts, ht.fst_selectTexts]
    simp only [hnamed]
  · rw [Tree.snd_selectTexts, Tree.snd_selectTexts, List.mem_filter, List.mem_filter]
    simp [hm]
  · obtain ⟨root, hroot, rfl⟩ := exists_eq_expand htree
    have hd := distinct_expand (s := s) o.includeTypename [root] root
    have hat := hd.mem_leaves_iff.mp hleaf
    have hsplit := hs.splitPath_joinPath hroot hat
    have hselect : (s.expand o.includeTypename [root] root).selectTexts [Tree.joinPath path] =
        ((s.expand o.includeTypename [root] root).mapLeaves fun q c => c || decide (q = path), []) := by
      refine Prod.ext ?_ ?_
      · rw [hd.fst_selectTexts, List.map_singleton, hsplit]
        simp only [List.mem_singleton]
      · rw [Tree.snd_selectTexts]
        simp [hsplit, Tree.isLeafPath_iff.mpr ⟨b, hat⟩]
    refine ⟨_, hselect, fun q => ?_⟩
    rw [Tree.leaves_mapLeaves, List.mem_map]
    constructor
    · rintro ⟨⟨p, c⟩, hp, he⟩
      obtain ⟨rfl, hvalue⟩ := Prod.mk.inj he
      obtain rfl := hs.eq_false_of_mem_leaves hroot hp
      simpa using hvalue
    · rintro rfl
      exact ⟨(q, b), hleaf, by simp⟩

/-- A user with friends: the text `me.friends.name` selects the name of the friends, and `me.friends` names no leaf. -/
theorem selectTexts_selects_friends : ∃ (s : Schema) (o : Options) (tree : Tree),
    s.IsValid ∧ s.generate o = .ok tree ∧ tree.Distinct ∧ (["me", "friends", "name"], false) ∈ tree.leaves ∧
    (tree.selectTexts ["me.friends", "me.friends.name"]).2 = ["me.friends"] ∧
    (tree.selectTexts ["me.friends.name", "me.friends", "me.friends"]).1 =
      (tree.selectTexts ["me.friends", "me.friends.name"]).1 ∧
    ∃ tree', tree.selectTexts ["me.friends.name"] = (tree', []) ∧
      ∀ q, (q, true) ∈ tree'.leaves ↔ q = ["me", "friends", "name"] := by
  obtain ⟨s, hs, h⟩ := exists_isValid_of_parse
    "interface Named { name: ID } type User implements Named { name: ID friends: [User] } type Query { me: User }"
    (fun s => (s.generate {}).toOption.any fun t : Tree => decide ((["me", "friends", "name"], false) ∈ t.leaves ∧
      ["me.friends", "me.friends.name"].filter (fun text => !t.isLeafPath (Tree.splitPath text)) = ["me.friends"]))
    (by decide +kernel)
  obtain ⟨tree, hgenerate, htree⟩ := (Option.any_eq_true _ _).mp h
  obtain ⟨hleaf, hreported⟩ := of_decide_eq_true htree
  have hgenerate := eq_ok_of_toOption_eq_some hgenerate
  have hd : tree.Distinct := by
    obtain ⟨root, _, rfl⟩ := @exists_eq_expand s {} "Query" tree (.inr hgenerate)
    exact distinct_expand _ _ _
  obtain ⟨hselects, hnames⟩ := selectTexts_selects
  obtain ⟨hunknown, _, horder, _⟩ := hselects tree ["me.friends", "me.friends.name"] hd
  have htext : Tree.joinPath ["me", "friends", "name"] = "me.friends.name" := by decide
  have hone := hnames s {} "Query" tree hs (.inr hgenerate) _ _ hleaf
  rw [htext] at hone
  exact ⟨s, {}, tree, hs, hgenerate, hd, hleaf, hunknown.trans hreported, horder _ fun text => by simp [or_comm], hone⟩

end Schema

end GraphSelect
