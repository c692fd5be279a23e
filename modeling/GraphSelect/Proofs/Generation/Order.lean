import GraphSelect.Proofs.Generation.Branches
import GraphSelect.Proofs.Generation.Depth
import GraphSelect.Proofs.Operation.Order
import GraphSelect.Proofs.Tree.Selecting

/-!
# Generated trees are in the fixed order

A type is expanded to the name of the type, its fields and its branches, and that is the order in which bodies are
written (`pairwise_keyRank_expand`). Below a key that is a field and a branch at once stands the tree of the branch,
while the key is that of the field: the order of that tree is the order of another type. So a generated tree in which
leaves were selected is in the fixed order if the paths to them go through no such key (`inOrder_selectTexts`). That is
shown along a walk, from the tree at its end to the trees inside (`Walk.inOrder`).
-/

namespace GraphSelect

namespace Schema

variable {s : Schema}

section Ranks

variable (hs : s.IsValid) {type : String}
include hs

theorem IsValid.keyRank_field {f : Field} (hf : f ∈ s.fields type) : s.keyRank type f.name = 1 := by
  obtain ⟨kind, hk⟩ := hs.exists_kind?_of_mem_fields hf
  cases hc : kind.isComposite with
  | true =>
    have hm := hs.meaning?_eq_composite_iff.mpr ⟨hs.field?_of_mem_fields hf, hk, hc⟩
    rw [keyRank, hm]
    rfl
  | false =>
    have hm := hs.meaning?_eq_leaf_iff.mpr ⟨hs.field?_of_mem_fields hf, isComposite_eq_false_iff.mp hc ▸ hk⟩
    rw [keyRank, hm]
    rfl

/-- A step that leads to a type and does not clash is the one that its key means. -/
theorem Leads.meaning? {st : Step} {next : String} {kind : TypeKind} (h : s.Leads type st next)
    (hc : ¬ s.Clashes type st.key) (hk : s.kind? next = some kind) (hkind : kind.isComposite = true) :
    (s.meaning? type st.key).bind Meaning.opens? = some (st, next) := by
  refine (hs.opens_iff h.isComposite.isSome).mp ⟨rfl, ?_⟩
  cases h with
  | field hf => exact .field (hs.field?_of_mem_fields hf) hk hkind
  | branch ht =>
    have hfield : s.field? type (Key.ofType next) = none := by
      rw [← Option.not_isSome_iff_eq_none]
      exact fun hsome => hc ⟨hsome, next, ht, rfl⟩
    refine .branch hfield ?_
    unfold branchTypes at ht
    split at ht
    · exact .inr (.inl ht)
    · exact .inr (.inr ht)
    · cases ht

theorem IsValid.keyRank_branch {t : String} (ht : t ∈ s.branchTypes type) (hc : ¬ s.Clashes type (Key.ofType t)) :
    s.keyRank type (Key.ofType t) = 2 := by
  have hm := Leads.meaning? hs (.branch ht) hc (hs.kind?_branchType ht) rfl
  obtain ⟨m, hm, ho⟩ := Option.bind_eq_some_iff.mp hm
  have hm : s.meaning? type (Key.ofType t) = some m := hm
  rw [keyRank, hm]
  cases m <;> cases ho
  rfl

/-! ## Trees in order -/

/-- The keys of an expansion are in the fixed order: the name of the type, fields, branches. A branch whose key is that
of a field stands in the place of the field and ranks as the field does. -/
theorem IsValid.pairwise_keyRank_expand (withTypename : Bool) (visited : List String) :
    (s.expand withTypename visited type).keys.Pairwise fun k k' => s.keyRank type k ≤ s.keyRank type k' := by
  have hconst : ∀ {keys : List String} {n : Nat}, (∀ key ∈ keys, s.keyRank type key = n) →
      keys.Pairwise fun k k' => s.keyRank type k ≤ s.keyRank type k' := fun h =>
    List.pairwise_of_forall_mem_list fun k hk k' hk' => Nat.le_of_eq ((h k hk).trans (h k' hk').symm)
  rw [hs.keys_expand, expandedKeys, List.eraseDups_append, List.eraseDups_append]
  generalize hnames : (if withTypename && (s.kind? type).any TypeKind.isAbstract then [Key.typename] else []) = names
  have hname : ∀ key ∈ names.eraseDups, s.keyRank type key = 0 := by
    intro key hkey
    rw [List.mem_eraseDups, ← hnames] at hkey
    split at hkey
    · obtain rfl := List.mem_singleton.mp hkey
      rfl
    · cases hkey
  have hfield : ∀ key ∈ (((s.fields type).map Field.name).removeAll names).eraseDups, s.keyRank type key = 1 := by
    intro key hkey
    rw [List.mem_eraseDups] at hkey
    obtain ⟨f, hf, rfl⟩ := List.mem_map.mp (List.mem_of_mem_filter hkey)
    exact hs.keyRank_field hf
  have hbranch : ∀ key ∈ (((s.branchTypes type).map Key.ofType).removeAll
      (names ++ (s.fields type).map Field.name)).eraseDups, s.keyRank type key = 2 := by
    intro key hkey
    rw [List.mem_eraseDups] at hkey
    obtain ⟨hkey, hnew⟩ := List.mem_filter.mp hkey
    obtain ⟨t, ht, rfl⟩ := List.mem_map.mp hkey
    refine hs.keyRank_branch ht fun hc => ?_
    obtain ⟨f, hf⟩ := Option.isSome_iff_exists.mp hc.1
    obtain ⟨hf, hname⟩ := mem_fields_of_field? hf
    have hmem : Key.ofType t ∈ names ++ (s.fields type).map Field.name :=
      List.mem_append_right _ (List.mem_map.mpr ⟨f, hf, hname⟩)
    simp [hmem] at hnew
  refine List.pairwise_append.mpr ⟨List.pairwise_append.mpr ⟨hconst hname, hconst hfield, ?_⟩, hconst hbranch, ?_⟩
  · intro k hk k' _
    rw [hname k hk]
    exact Nat.zero_le _
  · intro k hk k' hk'
    rw [hbranch k' hk']
    rcases List.mem_append.mp hk with hk | hk
    · rw [hname k hk]
      exact Nat.zero_le 2
    · rw [hfield k hk]
      exact Nat.le_succ 1

/-- The own fields of a type are in the fixed order, whichever of them are selected. -/
theorem IsValid.inOrder_shallow {t : Tree} (h : t.setAll false = s.shallow type) : s.InOrder type t := by
  refine inOrder_iff.mpr ⟨?_, fun key role body hm => ?_⟩
  · rw [← Tree.keys_setAll false, h, Tree.keys_eq_map_entries, hs.entries_shallow, List.map_map]
    refine List.pairwise_of_forall_mem_list fun k hk k' hk' => ?_
    obtain ⟨f, hf, rfl⟩ := List.mem_map.mp hk
    obtain ⟨f', hf', rfl⟩ := List.mem_map.mp hk'
    exact Nat.le_of_eq ((hs.keyRank_field hf).trans (hs.keyRank_field hf').symm)
  · have hm := Tree.mem_entries_setAll false hm
    rw [h, hs.entries_shallow] at hm
    obtain ⟨f, _, he⟩ := List.mem_map.mp hm
    cases he

end Ranks

/-- At the end of a walk, an expansion in which leaves were selected is in the fixed order, if the paths to them go
through no key that is a field and a branch at once. -/
theorem Walk.inOrder (hs : s.IsValid) {root type : String} {p : List Step} {met : List String} (withTypename : Bool)
    (hwalk : s.Walk root p met type) {t : Tree} (h : t.setAll false = s.expand withTypename (type :: met.reverse) type)
    (hclear : ∀ path, (path, true) ∈ t.leaves → ¬ s.ClashesAlong root (p.map Step.key ++ path)) : s.InOrder type t := by
  refine inOrder_iff.mpr ⟨?_, fun key role body hm hselects next' htarget => ?_⟩
  · rw [← Tree.keys_setAll false, h]
    exact hs.pairwise_keyRank_expand withTypename _
  · obtain ⟨path, hpath⟩ := hselects
    obtain ⟨key', path, rfl, _⟩ := Tree.exists_cons_of_mem_leaves hpath
    have hget := (distinct_expand withTypename (type :: met.reverse) type).get?_of_mem
      (h ▸ Tree.mem_entries_setAll false hm)
    rcases hs.cases_of_get?_expand hget with ⟨_, he, _⟩ | ⟨st, next, hl, rfl⟩
    · cases he
    · have hc : ¬ s.Clashes type st.key := fun hc => hclear _ (Tree.cons_mem_leaves hm hpath)
        ⟨p, met, type, st.key, key' :: path, rfl, List.cons_ne_nil _ _, hwalk, hc⟩
      obtain ⟨kind, hk⟩ := hl.exists_kind?_next hs
      have hnext : kind.isComposite = true → next' = next := fun hkind =>
        target?_eq_of_opens? (hl.meaning? hs hc hk hkind) htarget
      rw [hl.get?_expand hs hc] at hget
      rcases selectionAt_cases withTypename (type :: met.reverse) hk with ⟨_, he⟩ | ⟨hkind, _, he⟩ | ⟨hkind, hv, he⟩ <;>
        have hbody := Option.some.inj (he.symm.trans hget)
      · cases hbody
      · rw [hnext hkind]
        exact hs.inOrder_shallow (Selection.branch.inj hbody).2.symm
      · -- The walk goes on to a type that is new to it, so the types that it has not met become fewer.
        rw [hnext hkind]
        have hreverse : next :: type :: met.reverse = next :: (met ++ [type]).reverse := by
          rw [List.reverse_append]
          rfl
        have := unvisited_cons_lt ⟨mem_typeNames_of_kind? hk, hv⟩
        rw [hreverse] at hbody this
        have hinner := (Selection.branch.inj hbody).2.symm
        refine Walk.inOrder hs withTypename (hwalk.step hl hc) hinner fun path' hpath' => ?_
        rw [List.map_append, List.append_assoc]
        exact hclear _ (Tree.cons_mem_leaves hm hpath')
termination_by s.unvisited (type :: met.reverse)

/-- The leaves that texts select in a generated tree are among those that the texts name. -/
theorem IsValid.mem_of_mem_leaves_selectTexts (hs : s.IsValid) {root : String} (hroot : s.IsComposite root)
    {withTypename : Bool} {texts : List String} {path : List String}
    (h : (path, true) ∈ ((s.expand withTypename [root] root).selectTexts texts).1.leaves) :
    path ∈ texts.map Tree.splitPath := by
  rw [(distinct_expand withTypename [root] root).fst_selectTexts, Tree.leaves_mapLeaves] at h
  obtain ⟨⟨q, b⟩, hm, he⟩ := List.mem_map.mp h
  obtain ⟨rfl, hvalue⟩ := Prod.mk.inj he
  rw [hs.eq_false_of_mem_leaves hroot hm, Bool.false_or] at hvalue
  exact of_decide_eq_true hvalue

/-- A generated tree in which texts selected leaves is in the fixed order, if none of the paths that the texts name goes
through a key that is a field and a branch at once. -/
theorem IsValid.inOrder_selectTexts (hs : s.IsValid) {root : String} (hroot : s.IsComposite root) (withTypename : Bool)
    {texts : List String} (hclear : ∀ text ∈ texts, ¬ s.ClashesAlong root (Tree.splitPath text)) :
    s.InOrder root ((s.expand withTypename [root] root).selectTexts texts).1 := by
  have hset : ((s.expand withTypename [root] root).selectTexts texts).1.setAll false =
      s.expand withTypename [root] root := by
    rw [Tree.setAll_selectTexts]
    exact Tree.setAll_eq_self fun _ _ hm => hs.eq_false_of_mem_leaves hroot hm
  refine Walk.inOrder hs withTypename .start hset fun path hpath => ?_
  obtain ⟨text, htext, rfl⟩ := List.mem_map.mp (hs.mem_of_mem_leaves_selectTexts hroot hpath)
  exact hclear text htext

end Schema

end GraphSelect
