import GraphSelect.Proofs.Operation.Edit
import GraphSelect.Proofs.Operation.Reordering

/-!
# Trees in the fixed order

A body that may hold branches is put into a fixed order: the name of the type, fields, fragments (`Item.rank`). Nothing
is moved if the keys of the tree are in that order already, and if those of every tree inside are of which anything is
selected (`InOrder`). The items of a tree come in the order of its keys (`pairwise_rank_items`), and where nothing is
selected there are none, so trees in the fixed order that differ in roles only are written as one and the same operation
(`operation_eq_of_alike`).
-/

namespace GraphSelect

/-- The rank of an item in the fixed order of a body: the name of the type, then fields, then fragments. -/
def Item.rank : Item → Nat
  | .typename => 0
  | .scalar _ _ => 1
  | .composite _ _ _ => 1
  | .fragment _ _ => 2

theorem Item.isTypename_iff {i : Item} : i.isTypename = true ↔ i.rank = 0 := by
  cases i <;> simp [isTypename, rank]

theorem Item.isField_iff {i : Item} : i.isField = true ↔ i.rank = 1 := by
  cases i <;> simp [isField, rank]

/-- The rank of the items that a key with this meaning contributes. -/
def Meaning.rank : Meaning → Nat
  | .typename => 0
  | .leaf _ => 1
  | .composite _ _ => 1
  | .branch _ _ => 2

/-- A leaf of a tree is selected. -/
def Tree.Selects (t : Tree) : Prop := ∃ path, (path, true) ∈ t.leaves

theorem Tree.selects_leaf {key : String} {selected : Bool} {rest : Tree} :
    (Tree.leaf key selected rest).Selects ↔ selected = true ∨ rest.Selects := by
  simp only [Selects, mem_leaves_leaf, exists_or, exists_eq_left, eq_comm (a := true)]

theorem Tree.selects_branch {key : String} {role : Role} {body rest : Tree} :
    (Tree.branch key role body rest).Selects ↔ body.Selects ∨ rest.Selects := by
  simp [Selects, mem_leaves_branch, exists_or]

namespace Contribution

/-! ## Sorted items -/

theorem filter_isTypename_eq_nil {is : List Item} (h : ∀ i ∈ is, 1 ≤ i.rank) : is.filter Item.isTypename = [] := by
  refine List.filter_eq_nil_iff.mpr fun i hi hname => ?_
  have := Item.isTypename_iff.mp hname ▸ h i hi
  omega

theorem filter_isField_eq_nil {is : List Item} (h : ∀ i ∈ is, 2 ≤ i.rank) : is.filter Item.isField = [] := by
  refine List.filter_eq_nil_iff.mpr fun i hi hfield => ?_
  have := Item.isField_iff.mp hfield ▸ h i hi
  omega

/-- Sorting moves nothing where the ranks do not go down. -/
theorem sortItems_eq_self {is : List Item} (h : is.Pairwise fun i j => i.rank ≤ j.rank) : sortItems is = is := by
  induction is with
  | nil => rfl
  | cons i is ih =>
    obtain ⟨hi, his⟩ := List.pairwise_cons.mp h
    have hsort := ih his
    unfold sortItems at hsort ⊢
    cases i with
    | typename =>
      simp only [List.filter_cons, Item.isTypename, Item.isField, Item.isFragment, if_true, List.cons_append]
      simpa using hsort
    | scalar name arguments =>
      rw [filter_isTypename_eq_nil hi] at hsort
      simpa [List.filter_cons, Item.isTypename, Item.isField, Item.isFragment, filter_isTypename_eq_nil hi] using hsort
    | composite name arguments body =>
      rw [filter_isTypename_eq_nil hi] at hsort
      simpa [List.filter_cons, Item.isTypename, Item.isField, Item.isFragment, filter_isTypename_eq_nil hi] using hsort
    | fragment type body =>
      have hone : ∀ j ∈ is, 1 ≤ j.rank := fun j hj => Nat.le_trans (Nat.le_succ 1) (hi j hj)
      rw [filter_isTypename_eq_nil hone, filter_isField_eq_nil hi] at hsort
      simpa [List.filter_cons, Item.isTypename, Item.isField, Item.isFragment, filter_isTypename_eq_nil hone,
        filter_isField_eq_nil hi] using hsort

theorem arrange_eq_self {is : List Item} (h : is.Pairwise fun i j => i.rank ≤ j.rank) (sorted : Bool) :
    arrange sorted is = is := by
  cases sorted with
  | false => rfl
  | true => exact sortItems_eq_self h

section Bodies

variable {cs : List Contribution} (h : (items cs).Pairwise fun i j => i.rank ≤ j.rank) (sorted sorted' : Bool)
  (write : List Item → Item)
include h

theorem ofField_eq_of_pairwise : ofField sorted write cs = ofField sorted' write cs := by
  unfold ofField
  split
  · rename_i i is hi
    rw [hi] at h
    rw [arrange_eq_self h, arrange_eq_self h]
  · rfl
  · rfl

theorem ofBranch_eq_of_pairwise : ofBranch sorted write cs = ofBranch sorted' write cs := by
  unfold ofBranch
  split
  · rename_i i is hi
    rw [hi] at h
    rw [arrange_eq_self h, arrange_eq_self h]
  · rfl
  · rfl

end Bodies

end Contribution

namespace Schema

open Contribution

/-! ## Keys in order -/

/-- The rank of what a key contributes to a selection on a type. A key that means nothing contributes nothing, and can
stand with the fields. -/
def keyRank (s : Schema) (type key : String) : Nat := ((s.meaning? type key).map Meaning.rank).getD 1

/-- The ranks of the keys of a tree on a type do not go down, and in the trees inside in which a leaf is selected they
do not either. -/
def InOrder (s : Schema) : String → Tree → Prop
  | _, .empty => True
  | type, .leaf key _ rest => (∀ k ∈ rest.keys, s.keyRank type key ≤ s.keyRank type k) ∧ InOrder s type rest
  | type, .branch key _ body rest =>
    (∀ k ∈ rest.keys, s.keyRank type key ≤ s.keyRank type k) ∧
      (body.Selects → ∀ next, s.target? type key body = some next → InOrder s next body) ∧ InOrder s type rest

variable {s : Schema} {provider : ArgumentProvider}

theorem inOrder_iff : ∀ {t : Tree} {type : String}, s.InOrder type t ↔
    (t.keys.Pairwise fun k k' => s.keyRank type k ≤ s.keyRank type k') ∧
      ∀ key role body, (key, .branch role body) ∈ t.entries → body.Selects →
        ∀ next, s.target? type key body = some next → s.InOrder next body
  | .empty, _ => by simp [InOrder, Tree.keys, Tree.entries]
  | .leaf key selected rest, type => by
    rw [InOrder, inOrder_iff (t := rest), Tree.keys, List.pairwise_cons, and_assoc]
    simp [Tree.entries]
  | .branch key role body rest, type => by
    rw [InOrder, inOrder_iff (t := rest), Tree.keys, List.pairwise_cons, Tree.entries, and_assoc]
    refine and_congr_right fun _ => ?_
    constructor
    · rintro ⟨hbody, hkeys, hrest⟩
      refine ⟨hkeys, fun key' role' body' hm => ?_⟩
      rcases List.mem_cons.mp hm with he | hm
      · cases he
        exact hbody
      · exact hrest key' role' body' hm
    · rintro ⟨hkeys, hall⟩
      exact ⟨hall key role body List.mem_cons_self, hkeys, fun key' role' body' hm =>
        hall key' role' body' (List.mem_cons_of_mem _ hm)⟩

/-! ## Items in order -/

/-- A leaf contributes at most one item, with the rank of its key. -/
theorem exists_items_leafContribution (s : Schema) (provider : ArgumentProvider) (type key : String) (selected : Bool) :
    ∃ i? : Option Item, items (s.leafContribution provider type key selected).toList = i?.toList ∧
      ∀ i ∈ i?, i.rank = s.keyRank type key := by
  rcases s.leafContribution_cases provider type key selected with ⟨_, hm, he⟩ | ⟨f, _, hm, he⟩ | ⟨_, he⟩ <;> rw [he]
  · exact ⟨some .typename, rfl, by simp [keyRank, hm, Item.rank, Meaning.rank]⟩
  · exact ⟨some (.scalar f.name (provider s type f)), rfl, by simp [keyRank, hm, Item.rank, Meaning.rank]⟩
  · exact ⟨none, rfl, by simp⟩

/-- A branch entry contributes at most one item, with the rank of its key. -/
theorem exists_items_branchContributions (s : Schema) (provider : ArgumentProvider) (type key : String) (role : Role)
    (body : Tree) :
    ∃ i? : Option Item, items (s.branchContributions provider type key role body) = i?.toList ∧
      ∀ i ∈ i?, i.rank = s.keyRank type key := by
  rcases s.items_branchContributions_cases provider type key role body with ⟨f, kind, is, hm, _, _, he⟩ |
    ⟨next, kind, is, hm, _, _, he⟩ | ⟨he, _⟩ <;> rw [he]
  · exact ⟨some (.composite f.name (provider s type f) is), rfl, by simp [keyRank, hm, Item.rank, Meaning.rank]⟩
  · exact ⟨some (.fragment next is), rfl, by simp [keyRank, hm, Item.rank, Meaning.rank]⟩
  · exact ⟨none, rfl, by simp⟩

/-- Every item has the rank of a key. -/
theorem exists_rank_eq_of_mem_items : ∀ {t : Tree} {type : String} {i : Item},
    i ∈ items (s.contributions provider type t) → ∃ key ∈ t.keys, i.rank = s.keyRank type key
  | .empty, _, _, h => by cases h
  | .leaf key selected rest, type, i, h => by
    obtain ⟨i?, he, hrank⟩ := exists_items_leafContribution s provider type key selected
    rw [contributions, items_append, he, List.mem_append] at h
    rcases h with h | h
    · exact ⟨key, List.mem_cons_self, hrank i (Option.mem_toList.mp h)⟩
    · obtain ⟨k, hk, hi⟩ := exists_rank_eq_of_mem_items h
      exact ⟨k, List.mem_cons_of_mem _ hk, hi⟩
  | .branch key role body rest, type, i, h => by
    obtain ⟨i?, he, hrank⟩ := exists_items_branchContributions s provider type key role body
    rw [contributions_branch, items_append, he, List.mem_append] at h
    rcases h with h | h
    · exact ⟨key, List.mem_cons_self, hrank i (Option.mem_toList.mp h)⟩
    · obtain ⟨k, hk, hi⟩ := exists_rank_eq_of_mem_items h
      exact ⟨k, List.mem_cons_of_mem _ hk, hi⟩

/-- One item more in front keeps the ranks in order, if its key has no higher rank than those behind. -/
theorem pairwise_rank_append {type key : String} {i? : Option Item} (hrank : ∀ i ∈ i?, i.rank = s.keyRank type key)
    {rest : Tree} (hkey : ∀ k ∈ rest.keys, s.keyRank type key ≤ s.keyRank type k)
    (hrest : (items (s.contributions provider type rest)).Pairwise fun i j => i.rank ≤ j.rank) :
    (i?.toList ++ items (s.contributions provider type rest)).Pairwise fun i j => i.rank ≤ j.rank := by
  cases i? with
  | none => exact hrest
  | some i =>
    refine List.pairwise_cons.mpr ⟨fun j hj => ?_, hrest⟩
    obtain ⟨k, hk, hj⟩ := exists_rank_eq_of_mem_items hj
    rw [hrank i rfl, hj]
    exact hkey k hk

/-- The items of a tree in order are in order. -/
theorem InOrder.pairwise_rank_items : ∀ {t : Tree} {type : String}, s.InOrder type t →
    (items (s.contributions provider type t)).Pairwise fun i j => i.rank ≤ j.rank
  | .empty, _, _ => .nil
  | .leaf key selected rest, type, ⟨hkey, hrest⟩ => by
    obtain ⟨i?, he, hrank⟩ := exists_items_leafContribution s provider type key selected
    rw [contributions, items_append, he]
    exact pairwise_rank_append hrank hkey hrest.pairwise_rank_items
  | .branch key role body rest, type, ⟨hkey, _, hrest⟩ => by
    obtain ⟨i?, he, hrank⟩ := exists_items_branchContributions s provider type key role body
    rw [contributions_branch, items_append, he]
    exact pairwise_rank_append hrank hkey hrest.pairwise_rank_items

/-- Where no leaf is selected there are no items. -/
theorem items_eq_nil_of_not_selects : ∀ {t : Tree} {type : String}, ¬ t.Selects →
    items (s.contributions provider type t) = []
  | .empty, _, _ => rfl
  | .leaf key selected rest, type, h => by
    rw [Tree.selects_leaf, not_or, Bool.not_eq_true] at h
    obtain ⟨rfl, hrest⟩ := h
    rw [contributions, items_append, items_eq_nil_of_not_selects hrest]
    rfl
  | .branch key role body rest, type, h => by
    rw [Tree.selects_branch, not_or] at h
    obtain ⟨hbody, hrest⟩ := h
    rw [contributions_branch, items_append, items_eq_nil_of_not_selects hrest, List.append_nil]
    rcases s.items_branchContributions_cases provider type key role body with ⟨f, kind, is, _, hp, hne, _⟩ |
      ⟨next, kind, is, _, hp, hne, _⟩ | ⟨he, _⟩
    · rw [items_eq_nil_of_not_selects hbody] at hp
      exact absurd (List.perm_nil.mp hp) hne
    · rw [items_eq_nil_of_not_selects hbody] at hp
      exact absurd (List.perm_nil.mp hp) hne
    · exact he

/-- The items of a tree are in order if the tree is, or if nothing is selected in it. -/
theorem pairwise_rank_items {t : Tree} {type : String} (h : t.Selects → s.InOrder type t) :
    (items (s.contributions provider type t)).Pairwise fun i j => i.rank ≤ j.rank := by
  by_cases hsel : t.Selects
  · exact (h hsel).pairwise_rank_items
  · rw [items_eq_nil_of_not_selects hsel]
    exact .nil

/-! ## Alike trees in order -/

/-- The role of a branch entry does not matter to what it contributes, if the items of its tree are in order. -/
theorem branchContributions_eq_of_pairwise {type key : String} (role role' : Role) {body body' : Tree}
    (hempty : body.isEmpty = body'.isEmpty)
    (h : ∀ next, s.target? type key body = some next →
      s.contributions provider next body = s.contributions provider next body' ∧
      (items (s.contributions provider next body)).Pairwise fun i j => i.rank ≤ j.rank) :
    s.branchContributions provider type key role body = s.branchContributions provider type key role' body' := by
  rw [branchContributions_eq, branchContributions_eq, ← hempty]
  cases hm : s.meaning? type key with
  | none => rfl
  | some m =>
    cases m with
    | typename => rfl
    | leaf f => rfl
    | composite f kind =>
      dsimp only
      by_cases hbody : body.isEmpty
      · rw [if_pos hbody, if_pos hbody]
      · obtain ⟨he, hpairwise⟩ := h f.type.base (by simp [target?, hm, hbody])
        rw [if_neg hbody, if_neg hbody, ← he,
          ofField_eq_of_pairwise hpairwise (isSorted kind role) (isSorted kind role')]
    | branch next kind =>
      obtain ⟨he, hpairwise⟩ := h next (by simp [target?, hm])
      dsimp only
      rw [← he, ofBranch_eq_of_pairwise hpairwise (isSorted kind role) (isSorted kind role')]

/-- A tree in order contributes the same whatever its roles are, and so does one in which nothing is selected. -/
theorem contributions_eq_of_alike {t u : Tree} (h : t.Alike u) : ∀ {type : String}, (t.Selects → s.InOrder type t) →
    s.contributions provider type t = s.contributions provider type u := by
  induction h with
  | empty => exact fun _ => rfl
  | leaf _ ih =>
    intro type hin
    rw [contributions, contributions, ih fun hsel => (hin (Tree.selects_leaf.mpr (.inr hsel))).2]
  | @branch key role role' body body' rest rest' hbody _ ihbody ihrest =>
    intro type hin
    have hnext : ∀ next, s.target? type key body = some next → body.Selects → s.InOrder next body :=
      fun next htarget hsel => (hin (Tree.selects_branch.mpr (.inl hsel))).2.1 hsel next htarget
    have hrest : rest.Selects → s.InOrder type rest := fun hsel => (hin (Tree.selects_branch.mpr (.inr hsel))).2.2
    rw [contributions_branch, contributions_branch, ihrest hrest,
      branchContributions_eq_of_pairwise role role' hbody.isEmpty_eq fun next htarget =>
        ⟨ihbody (hnext next htarget), pairwise_rank_items (hnext next htarget)⟩]

/-- A tree in order is written as one operation whatever its roles are. -/
theorem operation_eq_of_alike {t u : Tree} (h : t.Alike u) {o : Options} {root : String}
    (hroot : s.root? o.kind = some root) (hin : s.InOrder root t) : s.operation t o = s.operation u o := by
  simp only [operation, hroot, nesting_eq_of_alike h, contributions_eq_of_alike h fun _ => hin]

/-- A tree in order gives the same text when it is read again. -/
theorem serialize_reread_of_inOrder {t : Tree} {o : Options} {root : String} (hroot : s.root? o.kind = some root)
    (hin : s.InOrder root t) : s.serialize t.reread o = s.serialize t o := by
  rw [serialize, serialize, operation_eq_of_alike t.alike_reread hroot hin]

end Schema

end GraphSelect
