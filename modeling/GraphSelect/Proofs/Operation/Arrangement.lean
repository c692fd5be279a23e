import GraphSelect.Proofs.Operation.Sets

/-!
# The order in selection sets

Every item stands under the key of the entry that it comes from, so what a tree contributes comes in the order of its
keys (`inKeyOrder_items`), and no two items have one step. A body that is put into the fixed order has the name of the
type first, if that is selected, and keeps the order of the keys among fields and among fragments
(`inFixedOrder_sortItems`).

Which of the two it is goes by the place of a selection set in the operation (`IsArranged`), at every depth
(`serialize_order`). The operation is that of one walk, in which no item is moved (`operation_eq_walk`).
-/

namespace GraphSelect

namespace Tree

/-- Items are in the order of the keys of a tree, and each of them stands under a key of its own. -/
def InKeyOrder (t : Tree) (is : List Item) : Prop := (is.map Item.key).Sublist t.keys

/-- Items are in the fixed order of a body: the name of the type if its leaf in the tree is selected, then the fields in
the order of the keys, then the fragments in the order of the keys. -/
def InFixedOrder (t : Tree) (is : List Item) : Prop :=
  ∃ fields fragments,
    is = (if t.get? Key.typename = some (.leaf true) then [.typename] else []) ++ fields ++ fragments ∧
    (∀ i ∈ fields, i.isField = true) ∧ (∀ i ∈ fragments, i.isFragment = true) ∧
    t.InKeyOrder fields ∧ t.InKeyOrder fragments

/-- Items in the order of distinct keys stand for different steps. -/
theorem InKeyOrder.steps_nodup {t : Tree} {is : List Item} (h : t.InKeyOrder is) (htree : t.Distinct) :
    (is.map Item.step).Nodup := by
  have hkeys : ((is.map Item.step).map Step.key).Nodup := by
    rw [List.map_map]
    exact htree.keys_nodup.sublist h
  exact hkeys.of_map

end Tree

namespace Schema

open Contribution

variable {s : Schema} {provider : ArgumentProvider}

/-! ## Keys of items -/

section Keys

variable (hs : s.IsValid) {type : String}
include hs

theorem keys_leafItems_sublist (key : String) (selected : Bool) :
    ((items (s.leafContribution provider type key selected).toList).map Item.key).Sublist [key] := by
  rcases leafContribution_cases s provider type key selected with ⟨_, hm, he⟩ | ⟨f, _, hm, he⟩ | ⟨_, he⟩ <;> rw [he]
  · obtain ⟨rfl, _⟩ := hs.ends_iff.mpr (congrArg (Option.bind · Meaning.ends?) hm)
    exact .refl _
  · obtain ⟨rfl, _⟩ := hs.ends_iff.mpr (congrArg (Option.bind · Meaning.ends?) hm)
    exact .refl _
  · exact List.nil_sublist _

variable (ht : (s.kind? type).isSome)
include ht

theorem keys_branchItems_sublist (key : String) (role : Role) (body : Tree) :
    ((items (s.branchContributions provider type key role body)).map Item.key).Sublist [key] := by
  rcases s.items_branchContributions_cases provider type key role body with ⟨f, kind, is, hm, _, _, he⟩ |
    ⟨next, kind, is, hm, _, _, he⟩ | ⟨he, _⟩ <;> rw [he]
  · obtain ⟨rfl, _⟩ := hs.opens_of_meaning? ht hm rfl
    exact .refl _
  · obtain ⟨rfl, _⟩ := hs.opens_of_meaning? ht hm rfl
    exact .refl _
  · exact List.nil_sublist _

/-- What a tree contributes is in the order of its keys. -/
theorem inKeyOrder_items : ∀ t : Tree, t.InKeyOrder (items (s.contributions provider type t))
  | .empty => List.nil_sublist _
  | .leaf key selected rest => by
    rw [Tree.InKeyOrder, contributions, items_append, List.map_append]
    exact (keys_leafItems_sublist hs key selected).append (inKeyOrder_items rest)
  | .branch key role body rest => by
    rw [Tree.InKeyOrder, contributions_branch, items_append, List.map_append]
    exact (keys_branchItems_sublist hs ht key role body).append (inKeyOrder_items rest)

/-- The items of the root, selected or touched, are in the order of the keys. -/
theorem inKeyOrder_rootItems (t : Tree) : t.InKeyOrder (rootItems (s.contributions provider type t)) := by
  by_cases he : items (s.contributions provider type t) = []
  · obtain ⟨fs, hfs, hkeys, _⟩ := exists_touchedItems_eq s provider hs ht t
    rw [rootItems_eq_touchedItems he, hfs, Tree.InKeyOrder, List.map_map]
    exact hkeys
  · rw [rootItems_eq_items he]
    exact inKeyOrder_items hs ht t

end Keys

/-! ## The fixed order -/

/-- What a tree contributes is put into the fixed order by sorting. -/
theorem inFixedOrder_sortItems (hs : s.IsValid) {type : String} (ht : (s.kind? type).isSome) {t : Tree}
    (htree : t.Distinct) : t.InFixedOrder (sortItems (items (s.contributions provider type t))) := by
  have horder : t.InKeyOrder (items (s.contributions provider type t)) := inKeyOrder_items hs ht t
  refine ⟨_, _, ?_, fun i hi => (List.mem_filter.mp hi).2, fun i hi => (List.mem_filter.mp hi).2,
    (List.filter_sublist.map Item.key).trans horder, (List.filter_sublist.map Item.key).trans horder⟩
  rw [sortItems, namesType_contributions type htree]

/-! ## Operations -/

/-- The selection set at the end of a path is put into the fixed order: it is not that of the root, and it is on an
interface or union, or comes from a tree that is marked as one that may hold branches. -/
def IsArranged (s : Schema) (tree : Tree) (p : List Step) (type : String) : Prop :=
  p ≠ [] ∧ ((s.kind? type).any TypeKind.isAbstract = true ∨
    ∃ body, tree.at? (p.map Step.key) = some (.branch .fragment body))

theorem isArranged_iff {tree body : Tree} {p : List Step} {type : String} {kind : TypeKind} {role : Role} (hp : p ≠ [])
    (hk : s.kind? type = some kind) (hat : tree.at? (p.map Step.key) = some (.branch role body)) :
    s.IsArranged tree p type ↔ isSorted kind role = true := by
  rw [IsArranged, hk, hat, isSorted, Bool.or_eq_true, decide_eq_true_iff, and_iff_right hp]
  refine or_congr .rfl ⟨?_, ?_⟩
  · rintro ⟨body', he⟩
    cases he
    rfl
  · rintro rfl
    exact ⟨body, rfl⟩

/-- The order of a written operation. Every selection set in it comes from the tree at the end of its path, and no two
of its entries are the name of the type, fields with one name or fragments for one type. If it is not the root's and
is on an interface or union, or the tree is marked as one that may hold branches, then the name of the type comes first,
if it is selected, then the fields in the order of the keys, then the fragments in the order of the keys. All others
are in the order of the keys. -/
theorem serialize_order (hs : s.IsValid) {tree : Tree} (htree : tree.Distinct) {o : Options} {text : String}
    (h : s.serialize tree o = .ok text) :
    ∃ root op, s.root? o.kind = some root ∧ s.operation tree o = .ok op ∧ s.walk tree o = .ok op ∧ op.write = text ∧
      ∀ p is, SetAt op.items p is →
        ∃ type body, s.Follows root p type ∧ tree.subtree? (p.map Step.key) = some body ∧ (is.map Item.step).Nodup ∧
          (s.IsArranged tree p type → body.InFixedOrder is) ∧
          (¬ s.IsArranged tree p type → body.InKeyOrder is) := by
  obtain ⟨op, hop, hwrite⟩ := serialize_eq_ok h
  obtain ⟨root, hroot, _, _, hitems, _⟩ := operation_eq_ok hop
  have ht : (s.kind? root).isSome := hs.kind?_root hroot ▸ rfl
  refine ⟨root, op, hroot, hop, operation_eq_walk htree o ▸ hop, hwrite, fun p is hset => ?_⟩
  rw [hitems] at hset
  by_cases hp : p = []
  · subst hp
    obtain rfl := hset.eq_of_nil
    have horder : tree.InKeyOrder (rootItems (s.contributions o.provider root tree)) :=
      inKeyOrder_rootItems hs ht tree
    exact ⟨root, tree, .nil, rfl, horder.steps_nodup htree, fun harr => absurd rfl harr.1, fun _ => horder⟩
  · obtain ⟨type, kind, role, body, hfollows, hk, hat, rfl⟩ :=
      bodyAt_of_setAt hs hset ht htree (bodiesIn_rootItems hs ht htree) hp
    have hbody : tree.subtree? (p.map Step.key) = some body := by
      rw [Tree.subtree?_eq_bind tree (by simpa using hp), hat]
      rfl
    have htype : (s.kind? type).isSome := hk ▸ rfl
    have horder : body.InKeyOrder (items (s.contributions o.provider type body)) := inKeyOrder_items hs htype body
    have hdistinct := htree.subtree? hbody
    refine ⟨type, body, hfollows, hbody, ?_, fun harr => ?_, fun harr => ?_⟩
    · have hnodup := horder.steps_nodup hdistinct
      exact ((arrange_perm _ _).map Item.step).nodup_iff.mpr hnodup
    · rw [(isArranged_iff hp hk hat).mp harr]
      exact inFixedOrder_sortItems hs htype hdistinct
    · rw [isArranged_iff hp hk hat, Bool.not_eq_true] at harr
      rw [harr]
      exact horder

/-- An interface with its entries out of order, and an object type and the root that keep theirs. -/
theorem serialize_order_node : ∃ (s : Schema) (tree : Tree) (o : Options) (text : String),
    s.IsValid ∧ tree.Distinct ∧ s.serialize tree o = .ok text ∧
    text = "query { node { __typename id ... on User { name __typename id } } __typename }" ∧
    ∃ root op, s.root? o.kind = some root ∧ s.operation tree o = .ok op ∧ s.walk tree o = .ok op ∧ op.write = text ∧
      ∀ p is, SetAt op.items p is →
        ∃ type body, s.Follows root p type ∧ tree.subtree? (p.map Step.key) = some body ∧ (is.map Item.step).Nodup ∧
          (s.IsArranged tree p type → body.InFixedOrder is) ∧
          (¬ s.IsArranged tree p type → body.InKeyOrder is) := by
  let user : Tree := .leaf "name" true (.leaf "__typename" true (.leaf "id" true .empty))
  let tree : Tree := .branch "node" .node (.branch "on_User" .node user
    (.leaf "id" true (.leaf "__typename" true .empty))) (.leaf "__typename" true .empty)
  have htree : tree.Distinct := by simp [tree, user, Tree.Distinct, Tree.keys]
  obtain ⟨s, hs, h⟩ := exists_isValid_of_parse
    "interface Node { id: ID } type User implements Node { id: ID name: ID } type Query { node: Node }"
    (fun s => decide ((s.serialize tree {}).toOption =
      some "query { node { __typename id ... on User { name __typename id } } __typename }"))
    (by decide +kernel)
  have htext := eq_ok_of_toOption_eq_some (of_decide_eq_true h)
  exact ⟨s, tree, {}, _, hs, htree, htext, rfl, serialize_order hs htree htext⟩

end Schema

end GraphSelect
