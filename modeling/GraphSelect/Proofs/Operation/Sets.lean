import GraphSelect.Proofs.Operation.Unknown

/-!
# Selection sets of an operation

A selection set inside an operation stands at the end of a path, with one step for each field or inline fragment around
it (`SetAt`). The same steps lead in the schema from the root type to the type that the set is on, where every item in
it is written (`exists_written_of_setAt`), and in the tree to the body that the set comes from: it is what the body
contributes, in the order of the body (`bodyAt_of_setAt`).
-/

namespace GraphSelect

namespace Item

/-- The step of a path that an item stands for. -/
def step : Item → Step
  | .typename => .typename
  | .scalar name _ => .field name
  | .composite name _ _ => .field name
  | .fragment type _ => .branch type

/-- The key of a tree that an item stands under. -/
def key (i : Item) : String := i.step.key

/-- The selection set of an item that has one. -/
def body? : Item → Option (List Item)
  | .composite _ _ body => some body
  | .fragment _ body => some body
  | _ => none

end Item

/-- One selection set stands inside another, at the end of a path through fields and inline fragments. -/
inductive SetAt : List Item → List Step → List Item → Prop
  | nil {is : List Item} : SetAt is [] is
  | cons {is body js : List Item} {i : Item} {p : List Step} : i ∈ is → i.body? = some body → SetAt body p js →
      SetAt is (i.step :: p) js

theorem SetAt.eq_of_nil {is js : List Item} (h : SetAt is [] js) : js = is := by
  cases h
  rfl

namespace Schema

open Contribution

variable {s : Schema} {provider : ArgumentProvider}

/-! ## Items and their entries -/

/-- The items of a branch entry with all that is known of them: around what its body contributes, in the order of the
body, a field or a fragment as its key means. -/
theorem exists_of_mem_items_branchContributions {type key : String} {role : Role} {body : Tree} {i : Item}
    (h : i ∈ items (s.branchContributions provider type key role body)) :
    (∃ f kind, s.meaning? type key = some (.composite f kind) ∧ i = .composite f.name (provider s type f)
      (arrange (isSorted kind role) (items (s.contributions provider f.type.base body)))) ∨
    ∃ next kind, s.meaning? type key = some (.branch next kind) ∧
      i = .fragment next (arrange (isSorted kind role) (items (s.contributions provider next body))) := by
  rw [branchContributions_eq] at h
  cases hm : s.meaning? type key with
  | none =>
    rw [hm] at h
    cases h
  | some m =>
    rw [hm] at h
    cases m with
    | typename => cases h
    | leaf f => cases h
    | composite f kind =>
      dsimp only at h
      split at h
      · cases h
      · rw [items_ofField_eq] at h
        split at h
        · cases h
        · exact .inl ⟨f, kind, rfl, List.mem_singleton.mp h⟩
    | branch next kind =>
      dsimp only at h
      rw [items_ofBranch_eq] at h
      split at h
      · cases h
      · exact .inr ⟨next, kind, rfl, List.mem_singleton.mp h⟩

/-- The items that one entry of a tree contributes. -/
def entryItems (s : Schema) (provider : ArgumentProvider) (type key : String) : Selection → List Item
  | .leaf selected => items (s.leafContribution provider type key selected).toList
  | .branch role body => items (s.branchContributions provider type key role body)

theorem items_contributions_eq_flatMap (type : String) : ∀ t : Tree, items (s.contributions provider type t) =
    t.entries.flatMap fun e => s.entryItems provider type e.1 e.2
  | .empty => rfl
  | .leaf key selected rest => by
    rw [contributions, items_append, items_contributions_eq_flatMap type rest, Tree.entries, List.flatMap_cons]
    rfl
  | .branch key role body rest => by
    rw [contributions_branch, items_append, items_contributions_eq_flatMap type rest, Tree.entries, List.flatMap_cons]
    rfl

/-- The items of a tree are those of its leaves and of its branches. -/
theorem mem_items_iff {type : String} {i : Item} {t : Tree} : i ∈ items (s.contributions provider type t) ↔
    (∃ key selected, (key, .leaf selected) ∈ t.entries ∧
      i ∈ items (s.leafContribution provider type key selected).toList) ∨
    ∃ key role body, (key, .branch role body) ∈ t.entries ∧
      i ∈ items (s.branchContributions provider type key role body) := by
  rw [items_contributions_eq_flatMap, List.mem_flatMap]
  constructor
  · rintro ⟨⟨key, sel⟩, hentry, hi⟩
    cases sel with
    | leaf selected => exact .inl ⟨key, selected, hentry, hi⟩
    | branch role body => exact .inr ⟨key, role, body, hentry, hi⟩
  · rintro (⟨key, selected, hentry, hi⟩ | ⟨key, role, body, hentry, hi⟩)
    · exact ⟨_, hentry, hi⟩
    · exact ⟨_, hentry, hi⟩

/-! ## Places of selection sets -/

/-- A selection set comes from the body at the end of a path that opens types: it is what the body contributes, in the
order of the body. -/
def BodyAt (s : Schema) (provider : ArgumentProvider) (type : String) (t : Tree) (p : List Step) (is : List Item) :
    Prop :=
  ∃ next kind role body, s.Follows type p next ∧ s.kind? next = some kind ∧
    t.at? (p.map Step.key) = some (.branch role body) ∧
    is = arrange (isSorted kind role) (items (s.contributions provider next body))

/-- The selection sets of all items of a set come from the bodies right inside a tree. -/
def BodiesIn (s : Schema) (provider : ArgumentProvider) (type : String) (t : Tree) (is : List Item) : Prop :=
  ∀ i ∈ is, ∀ body, i.body? = some body → s.BodyAt provider type t [i.step] body

theorem BodiesIn.of_perm {type : String} {t : Tree} {is js : List Item} (h : s.BodiesIn provider type t is)
    (hperm : js.Perm is) : s.BodiesIn provider type t js :=
  fun i hi => h i (hperm.mem_iff.mp hi)

section Places

variable (hs : s.IsValid)
include hs

/-- What stands under a key that means a field or a branch is a body. -/
theorem bodyAt_of_meaning? {type key : String} (ht : (s.kind? type).isSome) {t : Tree} (htree : t.Distinct)
    {role : Role} {body : Tree} (hentry : (key, .branch role body) ∈ t.entries) {m : Meaning} {st : Step}
    {next : String} {kind : TypeKind} (hm : s.meaning? type key = some m) (ho : m.opens? = some (st, next))
    (hk : s.kind? next = some kind) :
    s.BodyAt provider type t [st] (arrange (isSorted kind role) (items (s.contributions provider next body))) := by
  obtain ⟨rfl, ho⟩ := hs.opens_of_meaning? ht hm ho
  exact ⟨next, kind, role, body, .cons ho .nil, hk, htree.get?_of_mem hentry, rfl⟩

/-- The selection sets in what a tree contributes come from its bodies. -/
theorem bodiesIn_items {type : String} (ht : (s.kind? type).isSome) {t : Tree} (htree : t.Distinct) :
    s.BodiesIn provider type t (items (s.contributions provider type t)) := by
  intro i hi is hbody
  rcases mem_items_iff.mp hi with ⟨key, selected, _, hleaf⟩ | ⟨key, role, body, hentry, hi⟩
  · rcases leafContribution_cases s provider type key selected with ⟨_, _, he⟩ | ⟨f, _, _, he⟩ | ⟨_, he⟩ <;>
      rw [he] at hleaf
    · obtain rfl := List.mem_singleton.mp hleaf
      cases hbody
    · obtain rfl := List.mem_singleton.mp hleaf
      cases hbody
    · cases hleaf
  · rcases exists_of_mem_items_branchContributions hi with ⟨f, kind, hm, rfl⟩ | ⟨next, kind, hm, rfl⟩
    · cases hbody
      exact bodyAt_of_meaning? hs ht htree hentry hm rfl (hs.meaning?_eq_composite_iff.mp hm).2.1
    · cases hbody
      exact bodyAt_of_meaning? hs ht htree hentry hm rfl (hs.kind?_of_meaning?_eq_branch hm)

/-- The items of the root, selected or touched, have selection sets that come from the tree. -/
theorem bodiesIn_rootItems {type : String} (ht : (s.kind? type).isSome) {t : Tree} (htree : t.Distinct) :
    s.BodiesIn provider type t (rootItems (s.contributions provider type t)) := by
  by_cases he : items (s.contributions provider type t) = []
  · obtain ⟨fs, hfs, _, hmem⟩ := exists_touchedItems_eq s provider hs ht t
    rw [rootItems_eq_touchedItems he, hfs]
    intro i hi is hbody
    obtain ⟨f, hf, rfl⟩ := List.mem_map.mp hi
    obtain ⟨key, role, body, kind, hentry, _, hm, hnil⟩ := (hmem f).mp hf
    cases hbody
    have hset : s.BodyAt provider type t _ _ := bodyAt_of_meaning? hs ht htree hentry hm rfl
      (hs.meaning?_eq_composite_iff.mp hm).2.1
    rwa [hnil, items_nil, List.perm_nil.mp (arrange_perm _ _)] at hset
  · rw [rootItems_eq_items he]
    exact bodiesIn_items hs ht htree

/-- The steps to a selection set lead to the body in the tree that it comes from. -/
theorem bodyAt_of_setAt {is js : List Item} {p : List Step} (h : SetAt is p js) : ∀ {type : String} {t : Tree},
    (s.kind? type).isSome → t.Distinct → s.BodiesIn provider type t is → p ≠ [] → s.BodyAt provider type t p js := by
  induction h with
  | nil => exact fun _ _ _ hp => absurd rfl hp
  | @cons is _ js i p hmem hbody hset ih =>
    intro type t ht htree hin _
    obtain ⟨next, kind, role, body, hopens, hk, hat, rfl⟩ := hin i hmem _ hbody
    cases p with
    | nil => exact ⟨next, kind, role, body, hopens, hk, hat, hset.eq_of_nil⟩
    | cons st p =>
      have hnext : (s.kind? next).isSome := hk ▸ rfl
      have hdistinct : body.Distinct := htree.get? hat body rfl
      obtain ⟨last, kind', role', body', hp, hk', hat', hjs⟩ := ih hnext hdistinct
        ((bodiesIn_items hs hnext hdistinct).of_perm (arrange_perm _ _)) (List.cons_ne_nil _ _)
      refine ⟨last, kind', role', body', hopens.append hp, hk', ?_, hjs⟩
      have hget : t.get? i.step.key = some (.branch role body) := hat
      rw [List.map_cons, Tree.at?_cons, hget]
      exact hat'

end Places

/-- The steps to a selection set lead to the type that its items are written on. -/
theorem exists_written_of_setAt {is js : List Item} {p : List Step} (h : SetAt is p js) : ∀ {type : String},
    (∀ i ∈ is, s.Written provider type i) → ∃ next, s.Follows type p next ∧ ∀ i ∈ js, s.Written provider next i := by
  induction h with
  | nil => exact fun hw => ⟨_, .nil, hw⟩
  | cons hmem hbody _ ih =>
    intro type hw
    cases hw _ hmem with
    | typename => cases hbody
    | scalar _ _ => cases hbody
    | composite hf hk hc _ hwritten =>
      cases hbody
      obtain ⟨next, hp, hjs⟩ := ih hwritten
      exact ⟨next, .cons (.field hf hk hc) hp, hjs⟩
    | fragment ho _ hwritten =>
      cases hbody
      obtain ⟨next, hp, hjs⟩ := ih hwritten
      exact ⟨next, .cons ho hp, hjs⟩

end Schema

end GraphSelect
