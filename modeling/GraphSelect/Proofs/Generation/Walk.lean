import GraphSelect.Proofs.Generation.Expansion
import GraphSelect.Proofs.Resolution

/-!
# Walks in the type graph

A step of the type graph leads from a type to the type of one of its fields, or from an interface or union to an object
type that it can be. A `Walk` is a sequence of steps from a root with the types that it met before the last one, none of
its keys being a field and a branch at once. What the generated tree holds at the end of a walk depends on these types
alone (`generateType_walks`): a new type is expanded in full, a type that was met before stands as its own fields, and
there is nothing beyond them.

The way that `expand` carries is the list of the types that were met (`Walk.subtree?_expand`).
-/

namespace GraphSelect

namespace Schema

/-- A step of the type graph: a field leads to its named type, and a branch of an interface or union to its type. -/
inductive Leads (s : Schema) (type : String) : Step → String → Prop
  | field {f : Field} : f ∈ s.fields type → Leads s type (.field f.name) f.type.base
  | branch {t : String} : t ∈ s.branchTypes type → Leads s type (.branch t) t

/-- A walk in the type graph from a root: its steps, the types that it met before the last one, and the last one. No key
of it is a field and a branch at once. -/
inductive Walk (s : Schema) (root : String) : List Step → List String → String → Prop
  | start : Walk s root [] [] root
  | step {p : List Step} {met : List String} {type next : String} {st : Step} : Walk s root p met type →
      s.Leads type st next → ¬ s.Clashes type st.key → Walk s root (p ++ [st]) (met ++ [type]) next

variable {s : Schema}

/-- A type with fields is an object or interface type. -/
theorem isComposite_of_mem_fields {type : String} {f : Field} (h : f ∈ s.fields type) : s.IsComposite type := by
  unfold fields at h
  unfold IsComposite kind?
  cases hb : s.body? type with
  | none => simp [hb] at h
  | some body =>
    rw [hb] at h
    cases body with
    | object _ _ => exact ⟨.object, rfl, rfl⟩
    | interface _ _ => exact ⟨.interface, rfl, rfl⟩
    | scalar => cases h
    | union _ => cases h
    | enum _ => cases h
    | input _ => cases h

/-- Steps start at object, interface and union types. -/
theorem Leads.isComposite {type next : String} {st : Step} (h : s.Leads type st next) : s.IsComposite type := by
  cases h with
  | field hf => exact isComposite_of_mem_fields hf
  | branch ht =>
    unfold branchTypes at ht
    split at ht
    · rename_i hk
      exact ⟨_, hk, rfl⟩
    · rename_i hk
      exact ⟨_, hk, rfl⟩
    · cases ht

/-- The types that a walk met before the last one are object, interface and union types. -/
theorem Walk.isComposite_of_mem {root last : String} {p : List Step} {met : List String}
    (h : s.Walk root p met last) : ∀ t ∈ met, s.IsComposite t := by
  induction h with
  | start =>
    intro t ht
    cases ht
  | step _ hl _ ih =>
    intro t ht
    rcases List.mem_append.mp ht with ht | ht
    · exact ih t ht
    · obtain rfl := List.mem_singleton.mp ht
      exact hl.isComposite

/-- Beyond a type that was met before there are its own fields and nothing else. -/
theorem at?_of_shallow {path : List String} {tree : Tree} {last : String}
    (h : tree.at? path = some (.branch .node (s.shallow last))) (key : String) (rest : List String) :
    tree.at? (path ++ key :: rest) =
      if rest = [] ∧ key ∈ (s.fields last).map Field.name then some (.leaf false) else none := by
  have hsub : tree.subtree? path = some (s.shallow last) := by
    rw [Tree.subtree?_eq_bind tree (Tree.ne_nil_of_at? h), h]
    rfl
  rw [Tree.at?_append, hsub, Option.bind_some, at?_shallow]

theorem Walk.eq_of_nil {root last : String} {met : List String} (h : s.Walk root [] met last) :
    met = [] ∧ root = last := by
  generalize hp : ([] : List Step) = p at h
  cases h with
  | start => exact ⟨rfl, rfl⟩
  | step _ _ _ => simp at hp

section Walks

variable (hs : s.IsValid)
include hs

theorem Leads.exists_kind?_next {type next : String} {st : Step} (h : s.Leads type st next) :
    ∃ kind, s.kind? next = some kind := by
  cases h with
  | field hf => exact hs.exists_kind?_of_mem_fields hf
  | branch ht => exact ⟨_, hs.kind?_branchType ht⟩

/-- An expansion holds under the key of a step what the type that the step leads to gives. -/
theorem Leads.get?_expand {type next : String} {st : Step} (h : s.Leads type st next) (hc : ¬ s.Clashes type st.key)
    (withTypename : Bool) (visited : List String) :
    (s.expand withTypename visited type).get? st.key = s.selectionAt withTypename visited next := by
  cases h with
  | field hf => exact hs.get?_expand_field withTypename visited hf hc
  | branch ht => exact hs.get?_expand_branch withTypename visited ht

variable {root last : String} {p : List Step} {met : List String} (withTypename : Bool)

/-- At the end of a walk that meets no type twice stands the expansion of its last type, on the way of the types met. -/
theorem Walk.subtree?_expand (h : s.Walk root p met last) : (met ++ [last]).Nodup → s.IsComposite last →
    (s.expand withTypename [root] root).subtree? (p.map Step.key) =
      some (s.expand withTypename (last :: met.reverse) last) := by
  induction h with
  | start => exact fun _ _ => rfl
  | @step p met type next st _ hl hc ih =>
    intro hd ⟨kind, hk, hcomposite⟩
    obtain ⟨hd', -, hnew⟩ := List.nodup_append.mp hd
    have hnext : next ∉ type :: met.reverse := fun hm =>
      hnew next (by simpa [or_comm] using hm) next (List.mem_singleton_self _) rfl
    have hsel := selectionAt_cases withTypename (type :: met.reverse) hk
    rw [List.map_append, Tree.subtree?_append, ih hd' hl.isComposite, Option.bind_some, List.map_singleton,
      Tree.subtree?_cons, hl.get?_expand hs hc]
    rcases hsel with ⟨rfl, _⟩ | ⟨_, hm, _⟩ | ⟨_, _, hsel⟩
    · cases hcomposite
    · exact absurd hm hnext
    · rw [hsel, List.reverse_append]
      rfl

/-- What is found at the end of a walk, if only its last type can have been met before. -/
theorem Walk.at?_expand {type next : String} {st : Step} (h : s.Walk root p met type) (hd : (met ++ [type]).Nodup)
    (hl : s.Leads type st next) (hc : ¬ s.Clashes type st.key) :
    (s.expand withTypename [root] root).at? ((p ++ [st]).map Step.key) =
      s.selectionAt withTypename (type :: met.reverse) next := by
  rw [List.map_append, List.map_singleton, Tree.at?_append, h.subtree?_expand hs withTypename hd hl.isComposite,
    Option.bind_some]
  exact hl.get?_expand hs hc withTypename _

/-- A type that was not met before is expanded. -/
theorem Walk.at?_of_new (h : s.Walk root p met last) (hp : p ≠ []) (hd : (met ++ [last]).Nodup) {kind : TypeKind}
    (hk : s.kind? last = some kind) (hcomposite : kind.isComposite = true) :
    (s.expand withTypename [root] root).at? (p.map Step.key) =
      some (.branch (roleOf kind) (s.expand withTypename (last :: met.reverse) last)) := by
  cases h with
  | start => exact absurd rfl hp
  | @step p met type _ st h hl hc =>
    obtain ⟨hd', -, hnew⟩ := List.nodup_append.mp hd
    rw [h.at?_expand hs withTypename hd' hl hc, List.reverse_append]
    rcases selectionAt_cases withTypename (type :: met.reverse) hk with ⟨rfl, _⟩ | ⟨_, hm, _⟩ | ⟨_, _, hsel⟩
    · cases hcomposite
    · exact absurd rfl (hnew last (by simpa [or_comm] using hm) last (List.mem_singleton_self _))
    · exact hsel

/-- A type that was met before is shallow. -/
theorem Walk.at?_of_met (h : s.Walk root p met last) (hd : met.Nodup) (hm : last ∈ met) :
    (s.expand withTypename [root] root).at? (p.map Step.key) = some (.branch .node (s.shallow last)) := by
  obtain ⟨kind, hk, hcomposite⟩ := h.isComposite_of_mem last hm
  cases h with
  | start => cases hm
  | @step p met type _ st h hl hc =>
    rw [h.at?_expand hs withTypename hd hl hc]
    rcases selectionAt_cases withTypename (type :: met.reverse) hk with ⟨rfl, _⟩ | ⟨_, _, hsel⟩ | ⟨_, hno, _⟩
    · cases hcomposite
    · exact hsel
    · exact absurd (by simpa [or_comm] using hm) hno

/-- A scalar or enum type is a leaf. -/
theorem Walk.at?_of_leaf (h : s.Walk root p met last) (hp : p ≠ []) (hd : met.Nodup)
    (hk : s.kind? last = some .leaf) :
    (s.expand withTypename [root] root).at? (p.map Step.key) = some (.leaf false) := by
  cases h with
  | start => exact absurd rfl hp
  | @step p met type _ st h hl hc =>
    rw [h.at?_expand hs withTypename hd hl hc]
    rcases selectionAt_cases withTypename (type :: met.reverse) hk with ⟨_, hsel⟩ | ⟨hcomposite, _⟩ | ⟨hcomposite, _⟩
    · exact hsel
    · cases hcomposite
    · cases hcomposite

end Walks

/-! ## Generated trees -/

/-- A tree that expands a type in full: it has an entry for each field and for each branch, and where it is wanted one
for the name of the type. -/
def IsExpansion (s : Schema) (withTypename : Bool) (type : String) (tree : Tree) : Prop :=
  tree.keys = s.expandedKeys withTypename type ∧
    (withTypename = true → (s.kind? type).any TypeKind.isAbstract = true → tree.get? Key.typename = some (.leaf false))

theorem IsValid.isExpansion_expand (hs : s.IsValid) (withTypename : Bool) (visited : List String) (type : String) :
    s.IsExpansion withTypename type (s.expand withTypename visited type) := by
  refine ⟨hs.keys_expand withTypename visited type, fun hw ha => ?_⟩
  obtain ⟨kind, hk, hkind⟩ := (Option.any_eq_true _ _).mp ha
  exact hs.get?_expand_typename visited hw hk hkind

theorem IsValid.generateType_eq (hs : s.IsValid) {root : String} (hroot : s.kind? root = some .object) (o : Options) :
    s.generateType root o = .ok (s.expand o.includeTypename [root] root) := by
  have hne : (s.fields root).isEmpty = false := by
    rw [List.isEmpty_eq_false_iff]
    exact hs.fields_ne_nil hroot
  exact if_pos ⟨hroot, hne⟩

/-- What the generated tree of an object type holds at the end of each walk. If the walk meets no type twice, it is the
last type expanded in full. If only the last type was met before, it is a node of precisely its own fields, all of them
leaves, with nothing beyond them. At the end of a walk to a scalar or enum type there is a leaf. -/
theorem generateType_walks (hs : s.IsValid) {root : String} (hroot : s.kind? root = some .object) (o : Options) :
    ∃ tree, s.generateType root o = .ok tree ∧ s.IsExpansion o.includeTypename root tree ∧
      ∀ p met last, s.Walk root p met last →
        (p ≠ [] → (met ++ [last]).Nodup → ∀ kind, s.kind? last = some kind → kind.isComposite = true →
          ∃ body, tree.at? (p.map Step.key) = some (.branch (roleOf kind) body) ∧
            s.IsExpansion o.includeTypename last body) ∧
        (met.Nodup → last ∈ met → ∃ body, tree.at? (p.map Step.key) = some (.branch .node body) ∧
          body.entries = (s.fields last).map (fun f => (f.name, .leaf false)) ∧
          ∀ key rest, tree.at? (p.map Step.key ++ key :: rest) =
            if rest = [] ∧ key ∈ (s.fields last).map Field.name then some (.leaf false) else none) ∧
        (met.Nodup → s.kind? last = some .leaf → tree.at? (p.map Step.key) = some (.leaf false)) := by
  refine ⟨_, hs.generateType_eq hroot o, hs.isExpansion_expand _ _ _, fun p met last h => ⟨?_, ?_, ?_⟩⟩
  · intro hp hd kind hk hcomposite
    exact ⟨_, h.at?_of_new hs o.includeTypename hp hd hk hcomposite, hs.isExpansion_expand _ _ _⟩
  · intro hd hm
    have hat := h.at?_of_met hs o.includeTypename hd hm
    exact ⟨_, hat, hs.entries_shallow last, at?_of_shallow hat⟩
  · intro hd hk
    have hp : p ≠ [] := by
      rintro rfl
      obtain ⟨rfl, rfl⟩ := h.eq_of_nil
      rw [hroot] at hk
      cases hk
    exact h.at?_of_leaf hs o.includeTypename hp hd hk

/-- A user with friends that are users: the walk to them meets a type again, so there they stand as their fields. -/
theorem generateType_walks_friends : ∃ (s : Schema) (root : String) (o : Options),
    s.IsValid ∧ s.kind? root = some .object ∧ s.Walk root [.field "friends"] [root] root ∧
    ∃ tree, s.generateType root o = .ok tree ∧ s.IsExpansion o.includeTypename root tree ∧
      ∀ p met last, s.Walk root p met last →
        (p ≠ [] → (met ++ [last]).Nodup → ∀ kind, s.kind? last = some kind → kind.isComposite = true →
          ∃ body, tree.at? (p.map Step.key) = some (.branch (roleOf kind) body) ∧
            s.IsExpansion o.includeTypename last body) ∧
        (met.Nodup → last ∈ met → ∃ body, tree.at? (p.map Step.key) = some (.branch .node body) ∧
          body.entries = (s.fields last).map (fun f => (f.name, .leaf false)) ∧
          ∀ key rest, tree.at? (p.map Step.key ++ key :: rest) =
            if rest = [] ∧ key ∈ (s.fields last).map Field.name then some (.leaf false) else none) ∧
        (met.Nodup → s.kind? last = some .leaf → tree.at? (p.map Step.key) = some (.leaf false)) := by
  obtain ⟨s, hs, h⟩ := exists_isValid_of_parse
    "interface Named { name: ID } type User implements Named { name: ID friends: [User] } type Query { named: Named }"
    (fun s => decide (s.kind? "User" = some .object ∧
      (s.fields "User").any fun f => decide (f.name = "friends" ∧ f.type.base = "User")))
    (by decide +kernel)
  obtain ⟨hroot, hfield⟩ := of_decide_eq_true h
  obtain ⟨f, hf, hname⟩ := List.any_eq_true.mp hfield
  obtain ⟨hname, hbase⟩ := of_decide_eq_true hname
  have hl : s.Leads "User" (.field "friends") "User" := by
    have := Leads.field hf
    rwa [hname, hbase] at this
  have hc : ¬ s.Clashes "User" "friends" := by
    rintro ⟨_, t, ht, _⟩
    simp [branchTypes, hroot] at ht
  exact ⟨s, "User", {}, hs, hroot, .step .start hl hc, generateType_walks hs hroot {}⟩

end Schema

end GraphSelect
