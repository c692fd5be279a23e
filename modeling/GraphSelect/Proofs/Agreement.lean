import GraphSelect.Proofs.Generation.Leaves
import GraphSelect.Proofs.Operation.Edit
import GraphSelect.Proofs.Operation.Paths

/-!
# Generated trees and their operations

What is generated can be written: whichever leaves of a generated tree are set, its operation has exactly the paths of
those selected leaves that are names of types or fields of scalar and enum types (`generate_agrees`). The generator
follows the type graph and the writer the keys of the tree; both come together at a walk, whose keys mean to the writer
the steps that the generator made (`Leads.opens`, `Walk.resolves_of_keys`).
-/

namespace GraphSelect

namespace Schema

open Contribution

variable {s : Schema}

/-! ## Walks resolve -/

section Walks

variable (hs : s.IsValid)
include hs

/-- A step to an object, interface or union type is a step inside a path, unless its key clashes. -/
theorem Leads.opens {type next : String} {st : Step} (h : s.Leads type st next) (hc : ¬ s.Clashes type st.key)
    (hnext : s.IsComposite next) : s.Opens type st next := by
  cases h with
  | field hf =>
    obtain ⟨kind, hk, hcomposite⟩ := hnext
    exact .field (hs.field?_of_mem_fields hf) hk hcomposite
  | @branch t ht =>
    refine .branch ?_ ?_
    · by_contra hne
      exact hc ⟨Option.isSome_iff_ne_none.mpr hne, next, ht, rfl⟩
    · exact .inr (hs.mem_branchTypes_iff.mp ht)

variable {root last : String} {p : List Step} {met : List String}

/-- A path that resolves at the end of a walk resolves from its start. -/
theorem Walk.resolves_append (h : s.Walk root p met last) : s.IsComposite last → ∀ {q : List Step},
    s.Resolves last q → s.Resolves root (p ++ q) := by
  induction h with
  | start => exact fun _ _ hq => hq
  | step _ hl hc ih =>
    intro hcomposite q hq
    rw [List.append_assoc]
    exact ih hl.isComposite (.step (hl.opens hs hc hcomposite) hq)

/-- A path under the keys of a walk that resolves takes the steps of the walk. -/
theorem Walk.resolves_of_keys (h : s.Walk root p met last) : s.IsComposite last →
    ∀ {keys : List String} {path : List Step}, keys ≠ [] → path.map Step.key = p.map Step.key ++ keys →
    s.Resolves root path → ∃ q, path = p ++ q ∧ q.map Step.key = keys ∧ s.Resolves last q := by
  induction h with
  | start => exact fun _ _ path _ hkeys hr => ⟨path, rfl, hkeys, hr⟩
  | @step p met type next st _ hl hc ih =>
    intro hcomposite keys path hne hkeys hr
    have ht : (s.kind? type).isSome := hl.isComposite.isSome
    rw [List.map_append, List.append_assoc] at hkeys
    obtain ⟨q, rfl, hq, hr⟩ := ih hl.isComposite (List.cons_ne_nil _ _) hkeys hr
    obtain ⟨st', q, rfl, hst, rfl⟩ := List.map_eq_cons_iff.mp hq
    obtain ⟨next', ho, hr⟩ := (resolves_cons (by simpa using hne)).mp hr
    have hmeaning := (hs.opens_iff ht).mp ⟨hst, ho⟩
    rw [(hs.opens_iff ht).mp ⟨rfl, hl.opens hs hc hcomposite⟩] at hmeaning
    cases hmeaning
    exact ⟨q, by rw [List.append_assoc]; rfl, rfl, hr⟩

/-- A last step that a type offers is the only one under its key. -/
theorem ends_of_key {st st' : Step} (hoffers : s.Offers last st) (hkey : st'.key = st.key) (h : s.Ends last st') :
    s.Ends last st := by
  rcases hoffers with ⟨rfl, _⟩ | ⟨f, hf, rfl⟩
  · exact .typename
  · cases h with
    | typename => exact absurd hkey.symm (hs.ne_typename_of_mem_fields hf)
    | field hfield hk =>
      obtain rfl : _ = f.name := hkey
      exact .field hfield hk

/-- A path under the keys of a walk and a last step resolves exactly if the step ends a path there. -/
theorem Walk.resolves_concat_iff (h : s.Walk root p met last) {st : Step} (hoffers : s.Offers last st) :
    (∃ path, path.map Step.key = (p ++ [st]).map Step.key ∧ s.Resolves root path) ↔ s.Ends last st := by
  constructor
  · rintro ⟨path, hkeys, hr⟩
    rw [List.map_append] at hkeys
    obtain ⟨q, _, hq, hr⟩ := h.resolves_of_keys hs hoffers.isComposite (List.cons_ne_nil _ _) hkeys hr
    obtain ⟨st', rfl, hst⟩ := List.map_eq_singleton_iff.mp hq
    exact ends_of_key hs hoffers hst (resolves_singleton.mp hr)
  · intro hends
    exact ⟨p ++ [st], rfl, h.resolves_append hs hoffers.isComposite (.last hends)⟩

end Walks

/-! ## Leaves in operations -/

section Leaves

variable (hs : s.IsValid)
include hs

variable {o : Options} {root last : String} (hroot : s.root? o.kind = some root) {tree : Tree} (htree : tree.Distinct)
include hroot htree

variable {op : Operation} (hop : s.operation tree o = .ok op) {p : List Step} {met : List String} {st : Step} {b : Bool}
include hop

/-- A leaf at the end of a walk is in the operation exactly if it is selected and ends a path, and nothing is behind it
in any case. -/
theorem mem_paths_of_walk (hwalk : s.Walk root p met last) (hoffers : s.Offers last st)
    (hleaf : ((p ++ [st]).map Step.key, b) ∈ tree.leaves) (q : List Step) :
    p ++ [st] ++ q ∈ op.paths ↔ q = [] ∧ b = true ∧ s.Ends last st := by
  have ht : (s.kind? root).isSome := hs.kind?_root hroot ▸ rfl
  have hat := htree.mem_leaves_iff.mp hleaf
  rw [paths_operation hs hroot hop, mem_paths_contributions hs tree ht, htree.mem_leaves_iff]
  cases q with
  | nil =>
    rw [List.append_nil, hat]
    constructor
    · rintro ⟨hb, hr⟩
      exact ⟨rfl, by simpa using hb, (hwalk.resolves_concat_iff hs hoffers).mp ⟨_, rfl, hr⟩⟩
    · rintro ⟨_, rfl, hends⟩
      exact ⟨rfl, hwalk.resolves_append hs hoffers.isComposite (.last hends)⟩
  | cons st' q =>
    rw [List.map_append, List.map_cons, Tree.at?_beyond_leaf hat]
    simp

/-- A leaf at the end of a walk that is selected alone gives an operation with one selection at every level. -/
theorem isChain_of_walk (hwalk : s.Walk root p met last) (hoffers : s.Offers last st)
    (hleaf : ((p ++ [st]).map Step.key, true) ∈ tree.leaves) (hends : s.Ends last st)
    (halone : ∀ path, (path, true) ∈ tree.leaves → path = (p ++ [st]).map Step.key) :
    IsChain op.items (p ++ [st]) := by
  have ht : (s.kind? root).isSome := hs.kind?_root hroot ▸ rfl
  have hpaths := paths_operation hs hroot hop
  have hr : s.Resolves root (p ++ [st]) := hwalk.resolves_append hs hoffers.isComposite (.last hends)
  have hmem : ∀ path, path ∈ op.paths ↔ path ∈ [p ++ [st]] := by
    intro path
    rw [hpaths, mem_paths_contributions hs tree ht, List.mem_singleton]
    constructor
    · rintro ⟨hkeys, hpath⟩
      exact hs.eq_of_keys ht hpath hr (halone _ hkeys)
    · rintro rfl
      exact ⟨hleaf, hr⟩
  have hnodup : op.paths.Nodup := by
    rw [hpaths]
    exact (nodup_keys_paths_contributions hs htree ht).of_map
  have hsingle : itemPaths op.items = [p ++ [st]] :=
    List.perm_singleton.mp ((List.perm_ext_iff_of_nodup hnodup (List.nodup_singleton _)).mpr hmem)
  have hne : items (s.contributions o.provider root tree) ≠ [] := by
    intro he
    rw [Operation.paths] at hpaths
    rw [hpaths, he] at hsingle
    cases hsingle
  obtain ⟨root', hroot', _, _, hitems, _⟩ := operation_eq_ok hop
  obtain rfl := Option.some.inj (hroot'.symm.trans hroot)
  have hfits : ∀ i ∈ op.items, s.Fits root' i := by
    rw [hitems, rootItems_eq_items hne]
    exact fits_of_mem_items hs tree ht
  obtain ⟨i, hi, hp⟩ := eq_singleton_of_itemPaths (fun i hi => (hfits i hi).paths_ne_nil) hsingle
  rw [hi] at hfits ⊢
  exact (hfits i List.mem_cons_self).isChain hp

end Leaves

theorem IsValid.generate_eq (hs : s.IsValid) {o : Options} {root : String} (hroot : s.root? o.kind = some root) :
    s.generate o = .ok (s.expand o.includeTypename [root] root) := by
  simp only [generate, hroot, hs.generateType_eq (hs.kind?_root hroot)]

/-- What is generated for a kind of operation can be edited by setting leaves and then written, if it nests no deeper
than the limit. Each leaf, unless a key clashes on the way to it, spells a path that is in the operation exactly if the
leaf is selected and is the name of a type or a field of a scalar or enum type. Such a leaf alone gives an operation
with one selection at every level. The other leaves are fields of a type that was met before, and setting one of them
changes nothing. -/
theorem generate_agrees (hs : s.IsValid) {o : Options} {root : String} (hroot : s.root? o.kind = some root) :
    ∃ generated, s.generate o = .ok generated ∧ ∀ edits tree, tree = generated.edit edits →
      (tree.depth ≤ nestingLimit + 1 →
        ∃ op, s.operation tree o = .ok op ∧ s.serialize tree o = .ok op.write) ∧
      ∀ op, s.operation tree o = .ok op → ∀ path b, (path, b) ∈ tree.leaves → ¬ s.ClashesAlong root path →
        ∃ p met last st, path = (p ++ [st]).map Step.key ∧ s.Walk root p met last ∧ s.Offers last st ∧
          (∀ q, p ++ [st] ++ q ∈ op.paths ↔ q = [] ∧ b = true ∧ s.Ends last st) ∧
          (b = true → s.Ends last st → (∀ path', (path', true) ∈ tree.leaves → path' = path) →
            IsChain op.items (p ++ [st])) ∧
          (¬ s.Ends last st →
            last ∈ met ∧ ∀ value, s.operation (tree.set path value) o = s.operation tree o) := by
  refine ⟨_, hs.generate_eq hroot, ?_⟩
  rintro edits tree rfl
  have htree := (distinct_expand (s := s) o.includeTypename [root] root).edit edits
  refine ⟨fun hdepth => ?_, fun op hop path b hleaf hclear => ?_⟩
  · obtain ⟨op, hop⟩ := exists_operation hroot hdepth
    exact ⟨op, hop, by rw [serialize, hop]; rfl⟩
  · obtain ⟨_, hgenerated⟩ := Tree.exists_mem_leaves_of_edit hleaf
    obtain ⟨p, met, last, st, rfl, hwalk, hoffers, hlast⟩ :=
      exists_walk_of_mem_leaves hs o.includeTypename hgenerated hclear
    refine ⟨p, met, last, st, rfl, hwalk, hoffers, mem_paths_of_walk hs hroot htree hop hwalk hoffers hleaf, ?_, ?_⟩
    · rintro rfl hends halone
      exact isChain_of_walk hs hroot htree hop hwalk hoffers hleaf hends halone
    · intro hends
      refine ⟨hlast.resolve_left hends, operation_set hs hroot (fun path hkeys hr => ?_) _⟩
      exact hends ((hwalk.resolves_concat_iff hs hoffers).mp ⟨path, hkeys, hr⟩)

/-- The name of a user's friends, in the part of the tree where users stand as their fields. -/
theorem generate_agrees_friends : ∃ (s : Schema) (o : Options) (root : String),
    s.IsValid ∧ s.root? o.kind = some root ∧
    (∃ generated, s.generate o = .ok generated ∧
      s.serialize (generated.edit [(["me", "friends", "name"], true)]) o = .ok "query { me { friends { name } } }") ∧
    ∃ generated, s.generate o = .ok generated ∧ ∀ edits tree, tree = generated.edit edits →
      (tree.depth ≤ nestingLimit + 1 →
        ∃ op, s.operation tree o = .ok op ∧ s.serialize tree o = .ok op.write) ∧
      ∀ op, s.operation tree o = .ok op → ∀ path b, (path, b) ∈ tree.leaves → ¬ s.ClashesAlong root path →
        ∃ p met last st, path = (p ++ [st]).map Step.key ∧ s.Walk root p met last ∧ s.Offers last st ∧
          (∀ q, p ++ [st] ++ q ∈ op.paths ↔ q = [] ∧ b = true ∧ s.Ends last st) ∧
          (b = true → s.Ends last st → (∀ path', (path', true) ∈ tree.leaves → path' = path) →
            IsChain op.items (p ++ [st])) ∧
          (¬ s.Ends last st →
            last ∈ met ∧ ∀ value, s.operation (tree.set path value) o = s.operation tree o) := by
  obtain ⟨s, hs, h⟩ := exists_isValid_of_parse
    "interface Named { name: ID } type User implements Named { name: ID friends: [User] } type Query { me: User }"
    (fun s => decide (s.root? .query = some "Query") &&
      (s.generate {}).toOption.any fun t => decide ((s.serialize (t.edit [(["me", "friends", "name"], true)])
        {}).toOption = some "query { me { friends { name } } }"))
    (by decide +kernel)
  obtain ⟨hroot, hrun⟩ := Bool.and_eq_true_iff.mp h
  obtain ⟨generated, hgenerate, htext⟩ := (Option.any_eq_true _ _).mp hrun
  have hroot := of_decide_eq_true hroot
  exact ⟨s, {}, "Query", hs, hroot, ⟨generated, eq_ok_of_toOption_eq_some hgenerate,
    eq_ok_of_toOption_eq_some (of_decide_eq_true htext)⟩, generate_agrees hs hroot⟩

end Schema

end GraphSelect
