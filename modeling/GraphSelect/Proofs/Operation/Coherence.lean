import GraphSelect.Generation
import GraphSelect.Proofs.Operation.Merging
import GraphSelect.Proofs.Tree.Edit

/-!
# Coherent schemas

Whether a written operation can be merged depends on its selected leaves (`serialize_merges`). No leaves are in the way
of each other if the schema is coherent: where fields are selected on several types in one place, on an interface or
union and on the types of its branches, those with one name are the same (`IsCoherent`). A valid schema need not be
coherent. An object type may have a narrower type for a field than its interface has, and as nothing is given another
name, both cannot be selected together (`serialize_merges_narrower`).
-/

namespace GraphSelect

/-! ## Required arguments -/

/-- The required arguments of a field, with their types. -/
def Field.requirements (f : Field) : List (String × TypeRef) :=
  (f.arguments.filter (·.isRequired)).map fun v => (v.name, v.type)

theorem placeholderArguments_eq (s : Schema) (type : String) (f : Field) :
    placeholderArguments s type f = f.requirements.filterMap fun (name, type) =>
      (placeholder? s (placeholderDepth + 1) type).map (name, ·) := by
  rw [placeholderArguments, Field.requirements, List.filterMap_map]
  rfl

namespace Schema

variable {s : Schema} {provider : ArgumentProvider}

/-- The arguments that are left out or placeholders depend on the required arguments of a field only. -/
theorem IsStandard.perm (hprovider : IsStandard provider) {f g : Field} (h : f.requirements.Perm g.requirements)
    (P Q : String) : (provider s P f).Perm (provider s Q g) := by
  rcases hprovider with rfl | rfl
  · exact .refl _
  · rw [placeholderArguments_eq, placeholderArguments_eq]
    exact h.filterMap _

/-! ## Types that meet -/

/-- The types that fields are selected on where objects of a type are: the type itself and those of its branches. -/
def placeTypes (s : Schema) (type : String) : List String := type :: s.branchTypes type

/-- Two types meet: fields are selected on both in one place. -/
def Meet (s : Schema) (P Q : String) : Prop :=
  ∃ place ∈ s.typeNames, P ∈ s.placeTypes place ∧ Q ∈ s.placeTypes place

theorem Meet.symm {P Q : String} (h : s.Meet P Q) : s.Meet Q P := by
  obtain ⟨place, hplace, hP, hQ⟩ := h
  exact ⟨place, hplace, hQ, hP⟩

theorem meet_self {type : String} {kind : TypeKind} (hk : s.kind? type = some kind) : s.Meet type type :=
  ⟨type, mem_typeNames_of_kind? hk, List.mem_cons_self, List.mem_cons_self⟩

/-- A branch stays in the place: what is an object type already has no branch but itself. -/
theorem Meet.branch (hs : s.IsValid) {P Q next : String} (h : s.Meet P Q) (ho : s.Opens P (.branch next) next) :
    s.Meet next Q := by
  obtain ⟨place, hplace, hP, hQ⟩ := h
  cases ho with
  | branch _ hnext =>
    rcases hnext with rfl | hnext
    · exact ⟨place, hplace, hP, hQ⟩
    · have hbranch : next ∈ s.branchTypes P := hs.mem_branchTypes_iff.mpr hnext
      rcases List.mem_cons.mp hP with rfl | hP
      · exact ⟨P, hplace, List.mem_cons_of_mem _ hbranch, hQ⟩
      · have hobject := hs.kind?_branchType hP
        simp [branchTypes, hobject] at hbranch

/-- A path that resolves and goes on behind a branch resolves behind it. -/
theorem Resolves.of_branch {P next : String} {p : List Step} (h : s.Resolves P (.branch next :: p)) (hp : p ≠ []) :
    s.Opens P (.branch next) next ∧ s.Resolves next p := by
  obtain ⟨next', ho, hr⟩ := (resolves_cons hp).mp h
  cases ho with
  | branch hf hnext => exact ⟨.branch hf hnext, hr⟩

/-- A path that resolves and goes on behind a field resolves on its type. -/
theorem Resolves.of_field {P name : String} {f : Field} {p : List Step} (h : s.Resolves P (.field name :: p))
    (hf : s.field? P name = some f) (hp : p ≠ []) : s.Resolves f.type.base p := by
  obtain ⟨next, ho, hr⟩ := (resolves_cons hp).mp h
  obtain ⟨f', _, hf', _, _, rfl⟩ := opens_field.mp ho
  obtain rfl := Option.some.inj (hf'.symm.trans hf)
  exact hr

/-! ## Coherent schemas -/

instance (P Q : String) : Decidable (s.Apart P Q) :=
  inferInstanceAs (Decidable (P ≠ Q ∧ s.kind? P = some .object ∧ s.kind? Q = some .object))

/-- The fields with one name of the types that meet in one place have one type, and the same required arguments unless
no object can have both types. -/
def IsCoherent (s : Schema) : Prop :=
  ∀ place ∈ s.typeNames, ∀ P ∈ s.placeTypes place, ∀ Q ∈ s.placeTypes place, ∀ f ∈ s.fields P, ∀ g ∈ s.fields Q,
    f.name = g.name → f.type = g.type ∧ (s.Apart P Q ∨ f.requirements.Perm g.requirements)

instance : Decidable s.IsCoherent :=
  inferInstanceAs (Decidable (∀ place ∈ s.typeNames, ∀ P ∈ s.placeTypes place, ∀ Q ∈ s.placeTypes place,
    ∀ f ∈ s.fields P, ∀ g ∈ s.fields Q, f.name = g.name →
      f.type = g.type ∧ (s.Apart P Q ∨ f.requirements.Perm g.requirements)))

/-- Fields with one name of types that meet in a coherent schema are the same. -/
theorem IsCoherent.of_meet (hcoherent : s.IsCoherent) {P Q name : String} {f g : Field} (hmeet : s.Meet P Q)
    (hf : s.field? P name = some f) (hg : s.field? Q name = some g) :
    f.type = g.type ∧ (s.Apart P Q ∨ f.requirements.Perm g.requirements) := by
  obtain ⟨place, hplace, hP, hQ⟩ := hmeet
  obtain ⟨hf, hname⟩ := mem_fields_of_field? hf
  obtain ⟨hg, hname'⟩ := mem_fields_of_field? hg
  exact hcoherent place hplace P hP Q hQ f hf g hg (hname.trans hname'.symm)

/-- In a coherent schema no paths disagree that start where types meet. -/
theorem IsCoherent.not_disagree (hs : s.IsValid) (hcoherent : s.IsCoherent) (hprovider : IsStandard provider)
    {exempt : Prop} {P Q : String} {p q : List Step} (h : s.Disagree provider exempt P p Q q) :
    s.Meet P Q → s.Resolves P p → ¬ s.Resolves Q q := by
  induction h with
  | left hd ih =>
    intro hmeet hp hq
    obtain ⟨hopens, hp⟩ := hp.of_branch hd.ne_nil.1
    exact ih (hmeet.branch hs hopens) hp hq
  | right hd ih =>
    intro hmeet hp hq
    obtain ⟨hopens, hq⟩ := hq.of_branch hd.ne_nil.2
    exact ih (hmeet.symm.branch hs hopens).symm hp hq
  | shape hf hg hne =>
    intro hmeet _ _
    obtain ⟨htype, -⟩ := hcoherent.of_meet hmeet hf hg
    exact hne (htype ▸ sameShape_refl _)
  | arguments hf hg _ hapart hne =>
    intro hmeet _ _
    rcases (hcoherent.of_meet hmeet hf hg).2 with h | h
    · exact hapart h
    · exact hne (hprovider.perm h _ _)
  | @inside _ P Q name p q f g hf hg hd ih =>
    intro hmeet hp hq
    obtain ⟨htype, -⟩ := hcoherent.of_meet hmeet hf hg
    obtain ⟨kind, hk⟩ := hs.exists_kind?_of_mem_fields (mem_fields_of_field? hg).1
    have hp := hp.of_field hf hd.ne_nil.1
    have hq := hq.of_field hg hd.ne_nil.2
    have hmeet : s.Meet f.type.base g.type.base := by
      rw [htype]
      exact meet_self hk
    exact ih hmeet hp hq

/-- Which written operations can be merged. One can exactly if no two selected leaves of the tree resolve to paths that
disagree. If the schema is coherent and arguments are left out or placeholders, then none do, whatever is selected. -/
theorem serialize_merges (hs : s.IsValid) {tree : Tree} {o : Options} {text : String}
    (h : s.serialize tree o = .ok text) :
    ∃ root op, s.root? o.kind = some root ∧ s.operation tree o = .ok op ∧ op.write = text ∧
      (s.Merges root op.items ↔ ∀ p q, (p.map Step.key, true) ∈ tree.leaves → s.Resolves root p →
        (q.map Step.key, true) ∈ tree.leaves → s.Resolves root q → ¬ s.Disagree o.provider False root p root q) ∧
      (s.IsCoherent → IsStandard o.provider → s.Merges root op.items) := by
  obtain ⟨op, hop, hwrite⟩ := serialize_eq_ok h
  obtain ⟨root, hroot, _⟩ := operation_eq_ok hop
  have hobject := hs.kind?_root hroot
  have hpaths : ∀ p, p ∈ op.paths ↔ (p.map Step.key, true) ∈ tree.leaves ∧ s.Resolves root p := by
    intro p
    rw [paths_operation hs hroot hop]
    exact mem_paths_contributions hs tree (hobject ▸ rfl)
  have hmerges := merges_operation_iff hs hroot hop
  simp only [hpaths, and_imp] at hmerges
  refine ⟨root, op, hroot, hop, hwrite, ?_, fun hcoherent hprovider => hmerges.mpr fun p _ hp q _ hq hd => ?_⟩
  · rw [hmerges]
    exact ⟨fun hagree p q hleaf hp hleaf' hq => hagree p hleaf hp q hleaf' hq,
      fun hagree p hleaf hp q hleaf' hq => hagree p q hleaf hp hleaf' hq⟩
  · exact hcoherent.not_disagree hs hprovider hd (meet_self hobject) hp hq

/-- A user and a post, each with a name, of which only the user's has a required argument. -/
theorem serialize_merges_names : ∃ (s : Schema) (tree : Tree) (o : Options) (text : String),
    s.IsValid ∧ s.serialize tree o = .ok text ∧
    text = "query { node { id ... on User { name(short: false) } ... on Post { id name } } }" ∧
    s.IsCoherent ∧ IsStandard o.provider ∧
    ∃ root op, s.root? o.kind = some root ∧ s.operation tree o = .ok op ∧ op.write = text ∧
      (s.Merges root op.items ↔ ∀ p q, (p.map Step.key, true) ∈ tree.leaves → s.Resolves root p →
        (q.map Step.key, true) ∈ tree.leaves → s.Resolves root q → ¬ s.Disagree o.provider False root p root q) ∧
      (s.IsCoherent → IsStandard o.provider → s.Merges root op.items) := by
  let o : Options := { requiredArguments := .placeholder }
  let edits := [(["node", "id"], true), (["node", "on_User", "name"], true), (["node", "on_Post", "id"], true),
    (["node", "on_Post", "name"], true)]
  obtain ⟨s, hs, h⟩ := exists_isValid_of_parse
    "type Query { node: Node } interface Node { id: ID! }
     type User implements Node { id: ID! name(short: Boolean!): String }
     type Post implements Node { id: ID! name: String }"
    (fun s => decide s.IsCoherent && (s.generate o).toOption.any fun t => decide
      ((s.serialize (t.edit edits) o).toOption =
        some "query { node { id ... on User { name(short: false) } ... on Post { id name } } }"))
    (by decide +kernel)
  obtain ⟨hcoherent, hrun⟩ := Bool.and_eq_true_iff.mp h
  obtain ⟨generated, -, htext⟩ := (Option.any_eq_true _ _).mp hrun
  have htext := eq_ok_of_toOption_eq_some (of_decide_eq_true htext)
  exact ⟨s, generated.edit edits, o, _, hs, htext, rfl, of_decide_eq_true hcoherent, .inr rfl,
    serialize_merges hs htext⟩

/-- Users are nodes that always have an identifier. If it is selected for nodes and for users, one entry of the response
would have two types, one of which excludes null. -/
theorem serialize_merges_narrower : ∃ (s : Schema) (generated : Tree) (op : Operation), s.IsValid ∧
    s.root? .query = some "Query" ∧ s.generate { requiredArguments := .placeholder } = .ok generated ∧
    s.operation (generated.edit [(["node", "id"], true), (["node", "on_User", "id"], true)])
      { requiredArguments := .placeholder } = .ok op ∧
    op.write = "query { node { id ... on User { id } } }" ∧ ¬ s.Merges "Query" op.items := by
  let o : Options := { requiredArguments := .placeholder }
  let edits := [(["node", "id"], true), (["node", "on_User", "id"], true)]
  let p : List Step := [.field "node", .field "id"]
  let q : List Step := [.field "node", .branch "User", .field "id"]
  obtain ⟨s, hs, h⟩ := exists_isValid_of_parse
    "type Query { node: Node } interface Node { id: ID } type User implements Node { id: ID! }"
    (fun s => decide (s.root? .query = some "Query" ∧
        (s.field? "Query" "node").map Field.type = some (.named "Node" false) ∧
        (s.field? "Node" "id").map Field.type = some (.named "ID" false) ∧
        (s.field? "User" "id").map Field.type = some (.named "ID" true)) &&
      (s.generate o).toOption.any fun (t : Tree) =>
        (s.operation (t.edit edits) o).toOption.any fun (op : Operation) => decide
          (op.write = "query { node { id ... on User { id } } }" ∧ p ∈ op.paths ∧ q ∈ op.paths))
    (by decide +kernel)
  obtain ⟨hfields, hrun⟩ := Bool.and_eq_true_iff.mp h
  obtain ⟨hroot, hnode, hid, hid'⟩ := of_decide_eq_true hfields
  obtain ⟨generated, hgenerate, hrun⟩ := (Option.any_eq_true _ _).mp hrun
  obtain ⟨op, hop, hrun⟩ := (Option.any_eq_true _ _).mp hrun
  obtain ⟨hwrite, hp, hq⟩ := of_decide_eq_true hrun
  have hop := eq_ok_of_toOption_eq_some hop
  obtain ⟨node, hnode, htype⟩ := Option.map_eq_some_iff.mp hnode
  obtain ⟨f, hf, hftype⟩ := Option.map_eq_some_iff.mp hid
  obtain ⟨g, hg, hgtype⟩ := Option.map_eq_some_iff.mp hid'
  have hbase : node.type.base = "Node" := by
    rw [htype]
    rfl
  have hshape : ¬ s.SameShape f.type g.type := by
    rw [hftype, hgtype]
    exact fun h => Bool.false_ne_true h.1
  have hdisagree : s.Disagree o.provider False "Query" p "Query" q :=
    .inside hnode hnode (.right (.shape (hbase ▸ hf) hg hshape))
  refine ⟨s, generated, op, hs, hroot, eq_ok_of_toOption_eq_some hgenerate, hop, hwrite, fun hmerges => ?_⟩
  exact (merges_operation_iff hs hroot hop).mp hmerges p hp q hq hdisagree

end Schema

end GraphSelect
