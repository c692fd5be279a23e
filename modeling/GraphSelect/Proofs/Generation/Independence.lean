import GraphSelect.Proofs.Generation.Depth

/-!
# Branches that do not interfere

The way to a type matters to its expansion only where the type can lead back to it: two ways that have the same of the
types that can be reached give the same expansion (`expand_congr`). So an object type from which no type above it can be
reached has the tree that is generated for it alone, wherever it is expanded, and whatever stands beside it
(`generateType_independent`).

A place in a generated tree is the end of a trail, and of only one (`Trail.unique`), so the types above it are those
that the trail met.
-/

namespace GraphSelect

namespace Schema

variable {s : Schema}

/-! ## Types that can be reached -/

/-- What can be reached from a type stays among types that no step leads out of. -/
theorem Reaches.mem {types : List String} (hclosed : ∀ type ∈ types, (∀ f ∈ s.fields type, f.type.base ∈ types) ∧
    ∀ t ∈ s.branchTypes type, t ∈ types) {type next : String} (h : s.Reaches type next) (hm : type ∈ types) :
    next ∈ types := by
  induction h with
  | refl => exact hm
  | tail _ hstep ih =>
    obtain ⟨st, hl⟩ := hstep
    cases hl with
    | field hf => exact (hclosed _ ih).1 _ hf
    | branch ht => exact (hclosed _ ih).2 _ ht

/-! ## The way to a type -/

/-- The expansion of a type depends on the way to it only by the types that can be reached. -/
theorem IsValid.expand_congr (hs : s.IsValid) (withTypename : Bool) {visited visited' : List String} {type : String}
    (h : ∀ t, s.Reaches type t → (t ∈ visited ↔ t ∈ visited')) :
    s.expand withTypename visited type = s.expand withTypename visited' type := by
  have hat : ∀ st next, s.Leads type st next →
      s.selectionAt withTypename visited next = s.selectionAt withTypename visited' next := by
    intro st next hl
    obtain ⟨kind, hk⟩ := hl.exists_kind?_next hs
    have hnext : next ∈ visited ↔ next ∈ visited' := h next (.single ⟨st, hl⟩)
    rw [selectionAt_eq _ _ hk, selectionAt_eq _ _ hk]
    by_cases hv : next ∈ visited
    · rw [if_pos hv, if_pos (hnext.mp hv)]
    · have := unvisited_cons_lt ⟨mem_typeNames_of_kind? hk, hv⟩
      have hexpand : s.expand withTypename (next :: visited) next = s.expand withTypename (next :: visited') next := by
        refine IsValid.expand_congr hs withTypename fun t ht => ?_
        rw [List.mem_cons, List.mem_cons, h t (.head ⟨st, hl⟩ ht)]
      rw [if_neg hv, if_neg (mt hnext.mpr hv), hexpand]
  have hfields : s.fieldEntries withTypename visited type = s.fieldEntries withTypename visited' type :=
    List.filterMap_congr fun f hf => by rw [hat _ _ (.field hf)]
  have hbranches : s.branchEntries withTypename visited type = s.branchEntries withTypename visited' type :=
    List.filterMap_congr fun t ht => by rw [hat _ _ (.branch ht)]
  rw [expand_eq, expand_eq, hfields, hbranches]
termination_by s.unvisited visited

/-- Behind types that cannot be reached from it, a type is expanded as it is alone. -/
theorem IsValid.grown_eq_expand (hs : s.IsValid) (withTypename : Bool) {met : List String} {type : String}
    (h : ∀ t ∈ met, ¬ s.Reaches type t) : s.grown withTypename met type = s.expand withTypename [type] type := by
  rw [grown, if_neg fun hm => h type hm .refl]
  refine hs.expand_congr withTypename fun t ht => ?_
  rw [List.mem_cons, List.mem_singleton, List.mem_reverse]
  exact or_iff_left fun hm => h t hm ht

/-! ## Places -/

section Places

variable (hs : s.IsValid)
include hs

/-- A key stands for one step of the tree only. -/
theorem Grows.unique {type next next' : String} {st st' : Step} (h : s.Grows type st next)
    (h' : s.Grows type st' next') (hkey : st.key = st'.key) : st = st' ∧ next = next' := by
  obtain ⟨hl, hc⟩ := h
  obtain ⟨hl', hc'⟩ := h'
  -- A field and a branch under one key clash, and then the tree has the branch.
  have hclash : ∀ {f : Field} {t : String}, f ∈ s.fields type → t ∈ s.branchTypes type → f.name = Key.ofType t →
      s.Clashes type f.name := fun hf ht he => ⟨by rw [hs.field?_of_mem_fields hf]; rfl, _, ht, he⟩
  cases hl with
  | @field f hf =>
    cases hl' with
    | @field f' hf' =>
      have hname : f.name = f'.name := hkey
      have he := hs.field?_of_mem_fields hf
      rw [hname, hs.field?_of_mem_fields hf'] at he
      obtain rfl := Option.some.inj he
      exact ⟨rfl, rfl⟩
    | branch ht =>
      obtain ⟨_, he⟩ := hc (hclash hf ht hkey)
      cases he
  | branch ht =>
    cases hl' with
    | field hf =>
      obtain ⟨_, he⟩ := hc' (hclash hf ht hkey.symm)
      cases he
    | branch ht' =>
      obtain rfl := Key.ofType_injective hkey
      exact ⟨rfl, rfl⟩

/-- A path is that of one trail only. -/
theorem Trail.unique {root last : String} {p : List Step} {met : List String} (h : s.Trail root p met last) :
    ∀ {p' : List Step} {met' : List String} {last' : String}, s.Trail root p' met' last' →
    p.map Step.key = p'.map Step.key → p = p' ∧ met = met' ∧ last = last' := by
  induction h with
  | start =>
    intro p' met' last' h' hp
    cases h' with
    | start => exact ⟨rfl, rfl, rfl⟩
    | step _ _ => simp at hp
  | step _ hg ih =>
    intro p' met' last' h' hp
    cases h' with
    | start => simp at hp
    | step h' hg' =>
      rw [List.map_append, List.map_append] at hp
      obtain ⟨hp, hkey⟩ := List.append_inj' hp rfl
      obtain ⟨rfl, rfl, rfl⟩ := ih h' hp
      obtain ⟨rfl, rfl⟩ := hg.unique hs hg' (List.singleton_inj.mp hkey)
      exact ⟨rfl, rfl, rfl⟩

end Places

/-! ## Generated trees -/

/-- Branches of a generated tree do not interfere. Every place in the tree is the end of a trail. Where there is an
object type from which no type can be reached that the trail met, stands exactly the tree that is generated for this
type. -/
theorem generateType_independent (hs : s.IsValid) {root : String} (hroot : s.kind? root = some .object)
    (o : Options) :
    ∃ tree, s.generateType root o = .ok tree ∧
      (∀ path body, tree.subtree? path = some body → ∃ p met type, path = p.map Step.key ∧ s.Trail root p met type) ∧
      ∀ p met type body, s.Trail root p met type → tree.subtree? (p.map Step.key) = some body →
        s.kind? type = some .object → (∀ t ∈ met, ¬ s.Reaches type t) → s.generateType type o = .ok body := by
  have hcomposite : s.IsComposite root := ⟨.object, hroot, rfl⟩
  refine ⟨_, hs.generateType_eq hroot o, fun path body h => ?_, fun p met type body htrail h hk hreach => ?_⟩
  · obtain ⟨p, met, last, hpath, htrail, _⟩ := (subtree?_expand_iff hs o.includeTypename hcomposite).mp h
    exact ⟨p, met, last, hpath, htrail⟩
  · obtain ⟨p', met', last, hpath, htrail', _, _, rfl⟩ := (subtree?_expand_iff hs o.includeTypename hcomposite).mp h
    obtain ⟨rfl, rfl, rfl⟩ := htrail.unique hs htrail' hpath
    rw [hs.generateType_eq hk, hs.grown_eq_expand o.includeTypename hreach]

/-- A user with friends, behind an interface and a post that no user leads back to: there stands the tree for users. -/
theorem generateType_independent_author : ∃ (s : Schema) (root type : String) (o : Options) (p : List Step)
    (met : List String) (body : Tree), s.IsValid ∧ s.kind? root = some .object ∧ s.Trail root p met type ∧
    s.kind? type = some .object ∧ met = ["Query", "Node", "Post"] ∧ (∀ t ∈ met, ¬ s.Reaches type t) ∧
    s.generateType type o = .ok body ∧
    ∃ tree, s.generateType root o = .ok tree ∧ tree.subtree? (p.map Step.key) = some body ∧
      (∀ path body, tree.subtree? path = some body → ∃ p met type, path = p.map Step.key ∧ s.Trail root p met type) ∧
      ∀ p met type body, s.Trail root p met type → tree.subtree? (p.map Step.key) = some body →
        s.kind? type = some .object → (∀ t ∈ met, ¬ s.Reaches type t) → s.generateType type o = .ok body := by
  obtain ⟨s, hs, h⟩ := exists_isValid_of_parse
    "interface Node { id: ID } type Post implements Node { id: ID author: User }
     type User { name: ID friends: [User] } type Query { node: Node }"
    (fun s => decide (s.kind? "Query" = some .object ∧ s.kind? "Post" = some .object ∧ s.kind? "User" = some .object ∧
      (s.field? "Query" "node").map Field.type = some (.named "Node" false) ∧ "Post" ∈ s.branchTypes "Node" ∧
      (s.field? "Post" "author").map Field.type = some (.named "User" false) ∧
      ∀ type ∈ ["User", "ID"], (∀ f ∈ s.fields type, f.type.base ∈ ["User", "ID"]) ∧
        ∀ t ∈ s.branchTypes type, t ∈ ["User", "ID"]))
    (by decide +kernel)
  obtain ⟨hroot, hpost, huser, hnode, hbranch, hauthor, hclosed⟩ := of_decide_eq_true h
  -- A field of an object type is no branch, as such types have none.
  have hgrows : ∀ {type name : String} {next : TypeRef}, s.kind? type = some .object →
      (s.field? type name).map Field.type = some next → s.Grows type (.field name) next.base := by
    intro type name next hk hnext
    obtain ⟨f, hfield, rfl⟩ := Option.map_eq_some_iff.mp hnext
    obtain ⟨hf, rfl⟩ := mem_fields_of_field? hfield
    refine ⟨.field hf, ?_⟩
    rintro ⟨_, t, ht, _⟩
    simp [branchTypes, hk] at ht
  have htrail : s.Trail "Query" [.field "node", .branch "Post", .field "author"] ["Query", "Node", "Post"] "User" :=
    .step (.step (.step .start (hgrows hroot hnode)) ⟨.branch hbranch, fun _ => ⟨_, rfl⟩⟩) (hgrows hpost hauthor)
  have hapart : ∀ t ∈ ["Query", "Node", "Post"], t ∉ ["User", "ID"] := by decide
  have hreach : ∀ t ∈ ["Query", "Node", "Post"], ¬ s.Reaches "User" t :=
    fun t ht hr => hapart t ht (hr.mem hclosed List.mem_cons_self)
  have hbody := htrail.subtree?_expand hs false (by decide) ⟨.object, huser, rfl⟩
  obtain ⟨tree, htree, hplaces, hall⟩ := generateType_independent hs hroot {}
  obtain rfl := Except.ok.inj ((hs.generateType_eq hroot {}).symm.trans htree)
  exact ⟨s, "Query", "User", {}, _, _, _, hs, hroot, htrail, huser, rfl, hreach,
    hall _ _ _ _ htrail hbody huser hreach, _, htree, hbody, hplaces, hall⟩

end Schema

end GraphSelect
