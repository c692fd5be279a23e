import GraphSelect.Proofs.Generation.Trail
import Mathlib.Data.Set.Card
import Mathlib.Logic.Relation

/-!
# How deep generated trees are

The generator follows the type graph without a bound, and cycles do not keep it from ending: its equations have one
solution (`eq_expand_iff`). Along a chain of nested trees no type comes twice, except that the last one can have come
before, and then its tree holds nothing but leaves. By counting types, a generated tree is at most one level deeper than
there are types to reach (`generateType_bounded`).
-/

namespace GraphSelect

namespace Schema

variable {s : Schema}

/-! ## The equations of the generator -/

/-- One level of an expansion, `grow` giving the trees of the types behind it. -/
def expandBy (s : Schema) (withTypename : Bool) (grow : List String → String → Tree) (visited : List String)
    (name : String) : Tree :=
  let at? := fun type => s.selectionOf visited type fun _ => grow (type :: visited) type
  let fields := (s.fields name).filterMap fun f => (at? f.type.base).map (f.name, ·)
  let branches := (s.branchTypes name).filterMap fun t => (at? t).map (Key.ofType t, ·)
  Tree.ofEntries (s.typenameEntries withTypename name ++ fields ++ branches)

/-- A level of an expansion depends on the trees of new types only. -/
theorem selectionOf_congr {visited : List String} {name : String} {grow grow' : s.IsNew visited name → Tree}
    (h : ∀ hnew, grow hnew = grow' hnew) : s.selectionOf visited name grow = s.selectionOf visited name grow' := by
  have he : grow = grow' := funext h
  rw [he]

/-- The expansion is the only solution of the equations of the generator, which have no bound on their depth: each call
in them meets one type more. -/
theorem eq_expand_iff (withTypename : Bool) (grow : List String → String → Tree) :
    (∀ visited name, grow visited name = s.expandBy withTypename grow visited name) ↔
      grow = s.expand withTypename := by
  constructor
  · intro h
    -- By induction on the number of types that are not on the way.
    have heq : ∀ n visited name, s.unvisited visited < n → grow visited name = s.expand withTypename visited name := by
      intro n
      induction n with
      | zero => simp
      | succ n ih =>
        intro visited name hn
        have hat : ∀ type, (s.selectionOf visited type fun _ => grow (type :: visited) type) =
            s.selectionAt withTypename visited type := by
          intro type
          refine selectionOf_congr fun hnew => ih _ _ ?_
          have := unvisited_cons_lt hnew
          omega
        rw [h, expand_eq, expandBy]
        simp only [hat]
        rfl
    funext visited name
    exact heq _ visited name (Nat.lt_succ_self _)
  · rintro rfl visited name
    exact expand_eq withTypename visited name

/-! ## Types that can be reached -/

/-- Some number of steps of the type graph lead from one type to another. -/
def Reaches (s : Schema) : String → String → Prop := Relation.ReflTransGen fun type next => ∃ st, s.Leads type st next

/-- The object, interface and union types that can be reached from a type. -/
def reachable (s : Schema) (root : String) : Set String := {type | s.Reaches root type ∧ s.IsComposite type}

theorem finite_reachable (root : String) : (s.reachable root).Finite := by
  refine (List.finite_toSet s.typeNames).subset fun type htype => ?_
  obtain ⟨_, kind, hk, _⟩ := htype
  exact mem_typeNames_of_kind? hk

/-- The types along a trail can be reached. -/
theorem Trail.reaches {root last : String} {p : List Step} {met : List String} (h : s.Trail root p met last) :
    s.Reaches root last ∧ ∀ t ∈ met, s.Reaches root t := by
  induction h with
  | start => exact ⟨.refl, by simp⟩
  | @step p met type next st _ hg ih =>
    obtain ⟨htype, hmet⟩ := ih
    refine ⟨htype.tail ⟨st, hg.1⟩, fun t ht => ?_⟩
    rcases List.mem_append.mp ht with ht | ht
    · exact hmet t ht
    · obtain rfl := List.mem_singleton.mp ht
      exact htype

/-- A trail that meets no type twice before its last one has at most as many steps as there are types to reach. -/
theorem Trail.length_le {root last : String} {p : List Step} {met : List String} (h : s.Trail root p met last)
    (hd : met.Nodup) : p.length ≤ (s.reachable root).ncard := by
  have hsub : (met.toFinset : Set String) ⊆ s.reachable root := by
    intro t ht
    have hm : t ∈ met := by simpa using ht
    exact ⟨h.reaches.2 t hm, h.isComposite_of_mem t hm⟩
  have hcard := Set.ncard_le_ncard hsub (finite_reachable root)
  rw [Set.ncard_coe_finset, List.toFinset_card_of_nodup hd, h.length_eq] at hcard
  exact hcard

/-! ## Leaves -/

/-- A leaf that a tree for a type holds is not selected. -/
theorem IsValid.eq_false_of_get?_grown (hs : s.IsValid) {withTypename : Bool} {met : List String} {type key : String}
    {b : Bool} (h : (s.grown withTypename met type).get? key = some (.leaf b)) : b = false := by
  unfold grown at h
  split at h
  · rw [get?_shallow] at h
    split at h
    · cases h
      rfl
    · cases h
  · rcases hs.exists_grows_of_get?_expand h with he | ⟨_, next, kind, _, _, hk, hsel⟩
    · cases he
      rfl
    · rcases selectionAt_cases withTypename (type :: met.reverse) hk with ⟨_, he⟩ | ⟨_, _, he⟩ | ⟨_, _, he⟩ <;>
        rw [he] at hsel <;> cases hsel
      rfl

/-- Every leaf of an expansion is not selected. -/
theorem IsValid.eq_false_of_mem_leaves (hs : s.IsValid) {withTypename : Bool} {root : String}
    (hroot : s.IsComposite root) {path : List String} {b : Bool}
    (h : (path, b) ∈ (s.expand withTypename [root] root).leaves) : b = false := by
  have hat := (distinct_expand withTypename [root] root).mem_leaves_iff.mp h
  obtain rfl | ⟨init, key, rfl⟩ := List.eq_nil_or_concat path
  · cases hat
  · rw [List.concat_eq_append, Tree.at?_append] at hat
    obtain ⟨body, hbody, hkey⟩ := Option.bind_eq_some_iff.mp hat
    obtain ⟨_, met, last, _, _, _, _, rfl⟩ := (subtree?_expand_iff hs withTypename hroot).mp hbody
    exact hs.eq_false_of_get?_grown hkey

/-! ## Generated trees -/

/-- The generated tree of an object type. The equations of the generator, which have no bound, have exactly one
solution. All leaves of the tree are unselected, and along each chain of nested trees the types that they are for are
different, except that the last one can have come before: then its tree consists of leaves for its own fields. So the
tree is at most one level deeper than there are types to reach. -/
theorem generateType_bounded (hs : s.IsValid) {root : String} (hroot : s.kind? root = some .object) (o : Options) :
    (∀ grow : List String → String → Tree,
      (∀ visited name, grow visited name = s.expandBy o.includeTypename grow visited name) ↔
        grow = s.expand o.includeTypename) ∧
    ∃ tree, s.generateType root o = .ok tree ∧ tree = s.expand o.includeTypename [root] root ∧
      (∀ path b, (path, b) ∈ tree.leaves → b = false) ∧
      (∀ path body, tree.subtree? path = some body →
        ∃ p met last, path = p.map Step.key ∧ s.Trail root p met last ∧ met.Nodup ∧
          (last ∉ met → s.IsExpansion o.includeTypename last body) ∧
          (last ∈ met → body.entries = (s.fields last).map fun f => (f.name, .leaf false))) ∧
      tree.depth ≤ (s.reachable root).ncard + 1 := by
  have hcomposite : s.IsComposite root := ⟨.object, hroot, rfl⟩
  refine ⟨eq_expand_iff o.includeTypename, _, hs.generateType_eq hroot o, rfl,
    fun path b h => hs.eq_false_of_mem_leaves hcomposite h, fun path body h => ?_, ?_⟩
  · obtain ⟨p, met, last, rfl, htrail, hd, _, rfl⟩ := (subtree?_expand_iff hs o.includeTypename hcomposite).mp h
    refine ⟨p, met, last, rfl, htrail, hd, fun hnew => ?_, fun hm => ?_⟩
    · rw [grown, if_neg hnew]
      exact hs.isExpansion_expand _ _ _
    · rw [grown, if_pos hm]
      exact hs.entries_shallow last
  · obtain ⟨path, body, hpath, hdepth⟩ := (distinct_expand (s := s) o.includeTypename [root] root).exists_path_of_depth
    obtain ⟨p, met, last, rfl, htrail, hd, _, _⟩ := (subtree?_expand_iff hs o.includeTypename hcomposite).mp hpath
    have hlength := htrail.length_le hd
    rw [List.length_map] at hdepth
    omega

/-- An interface and a union in cycles of the type graph: the tree is as deep as it can be. -/
theorem generateType_bounded_cycle : ∃ (s : Schema) (root : String) (o : Options),
    s.IsValid ∧ s.kind? root = some .object ∧ (s.expand o.includeTypename [root] root).depth = 6 ∧
    (∀ grow : List String → String → Tree,
      (∀ visited name, grow visited name = s.expandBy o.includeTypename grow visited name) ↔
        grow = s.expand o.includeTypename) ∧
    ∃ tree, s.generateType root o = .ok tree ∧ tree = s.expand o.includeTypename [root] root ∧
      (∀ path b, (path, b) ∈ tree.leaves → b = false) ∧
      (∀ path body, tree.subtree? path = some body →
        ∃ p met last, path = p.map Step.key ∧ s.Trail root p met last ∧ met.Nodup ∧
          (last ∉ met → s.IsExpansion o.includeTypename last body) ∧
          (last ∈ met → body.entries = (s.fields last).map fun f => (f.name, .leaf false))) ∧
      tree.depth ≤ (s.reachable root).ncard + 1 := by
  obtain ⟨s, hs, h⟩ := exists_isValid_of_parse
    ("type Query { n: N } interface N { n: N } type X implements N { n: N x: X } " ++
      "type Y implements N { n: N u: U } union U = X | Y")
    (fun s => decide (s.kind? "Query" = some .object ∧
      ((s.generateType "Query" {}).toOption.map Tree.depth) = some 6))
    (by decide +kernel)
  obtain ⟨hroot, hdepth⟩ := of_decide_eq_true h
  rw [hs.generateType_eq hroot] at hdepth
  exact ⟨s, "Query", {}, hs, hroot, Option.some.inj hdepth, generateType_bounded hs hroot {}⟩

end Schema

end GraphSelect
