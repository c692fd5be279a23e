import GraphSelect.Proofs.Operation.Nesting

/-!
# Keys that mean nothing

A key means nothing on a type if it is not the name of the type, no field of it and no branch for a type that objects
can have there (`IsUnknown`). An entry under such a key contributes nothing and is not entered, so two trees of which
one has the entry and the other has not agree in all that operations are made from (`agree_insert`).

At any place in a tree, reached by steps that open types (`Follows`), they therefore agree as well, but for one thing: a
field whose tree is empty is left out, and a field whose tree has nothing but such an entry is a touched one. So
inserting the key keeps what serialization gives, unless the place is the empty tree of a field (`serialize_insert`).
There it never changes what is selected, and all keys that mean nothing do the same; but it can turn an operation
without items into one with an empty selection set (`serialize_insert_empty`).
-/

namespace GraphSelect

namespace Tree

/-- A path leads to the empty tree of a field. -/
def IsEmptyField (t : Tree) (p : List Step) : Prop :=
  (∃ q name, p = q ++ [.field name]) ∧ t.subtree? (p.map Step.key) = some .empty

end Tree

/-- Nothing is selected in an operation: its items are fields with empty selection sets. -/
def Operation.IsBlank (op : Operation) : Prop := ∀ i ∈ op.items, ∃ name arguments, i = .composite name arguments []

namespace Contribution

theorem items_ofField_eq (sorted : Bool) (write : List Item → Item) (cs : List Contribution) :
    items [ofField sorted write cs] = if items cs = [] then [] else [write (arrange sorted (items cs))] := by
  unfold ofField
  split
  · rename_i i is hi
    rw [hi, if_neg (List.cons_ne_nil i is)]
    rfl
  · rfl
  · rename_i hi
    rw [if_pos hi]
    rfl

theorem items_ofBranch_eq (sorted : Bool) (write : List Item → Item) (cs : List Contribution) :
    items (ofBranch sorted write cs).toList = if items cs = [] then [] else [write (arrange sorted (items cs))] := by
  unfold ofBranch
  split
  · rename_i i is hi
    rw [hi, if_neg (List.cons_ne_nil i is)]
    rfl
  · rfl
  · rename_i hi
    rw [if_pos hi]
    rfl

end Contribution

namespace Schema

open Contribution

variable {s : Schema} {provider : ArgumentProvider}

/-! ## Keys that mean nothing on a type -/

/-- A key that means nothing on a type: not the name of the type, not a field of it, and not the branch for the type
itself, for an object type that implements it or for a member of it. -/
def IsUnknown (s : Schema) (type key : String) : Prop :=
  key ≠ Key.typename ∧ s.field? type key = none ∧
    ∀ next, key = Key.ofType next → ¬ (next = type ∨ next ∈ s.implementers type ∨ next ∈ s.members type)

theorem IsValid.isUnknown_iff (hs : s.IsValid) {type : String} (ht : (s.kind? type).isSome) {key : String} :
    s.IsUnknown type key ↔ s.meaning? type key = none := by
  constructor
  · rintro ⟨hkey, hf, hbranch⟩
    rcases hs.meaning?_cases type key with ⟨he, _⟩ | ⟨f, kind, hf', _⟩ | ⟨f, hf', _⟩ | ⟨next, kind, he, _, hp, _⟩ | hm
    · exact absurd he hkey
    · cases hf.symm.trans hf'
    · cases hf.symm.trans hf'
    · exact absurd (isPossible_iff.mp hp) (hbranch next he)
    · exact hm
  · intro hm
    have hf : s.field? type key = none := by
      cases hf : s.field? type key with
      | none => rfl
      | some f =>
        obtain ⟨hmem, rfl⟩ := mem_fields_of_field? hf
        obtain ⟨kind, hk⟩ := hs.exists_kind?_of_mem_fields hmem
        simp [meaning?, hs.ne_typename_of_mem_fields hmem, hf, fieldMeaning?, hk] at hm
    refine ⟨?_, hf, ?_⟩
    · rintro rfl
      cases hm
    · rintro next rfl hp
      have hkey : (Step.branch next).key = Key.ofType next := rfl
      have ho := (hs.opens_iff ht).mp ⟨hkey, .branch hf hp⟩
      rw [hm] at ho
      cases ho

/-! ## Trees that agree -/

/-- Two trees agree on a type: they contribute the same, and nest equally deep. -/
structure Agree (s : Schema) (type : String) (t u : Tree) : Prop where
  contributions (provider : ArgumentProvider) : s.contributions provider type t = s.contributions provider type u
  nesting : s.nesting type t = s.nesting type u

theorem Agree.symm {type : String} {t u : Tree} (h : s.Agree type t u) : s.Agree type u t :=
  ⟨fun provider => (h.contributions provider).symm, h.nesting.symm⟩

theorem Agree.trans {type : String} {t u v : Tree} (h : s.Agree type t u) (h' : s.Agree type u v) :
    s.Agree type t v :=
  ⟨fun provider => (h.contributions provider).trans (h'.contributions provider), h.nesting.trans h'.nesting⟩

/-- Trees that agree on the root type become the same operation. -/
theorem Agree.operation_eq {o : Options} {root : String} (hroot : s.root? o.kind = some root) {t u : Tree}
    (h : s.Agree root t u) : s.operation t o = s.operation u o := by
  simp only [operation, hroot, h.nesting, h.contributions]

theorem Agree.leaf {type : String} {rest rest' : Tree} (h : s.Agree type rest rest') (key : String)
    (selected : Bool) : s.Agree type (.leaf key selected rest) (.leaf key selected rest') :=
  ⟨fun provider => by rw [Schema.contributions, Schema.contributions, h.contributions], h.nesting⟩

theorem Agree.branch {type : String} {rest rest' : Tree} (h : s.Agree type rest rest') (key : String) (role : Role)
    (body : Tree) : s.Agree type (.branch key role body rest) (.branch key role body rest') :=
  ⟨fun provider => by rw [contributions_branch, contributions_branch, h.contributions],
    by rw [Schema.nesting, Schema.nesting, h.nesting]⟩

theorem Agree.cons {type : String} {rest rest' : Tree} (h : s.Agree type rest rest') (key : String)
    (sel : Selection) : s.Agree type (.cons key sel rest) (.cons key sel rest') := by
  cases sel with
  | leaf selected => exact h.leaf key selected
  | branch role body => exact h.branch key role body

/-- A tree agrees with itself and an entry before it whose key means nothing. -/
theorem agree_cons {type key : String} (hm : s.meaning? type key = none) (sel : Selection) (rest : Tree) :
    s.Agree type (.cons key sel rest) rest := by
  cases sel with
  | leaf selected =>
    refine ⟨fun provider => ?_, rfl⟩
    cases selected <;> simp [Tree.cons, Schema.contributions, leafContribution, hm]
  | branch role body =>
    refine ⟨fun provider => ?_, ?_⟩
    · simp [Tree.cons, Schema.contributions, hm]
    · simp [Tree.cons, Schema.nesting, target?, hm]

/-- A tree agrees with itself after an insertion under a key that means nothing. -/
theorem agree_insert {type key : String} (hm : s.meaning? type key = none) (sel : Selection) (t : Tree) :
    s.Agree type (t.insert key sel) t := by
  induction t using Tree.entryInduction with
  | empty => exact agree_cons hm sel .empty
  | cons k sel' rest _ ih =>
    rw [Tree.insert_cons]
    split
    · rename_i hk
      have hm' : s.meaning? type k = none := hk ▸ hm
      exact (agree_cons hm sel rest).trans (agree_cons hm' sel' rest).symm
    · exact ih.cons k sel'

/-! ## Places in trees -/

/-- A path leads from one type to another by steps that open types. -/
inductive Follows (s : Schema) : String → List Step → String → Prop
  | nil {type : String} : Follows s type [] type
  | cons {type mid next : String} {st : Step} {p : List Step} : s.Opens type st mid → Follows s mid p next →
      Follows s type (st :: p) next

theorem Follows.append {type mid next : String} {p q : List Step} (h : s.Follows type p mid)
    (h' : s.Follows mid q next) : s.Follows type (p ++ q) next := by
  induction h with
  | nil => exact h'
  | cons ho _ ih => exact .cons ho (ih h')

/-- Two trees on a type are the same but for what stands at the end of a path: two trees on another type. -/
inductive DifferAt (s : Schema) (next : String) (inner inner' : Tree) : String → List Step → Tree → Tree → Prop
  | here : DifferAt s next inner inner' next [] inner inner'
  | leaf {type key : String} {selected : Bool} {st : Step} {p : List Step} {rest rest' : Tree} :
      DifferAt s next inner inner' type (st :: p) rest rest' →
      DifferAt s next inner inner' type (st :: p) (.leaf key selected rest) (.leaf key selected rest')
  | branch {type key : String} {role : Role} {st : Step} {p : List Step} {body rest rest' : Tree} :
      DifferAt s next inner inner' type (st :: p) rest rest' →
      DifferAt s next inner inner' type (st :: p) (.branch key role body rest) (.branch key role body rest')
  | enter {type mid : String} {role : Role} {st : Step} {p : List Step} {body body' rest : Tree} :
      s.Opens type st mid → DifferAt s next inner inner' mid p body body' →
      DifferAt s next inner inner' type (st :: p) (.branch st.key role body rest) (.branch st.key role body' rest)

/-- Two changes at the end of a path give trees that differ there only. -/
theorem exists_differAt {f g : Tree → Tree} {next : String} : ∀ {t u v : Tree} {type : String} {p : List Step},
    s.Follows type p next → t.modify? f (p.map Step.key) = some u → t.modify? g (p.map Step.key) = some v →
    ∃ inner, t.subtree? (p.map Step.key) = some inner ∧ s.DifferAt next (f inner) (g inner) type p u v
  | t, u, v, type, [], h, hu, hv => by
    cases h
    rw [List.map_nil, Tree.modify?] at hu hv
    obtain rfl := Option.some.inj hu
    obtain rfl := Option.some.inj hv
    exact ⟨t, rfl, .here⟩
  | .empty, _, _, _, _ :: _, _, hu, _ => by cases hu
  | .leaf k selected rest, u, v, type, st :: p, h, hu, hv => by
    rw [List.map_cons, Tree.modify?] at hu hv
    by_cases hk : k = st.key
    · rw [if_pos hk] at hu
      cases hu
    · rw [if_neg hk] at hu hv
      obtain ⟨u', hu', rfl⟩ := Option.map_eq_some_iff.mp hu
      obtain ⟨v', hv', rfl⟩ := Option.map_eq_some_iff.mp hv
      obtain ⟨inner, hinner, hd⟩ := exists_differAt h hu' hv'
      refine ⟨inner, ?_, .leaf hd⟩
      rw [List.map_cons, Tree.subtree?_cons, Tree.get?, if_neg hk, ← Tree.subtree?_cons]
      exact hinner
  | .branch k role body rest, u, v, type, st :: p, h, hu, hv => by
    rw [List.map_cons, Tree.modify?] at hu hv
    by_cases hk : k = st.key
    · subst hk
      rw [if_pos rfl] at hu hv
      obtain ⟨u', hu', rfl⟩ := Option.map_eq_some_iff.mp hu
      obtain ⟨v', hv', rfl⟩ := Option.map_eq_some_iff.mp hv
      cases h with
      | cons ho h =>
        obtain ⟨inner, hinner, hd⟩ := exists_differAt h hu' hv'
        refine ⟨inner, ?_, .enter ho hd⟩
        rw [List.map_cons, Tree.subtree?_cons, Tree.get?, if_pos rfl]
        exact hinner
    · rw [if_neg hk] at hu hv
      obtain ⟨u', hu', rfl⟩ := Option.map_eq_some_iff.mp hu
      obtain ⟨v', hv', rfl⟩ := Option.map_eq_some_iff.mp hv
      obtain ⟨inner, hinner, hd⟩ := exists_differAt h hu' hv'
      refine ⟨inner, ?_, .branch hd⟩
      rw [List.map_cons, Tree.subtree?_cons, Tree.get?, if_neg hk, ← Tree.subtree?_cons]
      exact hinner

/-- Along a path that goes on, both trees have entries. -/
theorem DifferAt.isEmpty_eq_false {next type : String} {inner inner' t u : Tree} {st : Step} {p : List Step}
    (h : s.DifferAt next inner inner' type (st :: p) t u) : t.isEmpty = false ∧ u.isEmpty = false := by
  cases h with
  | leaf _ => exact ⟨rfl, rfl⟩
  | branch _ => exact ⟨rfl, rfl⟩
  | enter _ _ => exact ⟨rfl, rfl⟩

/-! ## Items of single entries -/

/-- The items of an entry that is entered depend only on the items of what is under it. -/
theorem items_enclose {type key : String} {role : Role} {cs ds : List Contribution} (h : items cs = items ds) :
    items (s.enclose provider type key role cs) = items (s.enclose provider type key role ds) := by
  unfold enclose
  cases s.meaning? type key with
  | none => rfl
  | some m =>
    cases m with
    | typename => rfl
    | leaf f => rfl
    | composite f kind =>
      dsimp only
      rw [items_ofField_eq, items_ofField_eq, h]
    | branch next kind =>
      dsimp only
      rw [items_ofBranch_eq, items_ofBranch_eq, h]

theorem items_enclose_nil (type key : String) (role : Role) : items (s.enclose provider type key role []) = [] := by
  unfold enclose
  cases s.meaning? type key with
  | none => rfl
  | some m => cases m <;> rfl

/-! ## Trees that differ at a place -/

section Places

variable (hs : s.IsValid)
include hs

/-- Trees agree if they differ only at the end of a path, where there are two trees that agree. If that is under a
field, then both or none of the two are empty. -/
theorem DifferAt.agree {next type : String} {inner inner' t u : Tree} {p : List Step}
    (h : s.DifferAt next inner inner' type p t u) (ht : (s.kind? type).isSome) (hagree : s.Agree next inner inner')
    (hempty : ∀ q name, p = q ++ [.field name] → inner.isEmpty = inner'.isEmpty) : s.Agree type t u := by
  induction h with
  | here => exact hagree
  | leaf _ ih => exact (ih ht hempty).leaf _ _
  | branch _ ih => exact (ih ht hempty).branch _ _ _
  | @enter type mid role st p body body' rest ho hd ih =>
    have hbody := ih (hs.kind?_of_opens ht ho) fun q name hp => hempty (st :: q) name (by rw [hp]; rfl)
    have htarget : s.target? type st.key body = s.target? type st.key body' := by
      rw [hs.target?_key ht ho, hs.target?_key ht ho]
      cases st with
      | typename => rfl
      | branch name => rfl
      | field name =>
        cases p with
        | nil =>
          cases hd
          rw [hempty [] name rfl]
        | cons st p => rw [hd.isEmpty_eq_false.1, hd.isEmpty_eq_false.2]
    constructor
    · intro provider
      rw [contributions_branch, contributions_branch, branchContributions_eq_enclose, branchContributions_eq_enclose,
        htarget]
      cases hn : s.target? type st.key body' with
      | none => rfl
      | some next' =>
        obtain rfl := hs.eq_of_target? ht ho hn
        dsimp only
        rw [hbody.contributions]
    · rw [Schema.nesting, Schema.nesting, htarget]
      cases hn : s.target? type st.key body' with
      | none => rfl
      | some next' =>
        obtain rfl := hs.eq_of_target? ht ho hn
        dsimp only
        rw [hbody.nesting]

theorem items_branchContributions {type next : String} (ht : (s.kind? type).isSome) {st : Step}
    (ho : s.Opens type st next) (role : Role) (body : Tree) :
    items (s.branchContributions provider type st.key role body) =
      items (s.enclose provider type st.key role (s.contributions provider next body)) := by
  rw [branchContributions_eq_enclose]
  cases hn : s.target? type st.key body with
  | none =>
    obtain rfl := hs.eq_empty_of_target? ht ho hn
    exact (items_enclose_nil type st.key role).symm
  | some mid =>
    obtain rfl := hs.eq_of_target? ht ho hn
    rfl

/-- Trees that differ only at a place where the same is selected select the same. -/
theorem DifferAt.items_eq {next type : String} {inner inner' t u : Tree} {p : List Step}
    (h : s.DifferAt next inner inner' type p t u) (ht : (s.kind? type).isSome)
    (hitems : items (s.contributions provider next inner) = items (s.contributions provider next inner')) :
    items (s.contributions provider type t) = items (s.contributions provider type u) := by
  induction h with
  | here => exact hitems
  | leaf _ ih => rw [contributions, contributions, items_append, items_append, ih ht]
  | branch _ ih => rw [contributions_branch, contributions_branch, items_append, items_append, ih ht]
  | enter ho _ ih =>
    rw [contributions_branch, contributions_branch, items_append, items_append,
      items_branchContributions hs ht ho, items_branchContributions hs ht ho,
      items_enclose (ih (hs.kind?_of_opens ht ho))]

/-- A tree that differs from another only at a place, and does not nest deeper there, nests no deeper unless the path to
the place is the longer chain. -/
theorem DifferAt.nesting_le {next type : String} {inner inner' t u : Tree} {p : List Step}
    (h : s.DifferAt next inner inner' type p t u) (ht : (s.kind? type).isSome)
    (hle : s.nesting next inner' ≤ s.nesting next inner) :
    s.nesting type u ≤ max (s.nesting type t) p.length := by
  induction h with
  | here => exact Nat.le_trans hle (Nat.le_max_left _ _)
  | leaf _ ih => exact ih ht
  | branch _ ih => exact nesting_branch_mono _ _ _ _ (ih ht)
  | @enter type mid role st p body body' rest ho _ ih =>
    have hbody := ih (hs.kind?_of_opens ht ho)
    have hu := nesting_branch_le hs ht ho role body' rest
    rw [List.length_cons]
    by_cases he : body = .empty
    · have hrest := nesting_rest_le (s := s) type st.key role body rest
      have hzero : s.nesting mid body = 0 := by rw [he, nesting]
      omega
    · have hbranch := le_nesting_branch hs ht ho role he rest
      omega

/-- A tree that differs from another only at a place, where it has entries and nests as deep, nests as deep. -/
theorem DifferAt.le_nesting {next type : String} {inner inner' t u : Tree} {p : List Step}
    (h : s.DifferAt next inner inner' type p t u) (ht : (s.kind? type).isSome)
    (hle : s.nesting next inner ≤ s.nesting next inner') (hinner : inner'.isEmpty = false) :
    s.nesting type t ≤ s.nesting type u := by
  induction h with
  | here => exact hle
  | leaf _ ih => exact ih ht
  | @branch type key role st p body rest rest' _ ih =>
    have hrest := nesting_branch_mono type key role body (Nat.le_trans (ih ht) (Nat.le_max_left _ 0))
    rwa [Nat.max_zero] at hrest
  | @enter type mid role st p body body' rest ho hd ih =>
    have hbody := ih (hs.kind?_of_opens ht ho)
    have hne : body'.isEmpty = false := by
      cases p with
      | nil =>
        cases hd
        exact hinner
      | cons st p => exact hd.isEmpty_eq_false.2
    have ht' := nesting_branch_le hs ht ho role body rest
    have hbody' : body' ≠ .empty := by
      rintro rfl
      cases hne
    have hu := le_nesting_branch hs ht ho role hbody' rest
    omega

/-- Where nothing is selected, the root is written with touched fields only. -/
theorem rootItems_blank {type : String} (ht : (s.kind? type).isSome) {t : Tree}
    (h : items (s.contributions provider type t) = []) :
    ∀ i ∈ rootItems (s.contributions provider type t), ∃ name arguments, i = .composite name arguments [] := by
  intro i hi
  obtain ⟨fs, hfs, _⟩ := exists_touchedItems_eq s provider hs ht t
  rw [rootItems_eq_touchedItems h, hfs] at hi
  obtain ⟨f, _, rfl⟩ := List.mem_map.mp hi
  exact ⟨_, _, rfl⟩

theorem kind?_of_follows {type next : String} {p : List Step} (h : s.Follows type p next)
    (ht : (s.kind? type).isSome) : (s.kind? next).isSome := by
  induction h with
  | nil => exact ht
  | cons ho _ ih => exact ih (hs.kind?_of_opens ht ho)

end Places

/-! ## Insertions -/

section Insertions

variable {o : Options} {root type key : String} {sel : Selection} {tree tree' : Tree} {p : List Step}
  (hs : s.IsValid) (hroot : s.root? o.kind = some root) (hp : s.Follows root p type) (hkey : s.IsUnknown type key)
  (h : tree.modify? (·.insert key sel) (p.map Step.key) = some tree')
include hs hroot hp hkey h

/-- A tree and the same tree after an insertion differ only at the place of the insertion, where they agree. -/
theorem exists_differAt_insert : ∃ inner, tree.subtree? (p.map Step.key) = some inner ∧
    s.Agree type inner (inner.insert key sel) ∧ s.DifferAt type inner (inner.insert key sel) root p tree tree' := by
  have ht : (s.kind? type).isSome := kind?_of_follows hs hp (hs.kind?_root hroot ▸ rfl)
  obtain ⟨inner, hinner, hd⟩ := exists_differAt hp (Tree.modify?_id h) h
  exact ⟨inner, hinner, (agree_insert ((hs.isUnknown_iff ht).mp hkey) sel inner).symm, hd⟩

/-- Inserting a key that means nothing keeps the operation, but for the empty tree of a field. -/
theorem operation_insert (hplace : ¬ tree.IsEmptyField p) : s.operation tree' o = s.operation tree o := by
  obtain ⟨inner, hinner, hagree, hd⟩ := exists_differAt_insert hs hroot hp hkey h
  refine (Agree.operation_eq hroot (hd.agree hs (hs.kind?_root hroot ▸ rfl) hagree fun q name hq => ?_)).symm
  rw [Tree.isEmpty_insert]
  cases inner with
  | empty => exact absurd ⟨⟨q, name, hq⟩, hinner⟩ hplace
  | leaf _ _ _ => rfl
  | branch _ _ _ _ => rfl

/-- All keys that mean nothing do the same to the operation. -/
theorem operation_insert_eq {key₂ : String} {sel₂ : Selection} {tree₂ : Tree} (hkey₂ : s.IsUnknown type key₂)
    (h₂ : tree.modify? (·.insert key₂ sel₂) (p.map Step.key) = some tree₂) :
    s.operation tree₂ o = s.operation tree' o := by
  have ht : (s.kind? type).isSome := kind?_of_follows hs hp (hs.kind?_root hroot ▸ rfl)
  obtain ⟨inner, _, hd⟩ := exists_differAt hp h₂ h
  have hagree : s.Agree type (inner.insert key₂ sel₂) (inner.insert key sel) :=
    (agree_insert ((hs.isUnknown_iff ht).mp hkey₂) sel₂ inner).trans
      (agree_insert ((hs.isUnknown_iff ht).mp hkey) sel inner).symm
  refine Agree.operation_eq hroot (hd.agree hs (hs.kind?_root hroot ▸ rfl) hagree fun _ _ _ => ?_)
  rw [Tree.isEmpty_insert, Tree.isEmpty_insert]

/-- A tree that is no operation is none after an insertion. -/
theorem operation_insert_of_error {error : Error} (herror : s.operation tree o = .error error) :
    s.operation tree' o = .error error := by
  obtain ⟨inner, _, hagree, hd⟩ := exists_differAt_insert hs hroot hp hkey h
  have hle := hd.le_nesting hs (hs.kind?_root hroot ▸ rfl) (Nat.le_of_eq hagree.nesting)
    (Tree.isEmpty_insert inner key sel)
  simp only [operation, hroot] at herror ⊢
  split at herror
  · rw [if_pos (by omega)]
    exact herror
  · cases herror

/-- An operation is the same after an insertion, or nothing is selected in it before and after, unless the path to the
place of the insertion is too long. -/
theorem operation_insert_of_ok {op : Operation} (hop : s.operation tree o = .ok op) :
    (nestingLimit < p.length ∧ s.operation tree' o = .error .recursionLimit) ∨
      ∃ op', s.operation tree' o = .ok op' ∧ (op' = op ∨ op.IsBlank ∧ op'.IsBlank) := by
  have ht : (s.kind? root).isSome := hs.kind?_root hroot ▸ rfl
  obtain ⟨inner, _, hagree, hd⟩ := exists_differAt_insert hs hroot hp hkey h
  have hle := hd.nesting_le hs ht (Nat.le_of_eq hagree.nesting.symm)
  have hitems : items (s.contributions o.provider root tree) = items (s.contributions o.provider root tree') :=
    hd.items_eq hs ht (congrArg items (hagree.contributions o.provider))
  simp only [operation, hroot] at hop ⊢
  split at hop
  · cases hop
  · obtain rfl := Except.ok.inj hop
    by_cases hn : nestingLimit < s.nesting root tree'
    · exact .inl ⟨by omega, if_pos hn⟩
    · refine .inr ⟨_, if_neg hn, ?_⟩
      by_cases hi : items (s.contributions o.provider root tree) = []
      · exact .inr ⟨rootItems_blank hs ht hi, rootItems_blank hs ht (hitems ▸ hi)⟩
      · have hi' : items (s.contributions o.provider root tree') ≠ [] := hitems ▸ hi
        rw [rootItems_eq_items hi, rootItems_eq_items hi', hitems]
        exact .inl rfl

end Insertions

/-- Inserting a key that means nothing, with whatever selection, at a place to which steps lead that open types, keeps
what serialization gives, text or error, unless the place is the empty tree of a field. There all keys that mean nothing
do the same: an error stays as it is, and an operation too, unless the path to the place is too long or nothing is
selected. -/
theorem serialize_insert (hs : s.IsValid) {o : Options} {type key : String} {sel : Selection} {tree tree' : Tree}
    {p : List Step} (hp : ∀ root, s.root? o.kind = some root → s.Follows root p type) (hkey : s.IsUnknown type key)
    (h : tree.modify? (·.insert key sel) (p.map Step.key) = some tree') :
    (¬ tree.IsEmptyField p → s.serialize tree' o = s.serialize tree o) ∧
    (∀ key₂ sel₂ tree₂, s.IsUnknown type key₂ →
      tree.modify? (·.insert key₂ sel₂) (p.map Step.key) = some tree₂ → s.serialize tree₂ o = s.serialize tree' o) ∧
    (∀ error, s.serialize tree o = .error error → s.serialize tree' o = .error error) ∧
    ∀ op, s.operation tree o = .ok op → (nestingLimit < p.length ∧ s.operation tree' o = .error .recursionLimit) ∨
      ∃ op', s.operation tree' o = .ok op' ∧ (op' = op ∨ op.IsBlank ∧ op'.IsBlank) := by
  cases hroot : s.root? o.kind with
  | none =>
    have hmissing : ∀ t, s.operation t o = .error (.operation (.missingRoot o.kind)) := fun t => by
      rw [operation, hroot]
    have hserialize : ∀ t u, s.serialize t o = s.serialize u o := fun t u => by
      rw [serialize, serialize, hmissing, hmissing]
    refine ⟨fun _ => hserialize _ _, fun _ _ _ _ _ => hserialize _ _, fun _ => (hserialize _ _).trans, fun op hop => ?_⟩
    rw [hmissing] at hop
    cases hop
  | some root =>
    have hp := hp root hroot
    refine ⟨fun hplace => ?_, fun key₂ sel₂ tree₂ hkey₂ h₂ => ?_, fun error herror => ?_, fun op hop => ?_⟩
    · rw [serialize, serialize, operation_insert hs hroot hp hkey h hplace]
    · rw [serialize, serialize, operation_insert_eq hs hroot hp hkey h hkey₂ h₂]
    · rw [serialize_eq_error_iff] at herror ⊢
      exact operation_insert_of_error hs hroot hp hkey h herror
    · exact operation_insert_of_ok hs hroot hp hkey h hop

/-- A key for a type that is not in the schema, inserted into an empty branch. -/
theorem serialize_insert_branch : ∃ (s : Schema) (o : Options) (tree tree' : Tree) (p : List Step) (type key : String)
    (sel : Selection), s.IsValid ∧ (∀ root, s.root? o.kind = some root → s.Follows root p type) ∧
    s.IsUnknown type key ∧ tree.modify? (·.insert key sel) (p.map Step.key) = some tree' ∧ ¬ tree.IsEmptyField p ∧
    s.serialize tree o = .ok "query { node { id } }" ∧
    (¬ tree.IsEmptyField p → s.serialize tree' o = s.serialize tree o) ∧
    (∀ key₂ sel₂ tree₂, s.IsUnknown type key₂ →
      tree.modify? (·.insert key₂ sel₂) (p.map Step.key) = some tree₂ → s.serialize tree₂ o = s.serialize tree' o) ∧
    (∀ error, s.serialize tree o = .error error → s.serialize tree' o = .error error) ∧
    ∀ op, s.operation tree o = .ok op → (nestingLimit < p.length ∧ s.operation tree' o = .error .recursionLimit) ∨
      ∃ op', s.operation tree' o = .ok op' ∧ (op' = op ∨ op.IsBlank ∧ op'.IsBlank) := by
  let tree : Tree := .branch "node" .fragment (.leaf "id" true (.branch "on_User" .node .empty .empty)) .empty
  let sel : Selection := .branch .node (.branch "author" .node (.leaf "id" true .empty) .empty)
  let p : List Step := [.field "node", .branch "User"]
  obtain ⟨s, hs, h⟩ := exists_isValid_of_parse
    "interface Node { id: ID } type User implements Node { id: ID } type Query { node: Node }"
    (fun s => decide (s.root? .query = some "Query" ∧ (s.kind? "Query").isSome ∧ (s.kind? "Node").isSome ∧
      (s.kind? "User").isSome ∧
      (s.meaning? "Query" "node").bind Meaning.opens? = some (.field "node", "Node") ∧
      (s.meaning? "Node" "on_User").bind Meaning.opens? = some (.branch "User", "User") ∧
      (s.meaning? "User" "on_Post").isNone ∧ (s.serialize tree {}).toOption = some "query { node { id } }"))
    (by decide +kernel)
  obtain ⟨hroot, hquery, hnode, huser, hopens, hopens', hmeaning, htext⟩ := of_decide_eq_true h
  have hp : ∀ root, s.root? .query = some root → s.Follows root p "User" := by
    intro root hr
    obtain rfl := Option.some.inj (hroot.symm.trans hr)
    exact .cons ((hs.opens_iff hquery).mpr hopens).2 (.cons ((hs.opens_iff hnode).mpr hopens').2 .nil)
  have hkey : s.IsUnknown "User" "on_Post" := (hs.isUnknown_iff huser).mpr (Option.isNone_iff_eq_none.mp hmeaning)
  have hplace : ¬ tree.IsEmptyField p := by
    rintro ⟨⟨q, name, hq⟩, _⟩
    have hlast := congrArg List.getLast? hq
    simp [p] at hlast
  have hmodify : tree.modify? (·.insert "on_Post" sel) (p.map Step.key) = some (.branch "node" .fragment
      (.leaf "id" true (.branch "on_User" .node (.cons "on_Post" sel .empty) .empty)) .empty) := by decide
  exact ⟨s, {}, tree, _, p, "User", "on_Post", sel, hs, hp, hkey, hmodify, hplace, eq_ok_of_toOption_eq_some htext,
    serialize_insert hs hp hkey hmodify⟩

/-- A key that means nothing, inserted into the empty tree of a field: the field was left out, and is written with an
empty selection set. -/
theorem serialize_insert_empty : ∃ (s : Schema) (tree tree' : Tree), s.IsValid ∧ s.root? .query = some "Query" ∧
    s.Follows "Query" [.field "user"] "User" ∧ s.IsUnknown "User" "old" ∧
    tree.modify? (·.insert "old" (.leaf true)) ["user"] = some tree' ∧
    s.serialize tree {} = .ok "query {}" ∧ s.serialize tree' {} = .ok "query { user {} }" := by
  let tree : Tree := .branch "user" .node .empty .empty
  let tree' : Tree := .branch "user" .node (.leaf "old" true .empty) .empty
  obtain ⟨s, hs, h⟩ := exists_isValid_of_parse "type Query { user: User } type User { id: ID }"
    (fun s => decide (s.root? .query = some "Query" ∧ (s.kind? "Query").isSome ∧ (s.kind? "User").isSome ∧
      (s.meaning? "Query" "user").bind Meaning.opens? = some (.field "user", "User") ∧
      (s.meaning? "User" "old").isNone ∧ (s.serialize tree {}).toOption = some "query {}" ∧
      (s.serialize tree' {}).toOption = some "query { user {} }"))
    (by decide +kernel)
  obtain ⟨hroot, hquery, huser, hopens, hmeaning, htext, htext'⟩ := of_decide_eq_true h
  exact ⟨s, tree, tree', hs, hroot, .cons ((hs.opens_iff hquery).mpr hopens).2 .nil,
    (hs.isUnknown_iff huser).mpr (Option.isNone_iff_eq_none.mp hmeaning), by decide,
    eq_ok_of_toOption_eq_some htext, eq_ok_of_toOption_eq_some htext'⟩

end Schema

end GraphSelect
