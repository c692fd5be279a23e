import GraphSelect.Proofs.Operation.Edit
import GraphSelect.Proofs.Operation.Reordering
import GraphSelect.Proofs.Operation.Walk

/-!
# Trees that nest too deep

A tree becomes an operation unless the schema has no root type for it, or too many selection sets would stand one inside
the other. `Nests` says which chains of keys enter a selection set with each key, by the steps that the keys stand for
alone. The longest of them are as long as the tree nests (`le_nesting_iff`).

What is under a key that is not entered is never looked at. Without it a tree is as deep as it nests (`depth_pruned`)
and becomes the same operation (`operation_pruned`). So how serialization ends is a matter of chains of keys, and it
ends as one walk through the tree does, which checks the limit on the way (`serialize_outcome`).
-/

namespace GraphSelect

namespace Schema

open Contribution

variable {s : Schema} {provider : ArgumentProvider}

/-! ## Chains of keys -/

/-- A chain of nested keys of a tree, starting from a type. Each key is a field of an object, interface or union type
with a tree that is not empty, or, where it is no field, a branch with any tree. -/
inductive Nests (s : Schema) : String → Tree → List String → Prop
  | nil {type : String} {t : Tree} : Nests s type t []
  | field {type next name : String} {role : Role} {t body : Tree} {keys : List String} :
      (name, .branch role body) ∈ t.entries → body ≠ .empty → s.Opens type (.field name) next →
      Nests s next body keys → Nests s type t (name :: keys)
  | branch {type next : String} {role : Role} {t body : Tree} {keys : List String} :
      (Key.ofType next, .branch role body) ∈ t.entries → s.Opens type (.branch next) next →
      Nests s next body keys → Nests s type t (Key.ofType next :: keys)

/-- A tree nests deeper than what is entered under one of its keys. -/
theorem nesting_lt_of_target? {type key next : String} {role : Role} {body : Tree} : ∀ {t : Tree},
    (key, .branch role body) ∈ t.entries → s.target? type key body = some next →
    s.nesting next body < s.nesting type t
  | .empty, hmem, _ => by cases hmem
  | .leaf _ _ rest, hmem, h => by
    rcases List.mem_cons.mp hmem with he | hmem
    · cases he
    · exact nesting_lt_of_target? (t := rest) hmem h
  | .branch k role' body' rest, hmem, h => by
    rw [nesting]
    rcases List.mem_cons.mp hmem with he | hmem
    · cases he
      rw [h]
      dsimp only
      omega
    · have hrest := nesting_lt_of_target? (t := rest) hmem h
      cases s.target? type k body' with
      | none => exact hrest
      | some _ =>
        dsimp only
        omega

/-- A tree that nests at all nests one deeper than what is entered under some key. -/
theorem exists_target?_of_nesting {type : String} : ∀ {t : Tree}, 0 < s.nesting type t →
    ∃ key role body next, (key, .branch role body) ∈ t.entries ∧ s.target? type key body = some next ∧
      s.nesting type t = s.nesting next body + 1
  | .empty, h => absurd h (Nat.lt_irrefl 0)
  | .leaf _ _ rest, h => by
    obtain ⟨key, role, body, next, hmem, hnext, he⟩ := exists_target?_of_nesting (t := rest) h
    exact ⟨key, role, body, next, List.mem_cons_of_mem _ hmem, hnext, he⟩
  | .branch k role body rest, h => by
    rw [nesting] at h ⊢
    cases hk : s.target? type k body with
    | none =>
      rw [hk] at h
      obtain ⟨key, role', body', next, hmem, hnext, he⟩ := exists_target?_of_nesting (t := rest) h
      exact ⟨key, role', body', next, List.mem_cons_of_mem _ hmem, hnext, he⟩
    | some next =>
      rcases Nat.lt_or_ge (s.nesting next body) (s.nesting type rest) with hlt | hge
      · have hrest : 0 < s.nesting type rest := Nat.zero_lt_of_lt hlt
        obtain ⟨key, role', body', next', hmem, hnext', he⟩ := exists_target?_of_nesting (t := rest) hrest
        refine ⟨key, role', body', next', List.mem_cons_of_mem _ hmem, hnext', ?_⟩
        dsimp only
        omega
      · refine ⟨k, role, body, next, List.mem_cons_self, hk, ?_⟩
        dsimp only
        omega

section Chains

variable (hs : s.IsValid)
include hs

theorem length_le_nesting {type : String} (ht : (s.kind? type).isSome) {t : Tree} {keys : List String}
    (h : s.Nests type t keys) : keys.length ≤ s.nesting type t := by
  induction h with
  | nil => exact Nat.zero_le _
  | field hmem hbody ho _ ih =>
    have hlt := nesting_lt_of_target? hmem ((hs.target?_eq_some_iff ht).mpr (.inl ⟨hbody, ho⟩))
    exact Nat.lt_of_le_of_lt (ih (hs.kind?_of_opens ht ho)) hlt
  | branch hmem ho _ ih =>
    have hlt := nesting_lt_of_target? hmem ((hs.target?_eq_some_iff ht).mpr (.inr ⟨rfl, ho⟩))
    exact Nat.lt_of_le_of_lt (ih (hs.kind?_of_opens ht ho)) hlt

theorem exists_nests {n : Nat} {type : String} (ht : (s.kind? type).isSome) {t : Tree} (h : n ≤ s.nesting type t) :
    ∃ keys, keys.length = n ∧ s.Nests type t keys := by
  induction n generalizing type t with
  | zero => exact ⟨[], rfl, .nil⟩
  | succ n ih =>
    obtain ⟨key, role, body, next, hmem, hnext, he⟩ := exists_target?_of_nesting (Nat.lt_of_lt_of_le n.succ_pos h)
    obtain ⟨keys, hlength, hkeys⟩ := ih (hs.kind?_of_target? ht hnext) (Nat.le_of_succ_le_succ (he ▸ h))
    refine ⟨key :: keys, congrArg Nat.succ hlength, ?_⟩
    rcases (hs.target?_eq_some_iff ht).mp hnext with ⟨hbody, ho⟩ | ⟨rfl, ho⟩
    · exact .field hmem hbody ho hkeys
    · exact .branch hmem ho hkeys

/-- A tree nests as deep as its chains of keys are long. -/
theorem le_nesting_iff {n : Nat} {type : String} (ht : (s.kind? type).isSome) {t : Tree} :
    n ≤ s.nesting type t ↔ ∃ keys, keys.length = n ∧ s.Nests type t keys := by
  refine ⟨exists_nests hs ht, ?_⟩
  rintro ⟨keys, rfl, h⟩
  exact length_le_nesting hs ht h

end Chains

/-! ## Single entries -/

theorem nesting_rest_le (type key : String) (role : Role) (body rest : Tree) :
    s.nesting type rest ≤ s.nesting type (.branch key role body rest) := by
  rw [nesting]
  cases s.target? type key body with
  | none => exact Nat.le_refl _
  | some next => exact Nat.le_max_right _ _

/-- The rest of a tree can be exchanged for one that nests deeper. -/
theorem nesting_branch_mono (type key : String) (role : Role) (body : Tree) {rest rest' : Tree} {n : Nat}
    (h : s.nesting type rest ≤ max (s.nesting type rest') n) :
    s.nesting type (.branch key role body rest) ≤ max (s.nesting type (.branch key role body rest')) n := by
  rw [nesting, nesting]
  cases s.target? type key body with
  | none => exact h
  | some next =>
    dsimp only
    omega

section Entries

variable (hs : s.IsValid) {type next : String} (ht : (s.kind? type).isSome) {st : Step} (ho : s.Opens type st next)
include hs ht ho

theorem nesting_branch_le (role : Role) (body rest : Tree) :
    s.nesting type (.branch st.key role body rest) ≤ max (s.nesting next body + 1) (s.nesting type rest) := by
  rw [nesting]
  cases hn : s.target? type st.key body with
  | none => exact Nat.le_max_right _ _
  | some mid =>
    obtain rfl := hs.eq_of_target? ht ho hn
    exact Nat.le_refl _

theorem le_nesting_branch (role : Role) {body : Tree} (hbody : body ≠ .empty) (rest : Tree) :
    max (s.nesting next body + 1) (s.nesting type rest) ≤ s.nesting type (.branch st.key role body rest) := by
  rw [nesting]
  cases hn : s.target? type st.key body with
  | none => exact absurd (hs.eq_empty_of_target? ht ho hn) hbody
  | some mid =>
    obtain rfl := hs.eq_of_target? ht ho hn
    exact Nat.le_refl _

end Entries

/-! ## What is entered -/

/-- What a branch entry that is entered contributes around what its body contributes. -/
def enclose (s : Schema) (provider : ArgumentProvider) (type key : String) (role : Role) (cs : List Contribution) :
    List Contribution :=
  match s.meaning? type key with
  | some (.composite f kind) => [ofField (isSorted kind role) (.composite f.name (provider s type f)) cs]
  | some (.branch next kind) => (ofBranch (isSorted kind role) (.fragment next) cs).toList
  | _ => []

/-- What an entry contributes is found around what is entered under its key. -/
theorem branchContributions_eq_enclose {type key : String} {role : Role} {body : Tree} :
    s.branchContributions provider type key role body =
      match s.target? type key body with
      | none => []
      | some next => s.enclose provider type key role (s.contributions provider next body) := by
  rw [branchContributions_eq, target?]
  cases hm : s.meaning? type key with
  | none => rfl
  | some m =>
    cases m with
    | typename => rfl
    | leaf f => rfl
    | composite f kind =>
      dsimp only
      cases body.isEmpty with
      | true => rfl
      | false => simp [enclose, hm]
    | branch next kind => simp [enclose, hm]

/-! ## Pruned trees -/

/-- The tree in which every key that is not entered has a leaf that is not selected. -/
def pruned (s : Schema) (type : String) : Tree → Tree
  | .empty => .empty
  | .leaf key selected rest => .leaf key selected (s.pruned type rest)
  | .branch key role body rest =>
    match s.target? type key body with
    | none => .leaf key false (s.pruned type rest)
    | some next => .branch key role (s.pruned next body) (s.pruned type rest)

theorem isEmpty_pruned (type : String) (t : Tree) : (s.pruned type t).isEmpty = t.isEmpty := by
  cases t with
  | empty => rfl
  | leaf _ _ _ => rfl
  | branch key role body rest =>
    rw [pruned]
    split <;> rfl

/-- Without what is not entered, a tree is as deep as it nests. -/
theorem depth_pruned : ∀ (t : Tree) (type : String), (s.pruned type t).depth = s.nesting type t + 1
  | .empty, _ => rfl
  | .leaf _ _ rest, type => by rw [pruned, Tree.depth, nesting, depth_pruned rest]
  | .branch key _ body rest, type => by
    rw [pruned, nesting]
    cases s.target? type key body with
    | none =>
      dsimp only
      rw [Tree.depth, depth_pruned rest]
    | some next =>
      dsimp only
      rw [Tree.depth, depth_pruned rest, depth_pruned body]
      omega

theorem nesting_pruned : ∀ (t : Tree) (type : String), s.nesting type (s.pruned type t) = s.nesting type t
  | .empty, _ => rfl
  | .leaf _ _ rest, type => by rw [pruned, nesting, nesting, nesting_pruned rest]
  | .branch key _ body rest, type => by
    rw [pruned, nesting]
    cases hk : s.target? type key body with
    | none =>
      dsimp only
      rw [nesting, nesting_pruned rest]
    | some next =>
      dsimp only
      rw [nesting, target?_congr (isEmpty_pruned next body), hk]
      dsimp only
      rw [nesting_pruned rest, nesting_pruned body]

/-- What is not entered contributes nothing. -/
theorem contributions_pruned : ∀ (t : Tree) (type : String),
    s.contributions provider type (s.pruned type t) = s.contributions provider type t
  | .empty, _ => rfl
  | .leaf _ _ rest, type => by rw [pruned, contributions, contributions, contributions_pruned rest]
  | .branch key role body rest, type => by
    rw [pruned, contributions_branch, branchContributions_eq_enclose]
    cases hk : s.target? type key body with
    | none =>
      dsimp only
      rw [contributions, contributions_pruned rest]
      rfl
    | some next =>
      dsimp only
      rw [contributions_branch, branchContributions_eq_enclose, target?_congr (isEmpty_pruned next body), hk]
      dsimp only
      rw [contributions_pruned rest, contributions_pruned body]

/-- What is not entered does not matter to the operation. -/
theorem operation_pruned {o : Options} {root : String} (hroot : s.root? o.kind = some root) (t : Tree) :
    s.operation (s.pruned root t) o = s.operation t o := by
  simp only [operation, hroot, nesting_pruned, contributions_pruned]

/-! ## How serialization ends -/

/-- How serialization ends: with a text or with an error. -/
def outcome (s : Schema) (tree : Tree) (o : Options) : Except Error Unit := (s.serialize tree o).map fun _ => ()

theorem outcome_eq (tree : Tree) (o : Options) :
    s.outcome tree o =
      match s.root? o.kind with
      | none => .error (.operation (.missingRoot o.kind))
      | some root => if nestingLimit < s.nesting root tree then .error .recursionLimit else .ok () := by
  unfold outcome serialize operation
  cases s.root? o.kind with
  | none => rfl
  | some root =>
    dsimp only
    split <;> rfl

/-- Serialization ends as a walk through the tree does. -/
theorem outcome_eq_walk (tree : Tree) (o : Options) : s.outcome tree o = (s.walk tree o).map fun _ => () := by
  rw [outcome_eq, walk]
  cases s.root? o.kind with
  | none => rfl
  | some root =>
    dsimp only
    rcases draft?_cases s o.provider root tree nestingLimit false {} with ⟨hn, hd⟩ | ⟨hn, d, hd⟩ <;> rw [hd]
    · rw [if_pos hn]
      rfl
    · rw [if_neg hn]
      rfl

section Outcomes

variable (hs : s.IsValid)
include hs

/-- Serialization fails exactly if there is no root type, or a chain of keys of the tree is longer than the limit. It
ends in the same way for every tree with the same keys and every choice that leaves the kind of operation as it is, and
what is under keys that are not entered has no part in it. It also ends as one walk does that fails where it would enter
one selection set too many, and where it does not fail, it is the operation of that walk that is written. -/
theorem serialize_outcome (tree : Tree) (o : Options) :
    (s.serialize tree o = .error (.operation (.missingRoot o.kind)) ↔ s.root? o.kind = none) ∧
    (∀ root, s.root? o.kind = some root →
      (s.serialize tree o = .error .recursionLimit ↔ ∃ keys, keys.length = 513 ∧ s.Nests root tree keys) ∧
      ((∃ text, s.serialize tree o = .ok text) ↔ ¬ ∃ keys, keys.length = 513 ∧ s.Nests root tree keys) ∧
      (s.serialize tree o = .error .recursionLimit ↔ 513 < (s.pruned root tree).depth) ∧
      s.serialize (s.pruned root tree) o = s.serialize tree o) ∧
    (∀ tree' o', o'.kind = o.kind → (tree.setAll false).Alike (tree'.setAll false) →
      s.outcome tree' o' = s.outcome tree o) ∧
    s.outcome tree o = (s.walk tree o).map (fun _ => ()) ∧
    (tree.Distinct → s.serialize tree o = (s.walk tree o).map Operation.write) := by
  refine ⟨?_, fun root hroot => ?_, fun tree' o' hkind halike => ?_, outcome_eq_walk tree o, fun htree => ?_⟩
  · cases hroot : s.root? o.kind with
    | none => simp [serialize, operation, hroot, Except.map]
    | some root =>
      simp only [serialize, operation, hroot]
      split <;> simp [Except.map]
  · rw [← le_nesting_iff hs (hs.kind?_root hroot ▸ rfl), depth_pruned, serialize, serialize, operation_pruned hroot]
    have hlimit : 513 < s.nesting root tree + 1 ↔ 513 ≤ s.nesting root tree := Nat.lt_succ_iff
    simp only [operation, hroot, hlimit]
    by_cases hn : nestingLimit < s.nesting root tree
    · have hle : 513 ≤ s.nesting root tree := hn
      simp [hn, hle, Except.map]
    · have hlt : ¬ 513 ≤ s.nesting root tree := hn
      simp [hn, hlt, Except.map]
  · rw [outcome_eq, outcome_eq, hkind]
    cases s.root? o.kind with
    | none => rfl
    | some root =>
      dsimp only
      rw [← nesting_setAll false tree', ← nesting_setAll false tree, nesting_eq_of_alike halike]
  · rw [serialize, operation_eq_walk htree]

end Outcomes

/-- A tree of friends of friends that nests one deeper than the limit. -/
theorem serialize_outcome_friends : ∃ (s : Schema) (tree : Tree) (o : Options), s.IsValid ∧
    (s.serialize tree o = .error .recursionLimit) ∧
    (s.serialize tree o = .error (.operation (.missingRoot o.kind)) ↔ s.root? o.kind = none) ∧
    (∀ root, s.root? o.kind = some root →
      (s.serialize tree o = .error .recursionLimit ↔ ∃ keys, keys.length = 513 ∧ s.Nests root tree keys) ∧
      ((∃ text, s.serialize tree o = .ok text) ↔ ¬ ∃ keys, keys.length = 513 ∧ s.Nests root tree keys) ∧
      (s.serialize tree o = .error .recursionLimit ↔ 513 < (s.pruned root tree).depth) ∧
      s.serialize (s.pruned root tree) o = s.serialize tree o) ∧
    (∀ tree' o', o'.kind = o.kind → (tree.setAll false).Alike (tree'.setAll false) →
      s.outcome tree' o' = s.outcome tree o) ∧
    s.outcome tree o = (s.walk tree o).map (fun _ => ()) ∧
    (tree.Distinct → s.serialize tree o = (s.walk tree o).map Operation.write) := by
  let tree : Tree := (List.replicate 513 "friend").foldr (fun key body => .branch key .node body .empty)
    (.leaf "id" true .empty)
  obtain ⟨s, hs, h⟩ := exists_isValid_of_parse "type Query { id: ID friend: Query }"
    (fun s => decide (s.root? .query = some "Query" ∧ nestingLimit < s.nesting "Query" tree))
    (by decide +kernel)
  obtain ⟨hroot, hn⟩ := of_decide_eq_true h
  have hserialize : s.serialize tree {} = .error .recursionLimit := by
    simp only [serialize, operation, hroot, if_pos hn]
    rfl
  exact ⟨s, tree, {}, hs, hserialize, serialize_outcome hs tree {}⟩

end Schema

end GraphSelect
