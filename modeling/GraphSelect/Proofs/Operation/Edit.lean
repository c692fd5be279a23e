import GraphSelect.Proofs.Operation.Contribution
import GraphSelect.Proofs.Tree.Edit

/-!
# Operations of edited trees

Setting a leaf to which no path resolves changes nothing in the operation of a tree (`operation_set`): the leaf
contributes nothing, whatever its value (`contributions_set?`). How deep a tree nests does not depend on values at all
(`nesting_setAll`), and is less than its depth (`nesting_lt_depth`).
-/

namespace GraphSelect

namespace Schema

open Contribution

variable {s : Schema} {provider : ArgumentProvider}

/-! ## Nesting -/

theorem nesting_setAll (b : Bool) : ∀ (t : Tree) (type : String), s.nesting type (t.setAll b) = s.nesting type t
  | .empty, _ => rfl
  | .leaf _ _ rest, type => by rw [Tree.setAll, nesting, nesting, nesting_setAll b rest]
  | .branch key role body rest, type => by
    rw [Tree.setAll, nesting, nesting, target?_congr (Tree.isEmpty_setAll b body), nesting_setAll b rest]
    cases s.target? type key body with
    | none => rfl
    | some next =>
      dsimp only
      rw [nesting_setAll b body]

/-- A tree does not nest deeper than it is. -/
theorem nesting_lt_depth : ∀ (t : Tree) (type : String), s.nesting type t < t.depth
  | .empty, _ => Nat.one_pos
  | .leaf _ _ rest, type => by
    rw [nesting, Tree.depth]
    exact nesting_lt_depth rest type
  | .branch key role body rest, type => by
    have hrest := nesting_lt_depth rest type
    rw [nesting, Tree.depth]
    cases s.target? type key body with
    | none =>
      dsimp only
      omega
    | some next =>
      have hbody := nesting_lt_depth body next
      dsimp only
      omega

/-! ## Contributions -/

/-- What a branch entry contributes depends on its body only through what that contributes, and whether it is empty. -/
theorem branchContributions_congr {type key : String} {role : Role} {body body' : Tree}
    (hempty : body'.isEmpty = body.isEmpty)
    (h : ∀ st next, (s.meaning? type key).bind Meaning.opens? = some (st, next) →
      s.contributions provider next body' = s.contributions provider next body) :
    s.branchContributions provider type key role body' = s.branchContributions provider type key role body := by
  rw [branchContributions_eq, branchContributions_eq, hempty]
  cases hm : s.meaning? type key with
  | none => rfl
  | some m =>
    rw [hm] at h
    cases m with
    | typename => rfl
    | leaf f => rfl
    | composite f kind =>
      dsimp only
      rw [h (.field f.name) f.type.base rfl]
    | branch next kind =>
      dsimp only
      rw [h (.branch next) next rfl]

section Trees

variable (hs : s.IsValid)
include hs

/-- A leaf whose key is no last step of a path contributes nothing. -/
theorem leafContribution_eq_none {type key : String} (hno : ∀ st, st.key = key → ¬ s.Ends type st) (selected : Bool) :
    s.leafContribution provider type key selected = none := by
  have hends : (s.meaning? type key).bind Meaning.ends? = none := by
    rw [Option.eq_none_iff_forall_ne_some]
    intro st hst
    obtain ⟨hkey, he⟩ := hs.ends_iff.mpr hst
    exact hno st hkey he
  rcases leafContribution_cases s provider type key selected with ⟨_, hm, _⟩ | ⟨f, _, hm, _⟩ | ⟨_, he⟩
  · rw [hm] at hends
    cases hends
  · rw [hm] at hends
    cases hends
  · exact he

/-- Setting a leaf to which no path resolves keeps what a tree contributes. -/
theorem contributions_set? {value : Bool} : ∀ {t t' : Tree} {type : String} {path : List String},
    (s.kind? type).isSome → (∀ p, p.map Step.key = path → ¬ s.Resolves type p) → t.set? value path = some t' →
    s.contributions provider type t' = s.contributions provider type t
  | _, _, _, [], _, _, h => by simp [Tree.set?] at h
  | .empty, _, _, _ :: _, _, _, h => by cases h
  | .leaf k selected rest, t', type, key :: path, ht, hno, h => by
    rw [Tree.set?_leaf] at h
    split at h
    · rename_i hk
      split at h
      · rename_i hpath
        subst hk hpath
        obtain rfl := Option.some.inj h
        have hends : ∀ st, st.key = k → ¬ s.Ends type st := fun st hst he => hno [st] (by rw [← hst]; rfl) (.last he)
        rw [contributions, contributions, leafContribution_eq_none hs hends, leafContribution_eq_none hs hends]
      · cases h
    · obtain ⟨rest', hrest, rfl⟩ := Option.map_eq_some_iff.mp h
      rw [contributions, contributions, contributions_set? ht hno hrest]
  | .branch k role body rest, t', type, key :: path, ht, hno, h => by
    rw [Tree.set?_branch] at h
    split at h
    · rename_i hk
      subst hk
      obtain ⟨body', hbody, rfl⟩ := Option.map_eq_some_iff.mp h
      have hempty : body'.isEmpty = body.isEmpty := by
        rw [← Tree.isEmpty_setAll false, Tree.setAll_set? false hbody, Tree.isEmpty_setAll]
      rw [contributions_branch, contributions_branch, branchContributions_congr hempty fun st next hm => ?_]
      obtain ⟨rfl, ho⟩ := (hs.opens_iff ht).mpr hm
      refine contributions_set? (hs.kind?_of_opens ht ho) (fun p hp hr => ?_) hbody
      exact hno (st :: p) (by rw [List.map_cons, hp]) (.step ho hr)
    · obtain ⟨rest', hrest, rfl⟩ := Option.map_eq_some_iff.mp h
      rw [contributions_branch, contributions_branch, contributions_set? ht hno hrest]

/-- Setting a leaf to which no path resolves keeps the operation. -/
theorem operation_set {o : Options} {root : String} (hroot : s.root? o.kind = some root) {path : List String}
    (hno : ∀ p, p.map Step.key = path → ¬ s.Resolves root p) (t : Tree) (value : Bool) :
    s.operation (t.set path value) o = s.operation t o := by
  unfold Tree.set
  cases h : t.set? value path with
  | none => rfl
  | some t' =>
    have ht : (s.kind? root).isSome := hs.kind?_root hroot ▸ rfl
    have hnesting : s.nesting root t' = s.nesting root t := by
      rw [← nesting_setAll false t', Tree.setAll_set? false h, nesting_setAll]
    have hcontributions : s.contributions o.provider root t' = s.contributions o.provider root t :=
      contributions_set? hs ht hno h
    simp only [Option.getD_some, operation, hroot, hnesting, hcontributions]

end Trees

/-- An operation is made from every tree that nests no deeper than the limit. -/
theorem exists_operation {o : Options} {root : String} (hroot : s.root? o.kind = some root) {t : Tree}
    (ht : t.depth ≤ nestingLimit + 1) : ∃ op, s.operation t o = .ok op := by
  have hn : ¬ nestingLimit < s.nesting root t := by
    have := nesting_lt_depth (s := s) t root
    omega
  simp only [operation, hroot, if_neg hn]
  exact ⟨_, rfl⟩

end Schema

end GraphSelect
