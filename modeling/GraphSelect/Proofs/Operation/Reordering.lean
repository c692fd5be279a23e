import GraphSelect.Proofs.Operation.Contribution
import GraphSelect.Proofs.Tree.Roles
import Mathlib.Data.List.Perm.Basic

/-!
# Trees that are read again

A tree can be written as JSON and read again. The reader finds the roles of branches anew, and the role of a branch
decides whether its selection set is put into the fixed order. That is all it decides: alike trees contribute the same
items in the same order, in each of which nested selection sets may be ordered otherwise (`rearranged_contributions`).
So a tree that is read again fails to become an operation exactly if the tree itself does, and if not the two
operations differ at most in the order of nested selection sets (`serialize_reread`).
-/

namespace GraphSelect

/-! ## Order inside items -/

/-- Two items are the same but for the order of the selection sets inside them. -/
inductive Item.Rearranged : Item → Item → Prop
  | typename : Rearranged .typename .typename
  | scalar {name : String} {arguments : List (String × Literal)} :
      Rearranged (.scalar name arguments) (.scalar name arguments)
  | composite {name : String} {arguments : List (String × Literal)} {body mid body' : List Item} :
      List.Forall₂ Rearranged body mid → mid.Perm body' →
      Rearranged (.composite name arguments body) (.composite name arguments body')
  | fragment {type : String} {body mid body' : List Item} : List.Forall₂ Rearranged body mid → mid.Perm body' →
      Rearranged (.fragment type body) (.fragment type body')

mutual

theorem Item.Rearranged.refl : ∀ i : Item, i.Rearranged i
  | .typename => .typename
  | .scalar _ _ => .scalar
  | .composite _ _ body => .composite (forall₂_rearranged_self body) (.refl body)
  | .fragment _ body => .fragment (forall₂_rearranged_self body) (.refl body)

theorem Item.forall₂_rearranged_self : ∀ is : List Item, List.Forall₂ Item.Rearranged is is
  | [] => .nil
  | i :: is => .cons (.refl i) (forall₂_rearranged_self is)

end

theorem Item.isEmpty_eq_of_rearranged {is js : List Item} (h : List.Forall₂ Item.Rearranged is js) :
    is.isEmpty = js.isEmpty := by
  cases h <;> rfl

namespace Contribution

/-- Two contributions are the same mark, or the same item but for the order of the selection sets inside it. -/
inductive Rearranged : Contribution → Contribution → Prop
  | item {i j : Item} : i.Rearranged j → Rearranged (.item i) (.item j)
  | touched {i : Item} : Rearranged (.touched i) (.touched i)
  | hollow : Rearranged .hollow .hollow

theorem Rearranged.refl : ∀ c : Contribution, c.Rearranged c
  | .item i => .item (.refl i)
  | .touched _ => .touched
  | .hollow => .hollow

section Lists

variable {cs ds : List Contribution} (h : List.Forall₂ Rearranged cs ds)
include h

theorem rearranged_items : List.Forall₂ Item.Rearranged (items cs) (items ds) := by
  induction h with
  | nil => exact .nil
  | cons hc _ ih =>
    cases hc with
    | item hi => exact .cons hi ih
    | touched => exact ih
    | hollow => exact ih

theorem touchedItems_eq : touchedItems cs = touchedItems ds := by
  induction h with
  | nil => rfl
  | cons hc _ ih =>
    cases hc with
    | item hi => exact ih
    | touched => exact congrArg (_ :: ·) ih
    | hollow => exact ih

/-- A body is rearranged if what it is made of is, whether or not it is put into the fixed order. -/
theorem exists_rearranged_arrange (sorted sorted' : Bool) :
    ∃ mid, List.Forall₂ Item.Rearranged (arrange sorted (items cs)) mid ∧ mid.Perm (arrange sorted' (items ds)) := by
  obtain ⟨mid, hmid, hperm⟩ := List.perm_comp_forall₂ (arrange_perm sorted (items cs)) (rearranged_items h)
  exact ⟨mid, hmid, hperm.trans (arrange_perm sorted' (items ds)).symm⟩

/-- A field contributes the same around bodies that are rearranged. -/
theorem rearranged_ofField (sorted sorted' : Bool) {write : List Item → Item}
    (hwrite : ∀ {body mid body' : List Item}, List.Forall₂ Item.Rearranged body mid → mid.Perm body' →
      (write body).Rearranged (write body')) :
    (ofField sorted write cs).Rearranged (ofField sorted' write ds) := by
  obtain ⟨mid, hmid, hperm⟩ := exists_rearranged_arrange h sorted sorted'
  have hitems := rearranged_items h
  cases h with
  | nil => exact .touched
  | @cons c d cs ds hc hcs =>
    unfold ofField
    cases hi : items (c :: cs) with
    | nil =>
      rw [hi, List.forall₂_nil_left_iff] at hitems
      rw [hitems]
      exact .hollow
    | cons i is =>
      rw [hi, List.forall₂_cons_left_iff] at hitems
      obtain ⟨j, js, _, _, hj⟩ := hitems
      rw [hi] at hmid
      rw [hj] at hperm ⊢
      exact .item (hwrite hmid hperm)

/-- A branch contributes the same around bodies that are rearranged. -/
theorem rearranged_ofBranch (sorted sorted' : Bool) {write : List Item → Item}
    (hwrite : ∀ {body mid body' : List Item}, List.Forall₂ Item.Rearranged body mid → mid.Perm body' →
      (write body).Rearranged (write body')) :
    List.Forall₂ Rearranged (ofBranch sorted write cs).toList (ofBranch sorted' write ds).toList := by
  obtain ⟨mid, hmid, hperm⟩ := exists_rearranged_arrange h sorted sorted'
  have hitems := rearranged_items h
  cases h with
  | nil => exact .nil
  | @cons c d cs ds hc hcs =>
    unfold ofBranch
    cases hi : items (c :: cs) with
    | nil =>
      rw [hi, List.forall₂_nil_left_iff] at hitems
      rw [hitems]
      exact .cons .hollow .nil
    | cons i is =>
      rw [hi, List.forall₂_cons_left_iff] at hitems
      obtain ⟨j, js, _, _, hj⟩ := hitems
      rw [hi] at hmid
      rw [hj] at hperm ⊢
      exact .cons (.item (hwrite hmid hperm)) .nil

end Lists

end Contribution

namespace Schema

open Contribution

variable {s : Schema}

/-! ## Alike trees -/

/-- How deep a tree nests does not depend on roles. -/
theorem nesting_eq_of_alike {t u : Tree} (h : t.Alike u) : ∀ type, s.nesting type t = s.nesting type u := by
  induction h with
  | empty => exact fun _ => rfl
  | leaf _ ih =>
    intro type
    rw [nesting, nesting, ih type]
  | @branch key role role' body body' rest rest' hbody _ ihbody ihrest =>
    intro type
    rw [nesting, nesting, target?_congr hbody.isEmpty_eq, ihrest type]
    cases s.target? type key body' with
    | none => rfl
    | some next =>
      dsimp only
      rw [ihbody next]

/-- Alike trees contribute the same, but for the order of selection sets inside. -/
theorem rearranged_contributions (s : Schema) (provider : ArgumentProvider) {t u : Tree} (h : t.Alike u) : ∀ type,
    List.Forall₂ Contribution.Rearranged (s.contributions provider type t) (s.contributions provider type u) := by
  induction h with
  | empty => exact fun _ => .nil
  | leaf _ ih =>
    intro type
    rw [contributions, contributions]
    exact List.rel_append (List.forall₂_same.mpr fun c _ => .refl c) (ih type)
  | @branch key role role' body body' rest rest' hbody _ ihbody ihrest =>
    intro type
    rw [contributions_branch, contributions_branch]
    refine List.rel_append ?_ (ihrest type)
    rw [branchContributions_eq, branchContributions_eq, hbody.isEmpty_eq]
    split
    · rename_i f kind _
      split
      · exact .nil
      · exact .cons (rearranged_ofField (ihbody f.type.base) _ _ .composite) .nil
    · rename_i next kind _
      exact rearranged_ofBranch (ihbody next) _ _ .fragment
    · exact .nil

/-- The root is written with rearranged items, be they selected or touched. -/
theorem rearranged_rootItems {cs ds : List Contribution} (h : List.Forall₂ Contribution.Rearranged cs ds) :
    List.Forall₂ Item.Rearranged (rootItems cs) (rootItems ds) := by
  have hitems := rearranged_items h
  by_cases hi : items cs = []
  · rw [hi, List.forall₂_nil_left_iff] at hitems
    rw [rootItems_eq_touchedItems hi, rootItems_eq_touchedItems hitems, touchedItems_eq h]
    exact Item.forall₂_rearranged_self _
  · have hi' : items ds ≠ [] := fun he => hi (by rwa [he, List.forall₂_nil_right_iff] at hitems)
    rwa [rootItems_eq_items hi, rootItems_eq_items hi']

/-- Alike trees give the same error, or operations that differ at most in the order of nested selection sets. -/
theorem operation_of_alike {t u : Tree} (h : t.Alike u) (o : Options) :
    (∃ error, s.operation t o = .error error ∧ s.operation u o = .error error) ∨
    ∃ op op', s.operation t o = .ok op ∧ s.operation u o = .ok op' ∧ op'.kind = op.kind ∧ op'.name? = op.name? ∧
      List.Forall₂ Item.Rearranged op.items op'.items := by
  unfold operation
  cases s.root? o.kind with
  | none => exact .inl ⟨_, rfl, rfl⟩
  | some root =>
    dsimp only
    rw [← nesting_eq_of_alike h]
    split
    · exact .inl ⟨_, rfl, rfl⟩
    · have hitems := rearranged_rootItems (s.rearranged_contributions o.provider h root)
      refine .inr ⟨_, _, rfl, rfl, rfl, ?_, hitems⟩
      dsimp only
      rw [Item.isEmpty_eq_of_rearranged hitems]

/-- A tree that is written as JSON can be read again, whatever its roles. What was read gives the same errors, and where
there is no error an operation with the same kind and name, and with the same items in the same order at the root. At
every level below, the same things are selected with the same arguments, if perhaps in another order. -/
theorem serialize_reread (tree : Tree) (o : Options) : ∃ read, Tree.ofJson tree.toJson = .ok read ∧
    (∀ error, s.serialize tree o = .error error ↔ s.serialize read o = .error error) ∧
    ∀ text, s.serialize tree o = .ok text → ∃ op op', s.operation tree o = .ok op ∧ op.write = text ∧
      s.operation read o = .ok op' ∧ s.serialize read o = .ok op'.write ∧
      op'.kind = op.kind ∧ op'.name? = op.name? ∧ List.Forall₂ Item.Rearranged op.items op'.items := by
  refine ⟨_, Tree.ofJson_toJson tree, ?_⟩
  unfold serialize
  rcases operation_of_alike tree.alike_reread o with ⟨error, he, he'⟩ | ⟨op, op', hop, hop', h⟩
  · rw [he, he']
    exact ⟨fun _ => .rfl, fun _ htext => nomatch htext⟩
  · rw [hop, hop']
    refine ⟨fun _ => ⟨fun h => (nomatch h), fun h => (nomatch h)⟩, fun text htext => ?_⟩
    exact ⟨op, op', rfl, Except.ok.inj htext, rfl, rfl, h⟩

end Schema

end GraphSelect
