import GraphSelect.Proofs.Generation.Walk

/-!
# Leaves of generated trees

The other direction of what `Walk` says about generated trees: every leaf of a generated tree stands at the end of a
walk, under the name of the last type or one of its fields (`exists_walk_of_mem_leaves`). A field that is no last step
of a path, as it has an object, interface or union type, is a leaf only where its own parent was met before.
-/

namespace GraphSelect

namespace Schema

variable {s : Schema}

/-- One of the branch keys along a path is a field at the same time. The last key of a path to a leaf is no branch. -/
def ClashesAlong (s : Schema) (root : String) (path : List String) : Prop :=
  ∃ p met last key rest, path = p.map Step.key ++ key :: rest ∧ rest ≠ [] ∧ s.Walk root p met last ∧ s.Clashes last key

/-- The steps that a type offers to leaves: its fields, and its name if it is an interface or union. -/
def Offers (s : Schema) (type : String) (st : Step) : Prop :=
  (st = .typename ∧ (s.kind? type).any TypeKind.isAbstract = true) ∨ ∃ f ∈ s.fields type, st = .field f.name

theorem Offers.isComposite {type : String} {st : Step} (h : s.Offers type st) : s.IsComposite type := by
  rcases h with ⟨_, ha⟩ | ⟨f, hf, _⟩
  · obtain ⟨kind, hk, hkind⟩ := (Option.any_eq_true _ _).mp ha
    exact ⟨kind, hk, by cases kind <;> first | rfl | cases hkind⟩
  · exact isComposite_of_mem_fields hf

/-- A shallow type holds nothing but leaves for its fields. -/
theorem exists_of_at?_shallow {name : String} {path : List String} {sel : Selection}
    (h : (s.shallow name).at? path = some sel) : ∃ f ∈ s.fields name, path = [f.name] := by
  cases path with
  | nil => cases h
  | cons key rest =>
    rw [at?_shallow] at h
    split at h
    · rename_i hkey
      obtain ⟨rfl, hkey⟩ := hkey
      obtain ⟨f, hf, rfl⟩ := List.mem_map.mp hkey
      exact ⟨f, hf, rfl⟩
    · cases h

section Leaves

variable (hs : s.IsValid)
include hs

/-- A key of an expansion is the name of the type or stands under a step of the type graph. -/
theorem IsValid.cases_of_get?_expand {withTypename : Bool} {visited : List String} {type key : String} {sel : Selection}
    (h : (s.expand withTypename visited type).get? key = some sel) :
    (key = Key.typename ∧ sel = .leaf false ∧ (s.kind? type).any TypeKind.isAbstract = true) ∨
      ∃ st next, s.Leads type st next ∧ st.key = key := by
  have hkey : key ∈ s.expandedKeys withTypename type := by
    rw [← hs.keys_expand withTypename visited]
    by_contra hno
    rw [Tree.get?_eq_none_iff.mpr hno] at h
    cases h
  rcases mem_expandedKeys.mp hkey with ⟨rfl, hw, ha⟩ | ⟨f, hf, hname⟩ | ⟨t, ht, hname⟩
  · obtain ⟨kind, hk, hkind⟩ := (Option.any_eq_true _ _).mp ha
    rw [hs.get?_expand_typename visited hw hk hkind] at h
    exact .inl ⟨rfl, (Option.some.inj h).symm, ha⟩
  · exact .inr ⟨_, _, .field hf, hname⟩
  · exact .inr ⟨_, _, .branch ht, hname⟩

/-- A leaf of an expansion is the name of the type or a field of a scalar or enum type. -/
theorem IsValid.exists_ends_of_get?_expand {withTypename : Bool} {visited : List String} {type key : String} {b : Bool}
    (h : (s.expand withTypename visited type).get? key = some (.leaf b)) :
    ∃ st, st.key = key ∧ s.Offers type st ∧ s.Ends type st := by
  -- Under the key of a branch stands a branch, be it a field at the same time or not.
  have hbranch : ∀ t ∈ s.branchTypes type, key ≠ Key.ofType t := by
    rintro t ht rfl
    rw [hs.get?_expand_branch withTypename visited ht] at h
    rcases selectionAt_cases withTypename visited (hs.kind?_branchType ht) with ⟨hk, _⟩ | ⟨_, _, hsel⟩ | ⟨_, _, hsel⟩
    · cases hk
    · rw [hsel] at h
      cases h
    · rw [hsel] at h
      cases h
  rcases hs.cases_of_get?_expand h with ⟨rfl, _, ha⟩ | ⟨st, next, hl, rfl⟩
  · exact ⟨.typename, rfl, .inl ⟨rfl, ha⟩, .typename⟩
  · have hc : ¬ s.Clashes type st.key := fun ⟨_, t, ht, he⟩ => hbranch t ht he
    obtain ⟨kind, hk⟩ := hl.exists_kind?_next hs
    rw [hl.get?_expand hs hc] at h
    cases hl with
    | @field f hf =>
      rcases selectionAt_cases withTypename visited hk with ⟨rfl, _⟩ | ⟨_, _, hsel⟩ | ⟨_, _, hsel⟩
      · exact ⟨.field f.name, rfl, .inr ⟨f, hf, rfl⟩, .field (hs.field?_of_mem_fields hf) hk⟩
      · rw [hsel] at h
        cases h
      · rw [hsel] at h
        cases h
    | branch ht => exact absurd rfl (hbranch _ ht)

variable {root : String} (withTypename : Bool)

/-- Where a path from the end of a walk leads to a leaf, a longer walk does, unless a key clashes on the way. -/
theorem Walk.exists_of_at? : ∀ {path : List String} {p : List Step} {met : List String} {type : String} {b : Bool},
    s.Walk root p met type → ¬ s.ClashesAlong root (p.map Step.key ++ path) →
    (s.expand withTypename (type :: met.reverse) type).at? path = some (.leaf b) →
    ∃ q met' last st, path = (q ++ [st]).map Step.key ∧ s.Walk root (p ++ q) met' last ∧ s.Offers last st ∧
      (s.Ends last st ∨ last ∈ met')
  | [], _, _, _, _, _, _, h => by cases h
  | [key], p, met, type, b, hwalk, _, h => by
    obtain ⟨st, rfl, hoffers, hends⟩ := hs.exists_ends_of_get?_expand h
    exact ⟨[], met, type, st, rfl, by rwa [List.append_nil], hoffers, .inl hends⟩
  | key :: k :: path, p, met, type, b, hwalk, hclear, h => by
    rw [Tree.at?_cons] at h
    obtain ⟨sel, hget, hat⟩ := Option.bind_eq_some_iff.mp h
    rcases hs.cases_of_get?_expand hget with ⟨_, rfl, _⟩ | ⟨st, next, hl, rfl⟩
    · cases hat
    · have hc : ¬ s.Clashes type st.key := fun hc =>
        hclear ⟨p, met, type, st.key, k :: path, rfl, List.cons_ne_nil _ _, hwalk, hc⟩
      have hnext := hwalk.step hl hc
      obtain ⟨kind, hk⟩ := hl.exists_kind?_next hs
      rw [hl.get?_expand hs hc] at hget
      rcases selectionAt_cases withTypename (type :: met.reverse) hk with ⟨_, hsel⟩ | ⟨_, hmem, hsel⟩ | ⟨_, _, hsel⟩ <;>
        obtain rfl := Option.some.inj (hsel.symm.trans hget)
      · cases hat
      · obtain ⟨f, hf, hpath⟩ := exists_of_at?_shallow hat
        refine ⟨[st], met ++ [type], next, .field f.name, ?_, hnext, .inr ⟨f, hf, rfl⟩, .inr ?_⟩
        · rw [hpath]
          rfl
        · simpa [or_comm] using hmem
      · have hreverse : next :: type :: met.reverse = next :: (met ++ [type]).reverse := by
          rw [List.reverse_append]
          rfl
        rw [hreverse] at hat
        have hclear' : ¬ s.ClashesAlong root ((p ++ [st]).map Step.key ++ k :: path) := by
          rwa [List.map_append, List.append_assoc]
        obtain ⟨q, met', last, st', hpath, hwalk', h'⟩ := Walk.exists_of_at? hnext hclear' hat
        refine ⟨st :: q, met', last, st', ?_, ?_, h'⟩
        · rw [hpath]
          rfl
        · rwa [List.append_assoc] at hwalk'

/-- Every leaf of a generated tree stands at the end of a walk, unless a key clashes on the way to it: it is the name of
the last type or one of its fields, and if no path can end with it, then the last type was met before. -/
theorem exists_walk_of_mem_leaves {path : List String} {b : Bool}
    (h : (path, b) ∈ (s.expand withTypename [root] root).leaves) (hclear : ¬ s.ClashesAlong root path) :
    ∃ p met last st, path = (p ++ [st]).map Step.key ∧ s.Walk root p met last ∧ s.Offers last st ∧
      (s.Ends last st ∨ last ∈ met) := by
  have hat := (distinct_expand withTypename [root] root).mem_leaves_iff.mp h
  exact Walk.exists_of_at? hs withTypename .start hclear hat

end Leaves

end Schema

end GraphSelect
