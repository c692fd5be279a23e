import GraphSelect.Proofs.Generation.Leaves

/-!
# Trails through generated trees

A `Trail` is a sequence of steps from a root with the types that it met before the last one, like a `Walk`, but with the
clashing keys: of a field and a branch under one key, a generated tree has the branch (`Grows`). So every tree inside a
generated one stands at the end of a trail. It is the expansion of the last type of the trail or, if the type was met
before, its own fields (`grown`), and trees stand nowhere else (`subtree?_expand_iff`).
-/

namespace GraphSelect

namespace Schema

/-- A step that has its entry in the generated tree: under a key that clashes, it is the branch. -/
def Grows (s : Schema) (type : String) (st : Step) (next : String) : Prop :=
  s.Leads type st next ∧ (s.Clashes type st.key → ∃ t, st = .branch t)

/-- A sequence of steps through a generated tree: the steps, the types that it met before the last one, and the last
one. -/
inductive Trail (s : Schema) (root : String) : List Step → List String → String → Prop
  | start : Trail s root [] [] root
  | step {p : List Step} {met : List String} {type next : String} {st : Step} : Trail s root p met type →
      s.Grows type st next → Trail s root (p ++ [st]) (met ++ [type]) next

/-- The tree for a type behind the types that were met: in full if it is a new one, and its own fields if it is not. -/
def grown (s : Schema) (withTypename : Bool) (met : List String) (type : String) : Tree :=
  if type ∈ met then s.shallow type else s.expand withTypename (type :: met.reverse) type

variable {s : Schema}

/-! ## Single steps -/

/-- Under the key of a step of the type graph a generated tree has a step. -/
theorem Leads.exists_grows {type next : String} {st : Step} (h : s.Leads type st next) :
    ∃ st' next', s.Grows type st' next' ∧ st'.key = st.key := by
  by_cases hc : s.Clashes type st.key
  · obtain ⟨_, t, ht, hkey⟩ := hc
    exact ⟨.branch t, t, ⟨.branch ht, fun _ => ⟨t, rfl⟩⟩, hkey.symm⟩
  · exact ⟨st, next, ⟨h, fun hc' => absurd hc' hc⟩, rfl⟩

/-- An expansion holds under the key of a step what the type that the step leads to gives. -/
theorem Grows.get?_expand (hs : s.IsValid) {type next : String} {st : Step} (h : s.Grows type st next)
    (withTypename : Bool) (visited : List String) :
    (s.expand withTypename visited type).get? st.key = s.selectionAt withTypename visited next := by
  obtain ⟨hl, hbranch⟩ := h
  cases hl with
  | field hf =>
    refine hs.get?_expand_field withTypename visited hf fun hc => ?_
    obtain ⟨t, ht⟩ := hbranch hc
    cases ht
  | branch ht => exact hs.get?_expand_branch withTypename visited ht

/-- A key of an expansion is the name of the type or stands under a step, with what the step leads to. -/
theorem IsValid.exists_grows_of_get?_expand (hs : s.IsValid) {withTypename : Bool} {visited : List String}
    {type key : String} {sel : Selection} (h : (s.expand withTypename visited type).get? key = some sel) :
    sel = .leaf false ∨ ∃ st next kind, st.key = key ∧ s.Grows type st next ∧ s.kind? next = some kind ∧
      s.selectionAt withTypename visited next = some sel := by
  rcases hs.cases_of_get?_expand h with ⟨_, hsel, _⟩ | ⟨st, next, hl, rfl⟩
  · exact .inl hsel
  · obtain ⟨st', next', hg, hkey⟩ := hl.exists_grows
    obtain ⟨kind, hk⟩ := hg.1.exists_kind?_next hs
    rw [← hkey, hg.get?_expand hs] at h
    exact .inr ⟨st', next', kind, hkey, hg, hk, h⟩

/-- What an expansion holds for an object, interface or union type is the tree that grows there. -/
theorem body?_selectionAt (withTypename : Bool) (met : List String) (type : String) {next : String} {kind : TypeKind}
    (hk : s.kind? next = some kind) :
    (s.selectionAt withTypename (type :: met.reverse) next).bind Selection.body? =
      if kind.isComposite then some (s.grown withTypename (met ++ [type]) next) else none := by
  have hmet : next ∈ met ++ [type] ↔ next ∈ type :: met.reverse := by simp [or_comm]
  have hreverse : (met ++ [type]).reverse = type :: met.reverse := by simp
  unfold grown
  rw [hreverse]
  rcases selectionAt_cases withTypename (type :: met.reverse) hk with ⟨rfl, hsel⟩ | ⟨hc, hm, hsel⟩ | ⟨hc, hm, hsel⟩
  · rw [hsel]
    rfl
  · rw [hsel, if_pos hc, if_pos (hmet.mpr hm)]
    rfl
  · rw [hsel, if_pos hc, if_neg (mt hmet.mp hm)]
    rfl

/-! ## Trails -/

theorem Trail.length_eq {root last : String} {p : List Step} {met : List String} (h : s.Trail root p met last) :
    met.length = p.length := by
  induction h with
  | start => rfl
  | step _ _ ih => simp [ih]

/-- The types that a trail met before the last one are object, interface and union types. -/
theorem Trail.isComposite_of_mem {root last : String} {p : List Step} {met : List String}
    (h : s.Trail root p met last) : ∀ t ∈ met, s.IsComposite t := by
  induction h with
  | start => simp
  | step _ hg ih =>
    intro t ht
    rcases List.mem_append.mp ht with ht | ht
    · exact ih t ht
    · obtain rfl := List.mem_singleton.mp ht
      exact hg.1.isComposite

section Trails

variable (hs : s.IsValid) (withTypename : Bool) {root : String}
include hs

/-- At the end of a trail stands the tree that grows there. -/
theorem Trail.subtree?_expand {p : List Step} {met : List String} {last : String} (h : s.Trail root p met last) :
    met.Nodup → s.IsComposite last →
    (s.expand withTypename [root] root).subtree? (p.map Step.key) = some (s.grown withTypename met last) := by
  induction h with
  | start => exact fun _ _ => rfl
  | @step p met type next st _ hg ih =>
    intro hd ⟨kind, hk, hcomposite⟩
    obtain ⟨hd', -, hnew⟩ := List.nodup_append.mp hd
    have htype : type ∉ met := fun hm => hnew type hm type (List.mem_singleton_self _) rfl
    have hgrown : s.grown withTypename met type = s.expand withTypename (type :: met.reverse) type := if_neg htype
    rw [List.map_append, Tree.subtree?_append, ih hd' hg.1.isComposite, Option.bind_some, List.map_singleton,
      Tree.subtree?_cons, hgrown, hg.get?_expand hs, body?_selectionAt withTypename met type hk, if_pos hcomposite,
      Option.bind_some]
    rfl

/-- Where a path from the end of a trail leads to a tree, a longer trail does. -/
theorem Trail.exists_of_subtree? : ∀ {path : List String} {p : List Step} {met : List String} {type : String}
    {body : Tree}, s.Trail root p met type → met.Nodup → s.IsComposite type →
    (s.grown withTypename met type).subtree? path = some body →
    ∃ q met' last, path = q.map Step.key ∧ s.Trail root (p ++ q) met' last ∧ met'.Nodup ∧ s.IsComposite last ∧
      body = s.grown withTypename met' last
  | [], p, met, type, body, htrail, hd, htype, h =>
    ⟨[], met, type, rfl, by rwa [List.append_nil], hd, htype, (Option.some.inj h).symm⟩
  | key :: path, p, met, type, body, htrail, hd, htype, h => by
    rw [Tree.subtree?_cons] at h
    obtain ⟨next, hnext, hpath⟩ := Option.bind_eq_some_iff.mp h
    obtain ⟨sel, hget, hbody⟩ := Option.bind_eq_some_iff.mp hnext
    -- A type that was met before holds leaves only, so the path goes on from a new one.
    have hnew : type ∉ met := by
      intro hm
      rw [grown, if_pos hm, get?_shallow] at hget
      split at hget
      · cases hget
        cases hbody
      · cases hget
    rw [grown, if_neg hnew] at hget
    rcases hs.exists_grows_of_get?_expand hget with rfl | ⟨st, next', kind, rfl, hg, hk, hsel⟩
    · cases hbody
    · have hgrown := body?_selectionAt withTypename met type hk
      rw [hsel, Option.bind_some, hbody] at hgrown
      split at hgrown
      · rename_i hcomposite
        obtain rfl := Option.some.inj hgrown
        have hd' : (met ++ [type]).Nodup := by
          simpa [List.nodup_append, hd] using fun a ha (he : a = type) => hnew (he ▸ ha)
        obtain ⟨q, met', last, rfl, htrail', h'⟩ :=
          Trail.exists_of_subtree? (htrail.step hg) hd' ⟨kind, hk, hcomposite⟩ hpath
        exact ⟨st :: q, met', last, rfl, by rwa [List.append_assoc] at htrail', h'⟩
      · cases hgrown

/-- The trees inside the expansion of an object, interface or union type are those that grow at the ends of trails on
which at most the last type was met before. -/
theorem subtree?_expand_iff (hroot : s.IsComposite root) {path : List String} {body : Tree} :
    (s.expand withTypename [root] root).subtree? path = some body ↔
      ∃ p met last, path = p.map Step.key ∧ s.Trail root p met last ∧ met.Nodup ∧ s.IsComposite last ∧
        body = s.grown withTypename met last := by
  constructor
  · intro h
    exact Trail.exists_of_subtree? hs withTypename .start List.nodup_nil hroot (by simpa [grown] using h)
  · rintro ⟨p, met, last, rfl, htrail, hd, hlast, rfl⟩
    exact htrail.subtree?_expand hs withTypename hd hlast

end Trails

end Schema

end GraphSelect
