import GraphSelect.Proofs.Schema.Validity
import GraphSelect.Resolution

/-!
# Paths that resolve

A path through a selection is a list of steps: fields and branches, and at its end perhaps the name of the type.
`Schema.Resolves` says, without looking at how trees are read, which paths lead from a type to something that can be
selected: `Opens` is a step inside a path and `Ends` the last one. On the types of a valid schema they say the same as
`Schema.meaning?` (`opens_iff`, `ends_iff`), and a step is determined by its key (`Resolves.eq_of_keys`).
-/

namespace GraphSelect

/-- A step of a path through a selection: the name of the type, a field, or a branch for a type. -/
inductive Step where
  | typename
  | field (name : String)
  | branch (type : String)
deriving DecidableEq, Repr

/-- The key that a step stands under in a tree. -/
def Step.key : Step → String
  | .typename => Key.typename
  | .field name => name
  | .branch type => Key.ofType type

/-- Whether a step is a field. -/
def Step.isField : Step → Bool
  | .field _ => true
  | _ => false

/-- The step inside a path that a meaning stands for, and the type it leads to. -/
def Meaning.opens? : Meaning → Option (Step × String)
  | .composite f _ => some (.field f.name, f.type.base)
  | .branch next _ => some (.branch next, next)
  | _ => none

/-- The last step of a path that a meaning stands for. -/
def Meaning.ends? : Meaning → Option Step
  | .typename => some .typename
  | .leaf f => some (.field f.name)
  | _ => none

namespace Schema

/-- A step inside a path, and the type it leads to: a field of an object, interface or union type, or, under a key that
is no field, a branch for the type itself, an object type that implements it or a member of it. -/
inductive Opens (s : Schema) (type : String) : Step → String → Prop
  | field {name : String} {f : Field} {kind : TypeKind} : s.field? type name = some f →
      s.kind? f.type.base = some kind → kind.isComposite = true → Opens s type (.field name) f.type.base
  | branch {next : String} : s.field? type (Key.ofType next) = none →
      next = type ∨ next ∈ s.implementers type ∨ next ∈ s.members type → Opens s type (.branch next) next

theorem opens_field {s : Schema} {type name next : String} : s.Opens type (.field name) next ↔
    ∃ f kind, s.field? type name = some f ∧ s.kind? f.type.base = some kind ∧ kind.isComposite = true ∧
      f.type.base = next := by
  constructor
  · intro h
    cases h with
    | field hf hk hc => exact ⟨_, _, hf, hk, hc, rfl⟩
  · rintro ⟨f, kind, hf, hk, hc, rfl⟩
    exact .field hf hk hc

/-- A last step of a path: the name of the type, or a field of a scalar or enum type. -/
inductive Ends (s : Schema) (type : String) : Step → Prop
  | typename : Ends s type .typename
  | field {name : String} {f : Field} : s.field? type name = some f → s.kind? f.type.base = some .leaf →
      Ends s type (.field name)

/-- A path that leads from a type to something that can be selected. -/
inductive Resolves (s : Schema) : String → List Step → Prop
  | last {type : String} {st : Step} : s.Ends type st → Resolves s type [st]
  | step {type next : String} {st : Step} {p : List Step} : s.Opens type st next → Resolves s next p →
      Resolves s type (st :: p)

theorem Resolves.ne_nil {s : Schema} {type : String} {p : List Step} (h : s.Resolves type p) : p ≠ [] := by
  cases h <;> simp

theorem resolves_singleton {s : Schema} {type : String} {st : Step} : s.Resolves type [st] ↔ s.Ends type st := by
  refine ⟨fun h => ?_, .last⟩
  cases h with
  | last h => exact h
  | step _ h => exact absurd rfl h.ne_nil

theorem resolves_cons {s : Schema} {type : String} {st : Step} {p : List Step} (hp : p ≠ []) :
    s.Resolves type (st :: p) ↔ ∃ next, s.Opens type st next ∧ s.Resolves next p := by
  refine ⟨fun h => ?_, fun ⟨_, ho, h⟩ => .step ho h⟩
  cases h with
  | last _ => exact absurd rfl hp
  | step ho h => exact ⟨_, ho, h⟩

theorem isPossible_iff {s : Schema} {type next : String} :
    s.isPossible type next = true ↔ next = type ∨ next ∈ s.implementers type ∨ next ∈ s.members type := by
  simp [isPossible, or_assoc, eq_comm (a := type)]

/-! ## What keys mean in a valid schema -/

/-- An object, interface or union type: one that a selection set can be on. -/
def IsComposite (s : Schema) (type : String) : Prop := ∃ kind, s.kind? type = some kind ∧ kind.isComposite = true

theorem IsComposite.isSome {s : Schema} {type : String} (h : s.IsComposite type) : (s.kind? type).isSome := by
  obtain ⟨kind, hk, _⟩ := h
  rw [hk]
  rfl

theorem isComposite_eq_false_iff {kind : TypeKind} : kind.isComposite = false ↔ kind = .leaf := by
  cases kind <;> simp [TypeKind.isComposite]

/-- The target of a key depends on the tree under it only by whether that is empty. -/
theorem target?_congr {s : Schema} {type key : String} {body body' : Tree} (h : body.isEmpty = body'.isEmpty) :
    s.target? type key body = s.target? type key body' := by
  rw [target?, target?, h]

/-- The target of a key is the type that its step opens. -/
theorem target?_eq_of_opens? {s : Schema} {type key next next' : String} {st : Step} {body : Tree}
    (hm : (s.meaning? type key).bind Meaning.opens? = some (st, next)) (h : s.target? type key body = some next') :
    next' = next := by
  obtain ⟨m, hm, ho⟩ := Option.bind_eq_some_iff.mp hm
  unfold target? at h
  rw [hm] at h
  cases m with
  | typename => cases ho
  | leaf f => cases ho
  | composite f kind =>
    cases ho
    dsimp only at h
    split at h
    · cases h
    · exact (Option.some.inj h).symm
  | branch t kind =>
    cases ho
    exact (Option.some.inj h).symm

/-- One key means the name of the type. -/
theorem meaning?_eq_typename_iff {s : Schema} {type key : String} :
    s.meaning? type key = some .typename ↔ key = Key.typename := by
  unfold meaning?
  split
  · rename_i hkey
    simp [hkey]
  · rename_i hkey
    simp only [hkey, iff_false]
    split
    · rename_i f _
      unfold fieldMeaning?
      cases s.kind? f.type.base with
      | none => simp
      | some kind => cases h : kind.isComposite <;> simp [h]
    · intro h
      obtain ⟨next, _, h⟩ := Option.bind_eq_some_iff.mp h
      split at h
      · obtain ⟨_, _, h⟩ := Option.map_eq_some_iff.mp h
        cases h
      · cases h

namespace IsValid

variable {s : Schema} (hs : s.IsValid) {type : String}
include hs

/-- What a key can mean on a type, with everything that is known in each case. -/
theorem meaning?_cases (type key : String) :
    (key = Key.typename ∧ s.meaning? type key = some .typename) ∨
    (∃ f kind, s.field? type key = some f ∧ s.kind? f.type.base = some kind ∧ kind.isComposite = true ∧
      s.meaning? type key = some (.composite f kind)) ∨
    (∃ f, s.field? type key = some f ∧ s.kind? f.type.base = some .leaf ∧ s.meaning? type key = some (.leaf f)) ∨
    (∃ next kind, key = Key.ofType next ∧ s.field? type key = none ∧ s.isPossible type next = true ∧
      s.kind? next = some kind ∧ s.meaning? type key = some (.branch next kind)) ∨
    s.meaning? type key = none := by
  by_cases hkey : key = Key.typename
  · exact .inl ⟨hkey, by simp [meaning?, hkey]⟩
  refine .inr ?_
  cases hf : s.field? type key with
  | some f =>
    obtain ⟨kind, hk⟩ := hs.exists_kind?_of_mem_fields (mem_fields_of_field? hf).1
    have hm : s.meaning? type key = s.fieldMeaning? f := by simp [meaning?, hkey, hf]
    cases hc : kind.isComposite with
    | true => exact .inl ⟨f, kind, rfl, hk, hc, by simp [hm, fieldMeaning?, hk, hc]⟩
    | false =>
      obtain rfl := isComposite_eq_false_iff.mp hc
      exact .inr (.inl ⟨f, rfl, hk, by simp [hm, fieldMeaning?, hk, hc]⟩)
  | none =>
    refine .inr (.inr ?_)
    have hm : s.meaning? type key = s.branchMeaning? type key := by simp [meaning?, hkey, hf]
    rw [hm, branchMeaning?]
    cases ht : Key.type? key with
    | none => exact .inr rfl
    | some next =>
      have hn := Key.ofType_of_type? ht
      cases hp : s.isPossible type next with
      | false => exact .inr (by simp [hp])
      | true =>
        cases hk : s.kind? next with
        | some kind => exact .inl ⟨next, kind, hn, rfl, hp, hk, by simp [hp, hk]⟩
        | none => exact .inr (by simp [hp, hk])

/-- A key stands for a field of an object, interface or union type exactly if the type has such a field. -/
theorem meaning?_eq_composite_iff {key : String} {f : Field} {kind : TypeKind} :
    s.meaning? type key = some (.composite f kind) ↔
      s.field? type key = some f ∧ s.kind? f.type.base = some kind ∧ kind.isComposite = true := by
  constructor
  · intro h
    rcases hs.meaning?_cases type key with ⟨_, hm⟩ | ⟨f', kind', hf, hk, hc, hm⟩ | ⟨f', _, _, hm⟩ |
      ⟨next, kind', _, _, _, _, hm⟩ | hm <;> rw [hm] at h <;> cases h
    exact ⟨hf, hk, hc⟩
  · rintro ⟨hf, hk, hc⟩
    obtain ⟨hm, rfl⟩ := mem_fields_of_field? hf
    simp [meaning?, hs.ne_typename_of_mem_fields hm, hf, fieldMeaning?, hk, hc]

/-- A key stands for a field of a scalar or enum type exactly if the type has such a field. -/
theorem meaning?_eq_leaf_iff {key : String} {f : Field} :
    s.meaning? type key = some (.leaf f) ↔ s.field? type key = some f ∧ s.kind? f.type.base = some .leaf := by
  constructor
  · intro h
    rcases hs.meaning?_cases type key with ⟨_, hm⟩ | ⟨f', _, _, _, _, hm⟩ | ⟨f', hf, hk, hm⟩ |
      ⟨next, kind', _, _, _, _, hm⟩ | hm <;> rw [hm] at h <;> cases h
    exact ⟨hf, hk⟩
  · rintro ⟨hf, hk⟩
    obtain ⟨hm, rfl⟩ := mem_fields_of_field? hf
    simp [meaning?, hs.ne_typename_of_mem_fields hm, hf, fieldMeaning?, hk, TypeKind.isComposite]

/-- A key that stands for a branch carries the kind of the type that the branch is for. -/
theorem kind?_of_meaning?_eq_branch {key next : String} {kind : TypeKind}
    (h : s.meaning? type key = some (.branch next kind)) : s.kind? next = some kind := by
  rcases hs.meaning?_cases type key with ⟨_, hm⟩ | ⟨f, kind', _, _, _, hm⟩ | ⟨f, _, _, hm⟩ |
    ⟨next', kind', _, _, _, hk, hm⟩ | hm <;> rw [hm] at h <;> cases h
  exact hk

/-- A step leads from a type with a kind to a type with a kind. -/
theorem kind?_of_opens (ht : (s.kind? type).isSome) {st : Step} {next : String} (h : s.Opens type st next) :
    (s.kind? next).isSome := by
  cases h with
  | field _ hk _ => exact hk ▸ rfl
  | branch _ hp =>
    rcases hp with rfl | hp | hp
    · exact ht
    · exact hs.kind?_implementer hp ▸ rfl
    · exact hs.kind?_member hp ▸ rfl

/-- The steps inside paths that stand under a key are those of its meaning. -/
theorem opens_iff (ht : (s.kind? type).isSome) {key : String} {st : Step} {next : String} :
    st.key = key ∧ s.Opens type st next ↔ (s.meaning? type key).bind Meaning.opens? = some (st, next) := by
  constructor
  · rintro ⟨rfl, h⟩
    have hnext := hs.kind?_of_opens ht h
    cases h with
    | @field name f kind hf hk hc =>
      obtain ⟨hm, rfl⟩ := mem_fields_of_field? hf
      simp [meaning?, Step.key, hs.ne_typename_of_mem_fields hm, hf, fieldMeaning?, hk, hc, Meaning.opens?]
    | branch hf hp =>
      obtain ⟨kind, hk⟩ := Option.isSome_iff_exists.mp hnext
      simp [meaning?, Step.key, Key.ofType_ne_typename, hf, branchMeaning?, hs.type?_ofType hk,
        isPossible_iff.mpr hp, hk, Meaning.opens?]
  · rcases hs.meaning?_cases type key with ⟨_, hm⟩ | ⟨f, kind, hf, hk, hc, hm⟩ | ⟨f, _, _, hm⟩ |
      ⟨next', kind, hkey, hf, hp, hk, hm⟩ | hm <;> rw [hm] <;> intro h <;> cases h
    · exact ⟨(mem_fields_of_field? hf).2, .field ((mem_fields_of_field? hf).2 ▸ hf) hk hc⟩
    · exact ⟨hkey.symm, .branch (hkey ▸ hf) (isPossible_iff.mp hp)⟩

/-- What a key means inside a path is a step that opens a type. -/
theorem opens_of_meaning? (ht : (s.kind? type).isSome) {key next : String} {m : Meaning} {st : Step}
    (hm : s.meaning? type key = some m) (ho : m.opens? = some (st, next)) :
    st.key = key ∧ s.Opens type st next :=
  (hs.opens_iff ht).mpr (by rw [hm]; exact ho)

/-- What is entered under the key of a step is the type that the step leads to; a field is not entered if the tree under
it is empty. -/
theorem target?_key (ht : (s.kind? type).isSome) {st : Step} {next : String} (ho : s.Opens type st next) (body : Tree) :
    s.target? type st.key body = if st.isField && body.isEmpty then none else some next := by
  obtain ⟨m, hm, he⟩ := Option.bind_eq_some_iff.mp ((hs.opens_iff ht).mp ⟨rfl, ho⟩)
  cases m with
  | typename => cases he
  | leaf f => cases he
  | composite f kind =>
    cases he
    rw [target?, hm]
    rfl
  | branch next kind =>
    cases he
    rw [target?, hm]
    rfl

/-- What is not entered under the key of a step is an empty tree. -/
theorem eq_empty_of_target? (ht : (s.kind? type).isSome) {st : Step} {next : String} (ho : s.Opens type st next)
    {body : Tree} (h : s.target? type st.key body = none) : body = .empty := by
  rw [hs.target?_key ht ho] at h
  split at h
  · rename_i hbody
    exact Tree.isEmpty_iff.mp (Bool.and_eq_true_iff.mp hbody).2
  · cases h

theorem eq_of_target? (ht : (s.kind? type).isSome) {st : Step} {next next' : String} (ho : s.Opens type st next)
    {body : Tree} (h : s.target? type st.key body = some next') : next' = next :=
  target?_eq_of_opens? ((hs.opens_iff ht).mp ⟨rfl, ho⟩) h

/-- The keys that are entered: fields of object, interface and union types with trees that are not empty, and
branches. -/
theorem target?_eq_some_iff (ht : (s.kind? type).isSome) {key next : String} {body : Tree} :
    s.target? type key body = some next ↔
      (body ≠ .empty ∧ s.Opens type (.field key) next) ∨
        (key = Key.ofType next ∧ s.Opens type (.branch next) next) := by
  constructor
  · intro h
    cases hm : s.meaning? type key with
    | none => simp [target?, hm] at h
    | some m =>
      cases m with
      | typename => simp [target?, hm] at h
      | leaf f => simp [target?, hm] at h
      | composite f kind =>
        obtain ⟨rfl, ho⟩ := hs.opens_of_meaning? ht hm rfl
        obtain rfl := hs.eq_of_target? ht ho h
        refine .inl ⟨?_, ho⟩
        rintro rfl
        rw [hs.target?_key ht ho] at h
        cases h
      | branch next' kind =>
        obtain ⟨rfl, ho⟩ := hs.opens_of_meaning? ht hm rfl
        obtain rfl := hs.eq_of_target? ht ho h
        exact .inr ⟨rfl, ho⟩
  · rintro (⟨hbody, ho⟩ | ⟨rfl, ho⟩)
    · exact (hs.target?_key ht ho body).trans (if_neg fun he => hbody (Tree.isEmpty_iff.mp he))
    · exact hs.target?_key ht ho body

/-- What is entered under a key is a type with a kind. -/
theorem kind?_of_target? (ht : (s.kind? type).isSome) {key next : String} {body : Tree}
    (h : s.target? type key body = some next) : (s.kind? next).isSome := by
  rcases (hs.target?_eq_some_iff ht).mp h with ⟨_, ho⟩ | ⟨_, ho⟩
  · exact hs.kind?_of_opens ht ho
  · exact hs.kind?_of_opens ht ho

/-- The last steps of paths that stand under a key are those of its meaning. -/
theorem ends_iff {key : String} {st : Step} :
    st.key = key ∧ s.Ends type st ↔ (s.meaning? type key).bind Meaning.ends? = some st := by
  constructor
  · rintro ⟨rfl, h⟩
    cases h with
    | typename => rfl
    | @field name f hf hk =>
      obtain ⟨hm, rfl⟩ := mem_fields_of_field? hf
      simp [meaning?, Step.key, hs.ne_typename_of_mem_fields hm, hf, fieldMeaning?, hk, TypeKind.isComposite,
        Meaning.ends?]
  · rcases hs.meaning?_cases type key with ⟨hkey, hm⟩ | ⟨f, kind, _, _, _, hm⟩ | ⟨f, hf, hk, hm⟩ |
      ⟨next', kind, _, _, _, _, hm⟩ | hm <;> rw [hm] <;> intro h <;> cases h
    · exact ⟨hkey.symm, .typename⟩
    · exact ⟨(mem_fields_of_field? hf).2, .field ((mem_fields_of_field? hf).2 ▸ hf) hk⟩

/-- A path that resolves is determined by its keys. -/
theorem eq_of_keys : ∀ {p q : List Step} {type : String}, (s.kind? type).isSome → s.Resolves type p →
    s.Resolves type q → p.map Step.key = q.map Step.key → p = q
  | [], _, _, _, hp, _, _ => absurd rfl hp.ne_nil
  | _, [], _, _, _, hq, _ => absurd rfl hq.ne_nil
  | [st], [st'], _, _, hp, hq, he => by
    have hst := hs.ends_iff.mp ⟨(List.cons.inj he).1, resolves_singleton.mp hp⟩
    have hst' := hs.ends_iff.mp ⟨rfl, resolves_singleton.mp hq⟩
    rw [Option.some.inj (hst.symm.trans hst')]
  | [_], _ :: _ :: _, _, _, _, _, he => by simp at he
  | _ :: _ :: _, [_], _, _, _, _, he => by simp at he
  | st :: a :: p, st' :: b :: q, type, ht, hp, hq, he => by
    have hkey := (List.cons.inj he).1
    obtain ⟨next, ho, hp⟩ := (resolves_cons (by simp)).mp hp
    obtain ⟨next', ho', hq⟩ := (resolves_cons (by simp)).mp hq
    have hst := (hs.opens_iff ht).mp ⟨hkey, ho⟩
    have hst' := (hs.opens_iff ht).mp ⟨rfl, ho'⟩
    obtain ⟨rfl, rfl⟩ := Prod.mk.inj (Option.some.inj (hst.symm.trans hst'))
    rw [eq_of_keys (hs.kind?_of_opens ht ho) hp hq (List.cons.inj he).2]

end IsValid

end Schema

end GraphSelect
