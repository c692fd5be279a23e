import GraphSelect.Proofs.Document.Names
import GraphSelect.Schema.Parse
import GraphSelect.Tree.Key

/-!
# Valid schemas

A schema is valid if it is what some text defines. What the other modules use of that is stated here:

* putting a document together keeps the names of types, of the fields of a type and of the members of a union apart
  (`typeNames_nodup`, `fieldNames_nodup`, `members_nodup`), and every type, field and argument has a GraphQL name
  (`isNamed_of_mem_types`);
* a valid schema has no problem, so roots, members and implementers are object types (`kind?_root`, `kind?_member`,
  `kind?_implementer`) and only an interface is implemented (`kind?_implemented`), the type of every field has a kind
  (`exists_kind?_of_mem_fields`), and no field has a reserved name (`ne_typename_of_mem_fields`).
-/

namespace GraphSelect

/-! ## Putting types together -/

/-- If names are apart, looking for the name of an item finds the item. -/
theorem find?_name_eq_some {α : Type} {name : α → String} {x : α} :
    ∀ {xs : List α}, (xs.map name).Nodup → x ∈ xs → xs.find? (name · = name x) = some x
  | y :: ys, hn, hx => by
    obtain ⟨hy, hys⟩ := List.nodup_cons.mp hn
    rcases List.mem_cons.mp hx with rfl | hx
    · simp
    · have hne : name y ≠ name x := fun he => hy (he ▸ List.mem_map_of_mem hx)
      simpa [hne] using find?_name_eq_some hys hx

theorem mem_of_mem_firsts {α : Type} {name : α → String} {x : α} :
    ∀ {seen : List String} {xs : List α}, x ∈ (firsts name seen xs).1 → x ∈ xs
  | _, [], h => h
  | seen, y :: ys, h => by
    simp only [firsts] at h
    split at h
    · exact List.mem_cons_of_mem _ (mem_of_mem_firsts h)
    · rcases List.mem_cons.mp h with rfl | h
      · exact List.mem_cons_self
      · exact List.mem_cons_of_mem _ (mem_of_mem_firsts h)

namespace Document

theorem name_extendType (t e : TypeDefinition) : (extendType t e).1.name = t.name := by
  unfold extendType
  split <;> rfl

theorem name_extendAll : ∀ (t : TypeDefinition) (es : List TypeDefinition), (extendAll t es).1.name = t.name
  | _, [] => rfl
  | t, e :: es => (name_extendAll _ es).trans (name_extendType t e)

theorem name_keepFirstParts (t : TypeDefinition) : (keepFirstParts t).1.name = t.name := by
  unfold keepFirstParts
  split <;> rfl

/-- A type keeps its name when it is finished. -/
theorem name_finishType (extensions : List TypeDefinition) (t : TypeDefinition) :
    (finishType extensions t).1.name = t.name :=
  (name_keepFirstParts _).trans (name_extendAll _ _)

/-- The fields that a finished type keeps have different names. -/
theorem fieldNames_finishType_nodup (extensions : List TypeDefinition) (t : TypeDefinition) :
    ((finishType extensions t).1.body.fields.map Field.name).Nodup := by
  simp only [finishType, keepFirstParts]
  split
  · rename_i hb
    simp [hb, TypeBody.fields]
  · exact (firsts_distinct Field.name [] _).2
  · exact (firsts_distinct Field.name [] _).2
  all_goals simp [TypeBody.fields]

/-- The members that a finished type keeps have different names. -/
theorem memberNames_finishType_nodup (extensions : List TypeDefinition) (t : TypeDefinition) :
    ((finishType extensions t).1.body.members.map Mention.name).Nodup := by
  simp only [finishType, keepFirstParts]
  split
  · rename_i hb
    simp [hb, TypeBody.members]
  · exact List.nodup_nil
  · exact List.nodup_nil
  · exact (firsts_distinct Mention.name [] _).2
  · exact List.nodup_nil
  · exact List.nodup_nil

/-! ### Names -/

theorem isNamed_appendBody {b b' : TypeBody} (h : b.isNamed = true) (h' : b'.isNamed = true) :
    (appendBody b b').isNamed = true := by
  cases b <;> cases b' <;>
    simp only [appendBody, TypeBody.isNamed, List.all_append, Bool.and_eq_true] at h h' ⊢ <;>
    first | exact ⟨h, h'⟩ | exact h

theorem isNamed_extendType {t e : TypeDefinition} (ht : t.isNamed = true) (he : e.isNamed = true) :
    (extendType t e).1.isNamed = true := by
  unfold extendType
  split
  · obtain ⟨hname, hbody⟩ := Bool.and_eq_true_iff.mp ht
    exact Bool.and_eq_true_iff.mpr ⟨hname, isNamed_appendBody hbody (Bool.and_eq_true_iff.mp he).2⟩
  · exact ht

theorem isNamed_extendAll : ∀ {es : List TypeDefinition} {t : TypeDefinition}, t.isNamed = true →
    (∀ e ∈ es, e.isNamed = true) → (extendAll t es).1.isNamed = true
  | [], _, ht, _ => ht
  | e :: es, t, ht, hes => by
    obtain ⟨he, hes⟩ := List.forall_mem_cons.mp hes
    show (extendAll (extendType t e).1 es).1.isNamed = true
    exact isNamed_extendAll (isNamed_extendType ht he) hes

theorem all_firsts {α : Type} {name : α → String} {p : α → Bool} {seen : List String} {xs : List α}
    (h : xs.all p = true) : (firsts name seen xs).1.all p = true := by
  rw [List.all_eq_true] at h ⊢
  exact fun x hx => h x (mem_of_mem_firsts hx)

theorem isNamed_keepFirstParts {t : TypeDefinition} (ht : t.isNamed = true) : (keepFirstParts t).1.isNamed = true := by
  obtain ⟨hname, hbody⟩ := Bool.and_eq_true_iff.mp ht
  unfold keepFirstParts
  split <;> rename_i hb <;> rw [hb] at hbody
  · exact ht
  · exact Bool.and_eq_true_iff.mpr ⟨hname, all_firsts hbody⟩
  · exact Bool.and_eq_true_iff.mpr ⟨hname, all_firsts hbody⟩
  · exact Bool.and_eq_true_iff.mpr ⟨hname, rfl⟩
  · exact Bool.and_eq_true_iff.mpr ⟨hname, all_firsts hbody⟩
  · exact Bool.and_eq_true_iff.mpr ⟨hname, all_firsts hbody⟩

/-- A type has GraphQL names when it is finished, if it and its extensions have. -/
theorem isNamed_finishType {extensions : List TypeDefinition} {t : TypeDefinition} (ht : t.isNamed = true)
    (hes : ∀ e ∈ extensions, e.isNamed = true) : (finishType extensions t).1.isNamed = true :=
  isNamed_keepFirstParts (isNamed_extendAll ht fun e he => hes e (List.mem_filter.mp he).1)

/-! ### Types of a document -/

theorem typeNames_mergeTypes_nodup (document : Document) : (document.mergeTypes.1.map (·.name)).Nodup := by
  have h := (firsts_distinct TypeDefinition.name [] (BuiltIn.types ++ document.typeDefinitions)).2
  simp only [mergeTypes, List.map_map]
  refine (congrArg List.Nodup (List.map_congr_left fun t _ => ?_)).mpr h
  exact name_finishType _ t

/-- The types of a document are its finished definitions and the built-in ones. -/
theorem exists_of_mem_mergeTypes {document : Document} {t : TypeDefinition} (h : t ∈ document.mergeTypes.1) :
    ∃ extensions t', t = (finishType extensions t').1 ∧ (t' ∈ BuiltIn.types ∨ Definition.type t' ∈ document) ∧
      ∀ e ∈ extensions, Definition.typeExtension e ∈ document := by
  simp only [mergeTypes, List.map_map, List.mem_map] at h
  obtain ⟨t', ht', rfl⟩ := h
  refine ⟨_, t', rfl, ?_, fun e he => ?_⟩
  · rcases List.mem_append.mp (mem_of_mem_firsts ht') with h | h
    · exact Or.inl h
    · obtain ⟨d, hd, he⟩ := List.mem_filterMap.mp h
      cases d <;> cases he
      exact Or.inr hd
  · obtain ⟨d, hd, he⟩ := List.mem_filterMap.mp he
    cases d <;> cases he
    exact hd

theorem types_mergeRoots (document : Document) (s : Schema) : (document.mergeRoots s).1.types = s.types := by
  unfold mergeRoots
  split
  · rfl
  · split <;> rfl

theorem types_merge (document : Document) : document.merge.1.types = document.mergeTypes.1 :=
  types_mergeRoots _ _

end Document

namespace Schema

/-! ## Look-ups -/

section Lookup

variable {s : Schema}

theorem type?_eq_some_of_mem (hn : s.typeNames.Nodup) {t : TypeDefinition} (ht : t ∈ s.types) :
    s.type? t.name = some t :=
  find?_name_eq_some hn ht

theorem mem_of_type? {name : String} {t : TypeDefinition} (ht : s.type? name = some t) :
    t ∈ s.types ∧ t.name = name :=
  ⟨List.mem_of_find?_eq_some ht, by simpa using List.find?_some ht⟩

theorem fields_of_type? {name : String} {t : TypeDefinition} (ht : s.type? name = some t) :
    s.fields name = t.body.fields := by
  simp [fields, body?, ht]

/-- The fields of a name are those of a type with that name. -/
theorem exists_type?_of_mem_fields {name : String} {f : Field} (hf : f ∈ s.fields name) :
    ∃ t, s.type? name = some t ∧ f ∈ t.body.fields := by
  cases ht : s.type? name with
  | none => simp [fields, body?, ht] at hf
  | some t => exact ⟨t, rfl, fields_of_type? ht ▸ hf⟩

theorem kind?_of_type? {name : String} {t : TypeDefinition} (ht : s.type? name = some t) :
    s.kind? name = t.body.kind? := by
  simp [kind?, body?, ht]

theorem kind?_of_isObject {name : String} {t : TypeDefinition} (ht : s.type? name = some t)
    (ho : t.body.isObject = true) : s.kind? name = some .object := by
  rw [kind?_of_type? ht]
  cases hb : t.body <;> simp_all [TypeBody.isObject, TypeBody.kind?]

/-- The members of a name are those of a union type with that name. -/
theorem exists_type?_of_mem_members {union name : String} (h : name ∈ s.members union) :
    ∃ t ms m, s.type? union = some t ∧ t.body = .union ms ∧ m ∈ ms ∧ m.name = name := by
  unfold members body? at h
  cases ht : s.type? union with
  | none => simp [ht] at h
  | some t =>
    cases hb : t.body with
    | union ms =>
      obtain ⟨m, hm, he⟩ : ∃ m ∈ ms, m.name = name := by simpa [ht, hb, TypeBody.members] using h
      exact ⟨t, ms, m, rfl, hb, hm, he⟩
    | _ => simp [ht, hb, TypeBody.members] at h

/-- What has members is a union. -/
theorem kind?_union {union name : String} (h : name ∈ s.members union) : s.kind? union = some .union := by
  obtain ⟨t, ms, m, ht, hb, _, _⟩ := exists_type?_of_mem_members h
  rw [kind?_of_type? ht, hb]
  rfl

end Lookup

/-! ## Schemas without a problem -/

theorem problemIf_eq_nil {c : Bool} {position : Nat} {problem : Problem} :
    problemIf c position problem = [] ↔ c = false := by
  cases c <;> simp [problemIf]

section Problems

variable {s : Schema} (hs : s.problems = [])
include hs

theorem rootProblems_eq_nil {r : RootMention} (hr : r ∈ s.roots) : s.rootProblems r = [] := by
  simp only [problems, rootsProblems, List.append_eq_nil_iff, List.flatMap_eq_nil_iff] at hs
  exact hs.1.1.1.1.2 r hr

theorem bodyProblems_eq_nil {t : TypeDefinition} (ht : t ∈ s.types) : s.bodyProblems t = [] := by
  simp only [problems, typeProblems, List.append_eq_nil_iff, List.flatMap_eq_nil_iff] at hs
  exact (hs.2 t ht).2

theorem fieldProblems_eq_nil {name : String} {f : Field} (hf : f ∈ s.fields name) : s.fieldProblems f = [] := by
  obtain ⟨t, ht, hft⟩ := exists_type?_of_mem_fields hf
  have h := bodyProblems_eq_nil hs (mem_of_type? ht).1
  unfold bodyProblems at h
  split at h <;> rename_i hb <;> simp only [hb, TypeBody.fields, List.not_mem_nil] at hft
  · simp only [List.append_eq_nil_iff, List.flatMap_eq_nil_iff] at h
    exact h.1.2 f hft
  · simp only [List.append_eq_nil_iff, List.flatMap_eq_nil_iff] at h
    exact h.1.1.2 f hft

/-- A root type is an object type. -/
theorem exists_type?_of_root {kind : OperationKind} {root : String} (h : s.root? kind = some root) :
    ∃ t, s.type? root = some t ∧ t.body.isObject = true := by
  obtain ⟨r, hr, rfl⟩ := Option.map_eq_some_iff.mp h
  have hp := rootProblems_eq_nil hs (List.mem_of_find?_eq_some hr)
  unfold rootProblems at hp
  split at hp
  · cases hp
  · rename_i t ht
    exact ⟨t, ht, by simpa [problemIf_eq_nil] using hp⟩

/-- A member of a union is an object type. -/
theorem kind?_of_mem_members {union name : String} (h : name ∈ s.members union) : s.kind? name = some .object := by
  obtain ⟨t, ms, m, ht, hb, hm, rfl⟩ := exists_type?_of_mem_members h
  have hp := bodyProblems_eq_nil hs (mem_of_type? ht).1
  simp only [bodyProblems, hb, List.append_eq_nil_iff, List.flatMap_eq_nil_iff] at hp
  have hm := hp.2 m hm
  split at hm
  · cases hm
  · rename_i t' ht'
    exact kind?_of_isObject ht' (by simpa [problemIf_eq_nil] using hm)

/-- An object type implements interfaces only. -/
theorem kind?_of_implements {t : TypeDefinition} (ht : t ∈ s.types) (ho : t.body.isObject = true) {interface : String}
    (hi : t.implements interface = true) : s.kind? interface = some .interface := by
  have hp := bodyProblems_eq_nil hs ht
  obtain ⟨m, hm, he⟩ := List.any_eq_true.mp hi
  obtain rfl := of_decide_eq_true he
  cases hb : t.body <;> simp only [hb, TypeBody.isObject, reduceCtorEq] at ho
  rw [hb] at hm
  simp only [bodyProblems, hb, List.append_eq_nil_iff, List.flatMap_eq_nil_iff] at hp
  have hm := hp.2 m hm
  unfold implementationProblems at hm
  split at hm
  · cases hm
  · rename_i i hi
    obtain ⟨hi, hsort⟩ := Option.filter_eq_some_iff.mp hi
    rw [kind?_of_type? hi]
    cases hb : i.body <;> simp [hb, TypeBody.sort] at hsort
    rfl

/-- An object type has fields. -/
theorem fields_ne_nil {name : String} (h : s.kind? name = some .object) : s.fields name ≠ [] := by
  cases ht : s.type? name with
  | none => simp [kind?, body?, ht] at h
  | some t =>
    have hp := bodyProblems_eq_nil hs (mem_of_type? ht).1
    rw [kind?_of_type? ht] at h
    rw [fields_of_type? ht]
    cases hb : t.body <;> simp only [hb, TypeBody.kind?, Option.some.injEq, reduceCtorEq] at h
    simp only [bodyProblems, hb, List.append_eq_nil_iff, problemIf_eq_nil, List.isEmpty_eq_false_iff] at hp
    exact hp.1.1

/-- The type of a field has a kind: it is no input object. -/
theorem exists_kind?_of_mem_fields {name : String} {f : Field} (hf : f ∈ s.fields name) :
    ∃ kind, s.kind? f.type.base = some kind := by
  have hp := fieldProblems_eq_nil hs hf
  simp only [fieldProblems, List.append_eq_nil_iff] at hp
  have hp := hp.2
  split at hp
  · cases hp
  · rename_i t ht
    rw [kind?_of_type? ht]
    exact Option.isSome_iff_exists.mp (by simpa [problemIf_eq_nil] using hp)

/-- No field has a reserved name. -/
theorem not_isReserved_of_mem_fields {name : String} {f : Field} (hf : f ∈ s.fields name) :
    isReserved f.name = false := by
  have hp := fieldProblems_eq_nil hs hf
  simp only [fieldProblems, List.append_eq_nil_iff, problemIf_eq_nil] at hp
  exact hp.1.1.1

end Problems

/-! ## Valid schemas -/

/-- A schema is valid if a text defines it. -/
def IsValid (s : Schema) : Prop := ∃ text, parse text = .ok s

theorem eq_ok_of_toOption_eq_some {ε α : Type} {e : Except ε α} {a : α} (h : e.toOption = some a) : e = .ok a := by
  cases e with
  | ok b => exact congrArg _ (Option.some.inj h)
  | error _ => cases h

/-- A text that parses gives a valid schema. What holds of the schema by evaluation can be shown at the same time. -/
theorem exists_isValid_of_parse (text : String) (P : Schema → Bool) (h : (parse text).toOption.any P = true) :
    ∃ s : Schema, s.IsValid ∧ P s = true := by
  obtain ⟨s, hs, hp⟩ := (Option.any_eq_true P _).mp h
  exact ⟨s, ⟨text, eq_ok_of_toOption_eq_some hs⟩, hp⟩

namespace IsValid

variable {s : Schema} (hs : s.IsValid)
include hs

/-- A valid schema is put together from a document without a problem. -/
theorem exists_document : ∃ text document, Document.read? text = some document ∧
    s = { document.merge.1 with text } ∧ document.merge.1.problems = [] := by
  obtain ⟨text, h⟩ := hs
  unfold parse at h
  split at h
  · cases h
  · rename_i document hread
    split at h
    · rename_i s' hc
      obtain rfl := Except.ok.inj h
      obtain ⟨rfl, hp⟩ := Prod.mk.inj hc
      exact ⟨text, document, hread, rfl, (List.append_eq_nil_iff.mp hp).2⟩
    · cases h

theorem typeNames_nodup : s.typeNames.Nodup := by
  obtain ⟨_, document, _, rfl, _⟩ := hs.exists_document
  show (document.merge.1.types.map (·.name)).Nodup
  rw [Document.types_merge]
  exact Document.typeNames_mergeTypes_nodup document

theorem fieldNames_nodup (name : String) : ((s.fields name).map Field.name).Nodup := by
  cases ht : s.type? name with
  | none => simp [fields, body?, ht]
  | some t =>
    rw [fields_of_type? ht]
    have hm := (mem_of_type? ht).1
    obtain ⟨_, document, _, rfl, _⟩ := hs.exists_document
    obtain ⟨_, _, rfl, _⟩ := Document.exists_of_mem_mergeTypes (Document.types_merge document ▸ hm)
    exact Document.fieldNames_finishType_nodup _ _

/-- No type stands twice among the members of a union. -/
theorem members_nodup (union : String) : (s.members union).Nodup := by
  cases ht : s.type? union with
  | none => simp [members, body?, ht]
  | some t =>
    have hm := (mem_of_type? ht).1
    have hmembers : s.members union = t.body.members.map Mention.name := by simp [members, body?, ht]
    rw [hmembers]
    obtain ⟨_, document, _, rfl, _⟩ := hs.exists_document
    obtain ⟨_, _, rfl, _⟩ := Document.exists_of_mem_mergeTypes (Document.types_merge document ▸ hm)
    exact Document.memberNames_finishType_nodup _ _

/-- No type stands twice among those that implement an interface. -/
theorem implementers_nodup (interface : String) : (s.implementers interface).Nodup :=
  hs.typeNames_nodup.sublist (List.filter_sublist.map _)

/-- No type stands twice among the branches of an interface or union. -/
theorem branchTypes_nodup (name : String) : (s.branchTypes name).Nodup := by
  unfold branchTypes
  split
  · exact hs.implementers_nodup name
  · exact hs.members_nodup name
  · exact List.nodup_nil

/-- Every type and its parts have GraphQL names. -/
theorem isNamed_of_mem_types {t : TypeDefinition} (ht : t ∈ s.types) : t.isNamed = true := by
  obtain ⟨_, document, hread, rfl, _⟩ := hs.exists_document
  obtain ⟨_, t', rfl, ht', hes⟩ := Document.exists_of_mem_mergeTypes (Document.types_merge document ▸ ht)
  refine Document.isNamed_finishType ?_ fun e he => Document.isNamed_of_mem_typeExtensions hread (hes e he)
  rcases ht' with ht' | ht'
  · have hb : ∀ t ∈ BuiltIn.types, t.isNamed = true := by decide
    exact hb t' ht'
  · exact Document.isNamed_of_mem_typeDefinitions hread ht'

theorem isNamed_of_body? {name : String} {body : TypeBody} (h : s.body? name = some body) : body.isNamed = true := by
  obtain ⟨t, ht, rfl⟩ := Option.map_eq_some_iff.mp h
  exact (Bool.and_eq_true_iff.mp (hs.isNamed_of_mem_types (mem_of_type? ht).1)).2

/-- Every type has a GraphQL name. -/
theorem isName_of_kind? {name : String} {kind : TypeKind} (h : s.kind? name = some kind) :
    Token.isName name = true := by
  obtain ⟨t, hm, rfl⟩ := List.mem_map.mp (mem_typeNames_of_kind? h)
  exact (Bool.and_eq_true_iff.mp (hs.isNamed_of_mem_types hm)).1

/-- Every field and its arguments have GraphQL names. -/
theorem isNamed_of_mem_fields {name : String} {f : Field} (h : f ∈ s.fields name) : f.isNamed = true := by
  obtain ⟨t, ht, hf⟩ := exists_type?_of_mem_fields h
  have hbody := hs.isNamed_of_body? (Option.map_eq_some_iff.mpr ⟨t, ht, rfl⟩)
  cases hb : t.body <;> simp only [hb, TypeBody.fields, List.not_mem_nil] at hf
  all_goals
    rw [hb] at hbody
    exact List.all_eq_true.mp hbody f hf

theorem ne_empty_of_kind? {name : String} {kind : TypeKind} (h : s.kind? name = some kind) : name ≠ "" := by
  rintro rfl
  exact absurd (hs.isName_of_kind? h) (by decide)

/-- A branch key is read as the type that it was made for. -/
theorem type?_ofType {name : String} {kind : TypeKind} (h : s.kind? name = some kind) :
    Key.type? (Key.ofType name) = some name :=
  Key.type?_ofType (hs.ne_empty_of_kind? h)

theorem kind?_root {kind : OperationKind} {root : String} (h : s.root? kind = some root) :
    s.kind? root = some .object := by
  obtain ⟨_, document, _, rfl, hp⟩ := hs.exists_document
  obtain ⟨t, ht, ho⟩ := exists_type?_of_root hp h
  exact kind?_of_isObject ht ho

theorem kind?_member {union name : String} (h : name ∈ s.members union) : s.kind? name = some .object := by
  obtain ⟨_, document, _, rfl, hp⟩ := hs.exists_document
  exact kind?_of_mem_members hp h

theorem kind?_implementer {interface name : String} (h : name ∈ s.implementers interface) :
    s.kind? name = some .object := by
  obtain ⟨t, ht, rfl⟩ := List.mem_map.mp h
  obtain ⟨ht, hi⟩ := List.mem_filter.mp ht
  exact kind?_of_isObject (type?_eq_some_of_mem hs.typeNames_nodup ht) (Bool.and_eq_true_iff.mp hi).1

/-- What is implemented is an interface. -/
theorem kind?_implemented {interface name : String} (h : name ∈ s.implementers interface) :
    s.kind? interface = some .interface := by
  obtain ⟨t, ht, rfl⟩ := List.mem_map.mp h
  obtain ⟨ht, hi⟩ := List.mem_filter.mp ht
  obtain ⟨ho, hi⟩ := Bool.and_eq_true_iff.mp hi
  obtain ⟨_, document, _, rfl, hp⟩ := hs.exists_document
  exact kind?_of_implements hp ht ho hi

/-- The branches of a type are the object types that implement it and its members. -/
theorem mem_branchTypes_iff {name type : String} :
    type ∈ s.branchTypes name ↔ type ∈ s.implementers name ∨ type ∈ s.members name := by
  constructor
  · intro h
    unfold branchTypes at h
    split at h
    · exact .inl h
    · exact .inr h
    · cases h
  · rintro (h | h)
    · rwa [branchTypes, hs.kind?_implemented h]
    · rwa [branchTypes, kind?_union h]

theorem kind?_branchType {name type : String} (h : type ∈ s.branchTypes name) : s.kind? type = some .object := by
  unfold branchTypes at h
  split at h
  · exact hs.kind?_implementer h
  · exact hs.kind?_member h
  · cases h

theorem fields_ne_nil {name : String} (h : s.kind? name = some .object) : s.fields name ≠ [] := by
  obtain ⟨_, document, _, rfl, hp⟩ := hs.exists_document
  exact Schema.fields_ne_nil hp h

theorem exists_kind?_of_mem_fields {name : String} {f : Field} (h : f ∈ s.fields name) :
    ∃ kind, s.kind? f.type.base = some kind := by
  obtain ⟨_, document, _, rfl, hp⟩ := hs.exists_document
  exact Schema.exists_kind?_of_mem_fields hp h

theorem not_isReserved_of_mem_fields {name : String} {f : Field} (h : f ∈ s.fields name) :
    isReserved f.name = false := by
  obtain ⟨_, document, _, rfl, hp⟩ := hs.exists_document
  exact Schema.not_isReserved_of_mem_fields hp h

theorem ne_typename_of_mem_fields {name : String} {f : Field} (h : f ∈ s.fields name) : f.name ≠ Key.typename := by
  intro he
  have hr := hs.not_isReserved_of_mem_fields h
  rw [he] at hr
  exact absurd hr (by decide)

theorem field?_of_mem_fields {name : String} {f : Field} (h : f ∈ s.fields name) : s.field? name f.name = some f :=
  find?_name_eq_some (hs.fieldNames_nodup name) h

end IsValid

theorem mem_fields_of_field? {s : Schema} {type name : String} {f : Field} (h : s.field? type name = some f) :
    f ∈ s.fields type ∧ f.name = name :=
  ⟨List.mem_of_find?_eq_some h, by simpa using List.find?_some h⟩

end Schema

end GraphSelect
