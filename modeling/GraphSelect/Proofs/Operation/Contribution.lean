import GraphSelect.Operation.Lowering
import GraphSelect.Proofs.Resolution

/-!
# What trees contribute

Every item that a tree contributes fits the type that the tree is selected on (`fits_of_mem_items`): scalar fields have
no selection set, and the selection sets of all other fields and of branches are not empty and fit in turn. The fields
have the arguments that the provider gives for them on that type (`written_of_mem_items`). Fields with empty selection
sets are contributed apart, as touched ones (`exists_touchedItems_eq`), and are written only if there is no item at all
(`rootItems_eq_items`, `rootItems_eq_touchedItems`).

What a branch entry contributes is opened once, with all that is known in each case (`branchContributions_cases`);
everything later is read off from that.
-/

namespace GraphSelect

namespace Contribution

/-! ## Items among contributions -/

@[simp] theorem items_nil : items [] = [] := rfl

@[simp] theorem items_item (i : Item) (cs : List Contribution) : items (.item i :: cs) = i :: items cs := rfl

@[simp] theorem items_touched (i : Item) (cs : List Contribution) : items (.touched i :: cs) = items cs := rfl

@[simp] theorem items_hollow (cs : List Contribution) : items (.hollow :: cs) = items cs := rfl

theorem items_append (cs ds : List Contribution) : items (cs ++ ds) = items cs ++ items ds :=
  List.filterMap_append

@[simp] theorem touchedItems_nil : touchedItems [] = [] := rfl

@[simp] theorem touchedItems_item (i : Item) (cs : List Contribution) :
    touchedItems (.item i :: cs) = touchedItems cs := rfl

@[simp] theorem touchedItems_touched (i : Item) (cs : List Contribution) :
    touchedItems (.touched i :: cs) = i :: touchedItems cs := rfl

@[simp] theorem touchedItems_hollow (cs : List Contribution) : touchedItems (.hollow :: cs) = touchedItems cs := rfl

theorem touchedItems_append (cs ds : List Contribution) :
    touchedItems (cs ++ ds) = touchedItems cs ++ touchedItems ds :=
  List.filterMap_append

/-- Sorting only moves items. -/
theorem sortItems_perm (is : List Item) : (sortItems is).Perm is := by
  induction is with
  | nil => exact .nil
  | cons i is ih =>
    have hi : ∀ as bs cs : List Item, (as ++ bs ++ cs).Perm is → (as ++ i :: bs ++ cs).Perm (i :: is) ∧
        (as ++ bs ++ i :: cs).Perm (i :: is) := fun as bs cs h => by
      refine ⟨?_, List.perm_middle.trans (h.cons i)⟩
      simp only [List.append_assoc, List.cons_append] at h ⊢
      exact List.perm_middle.trans (h.cons i)
    cases i with
    | typename => exact ih.cons _
    | scalar _ _ => exact (hi _ _ _ ih).1
    | composite _ _ _ => exact (hi _ _ _ ih).1
    | fragment _ _ => exact (hi _ _ _ ih).2

/-- Putting a body into order only moves its items. -/
theorem arrange_perm (sorted : Bool) (is : List Item) : (arrange sorted is).Perm is := by
  cases sorted with
  | false => exact .refl _
  | true => exact sortItems_perm is

/-! ## Bodies -/

/-- What a field contributes: itself around what its body contributes, or one of the marks if that is no item. -/
theorem ofField_cases (sorted : Bool) (write : List Item → Item) (cs : List Contribution) :
    (∃ is, is.Perm (items cs) ∧ is ≠ [] ∧ ofField sorted write cs = .item (write is)) ∨
    (cs = [] ∧ ofField sorted write cs = .touched (write [])) ∨
    (items cs = [] ∧ cs ≠ [] ∧ ofField sorted write cs = .hollow) := by
  unfold ofField
  split
  · rename_i i is hi
    refine .inl ⟨_, hi ▸ arrange_perm sorted _, fun he => ?_, rfl⟩
    have := (arrange_perm sorted (i :: is)).length_eq
    simp [he] at this
  · exact .inr (.inl ⟨rfl, rfl⟩)
  · rename_i c cs hi
    exact .inr (.inr ⟨hi, List.cons_ne_nil _ _, rfl⟩)

/-- What a branch contributes: itself around what its body contributes, nothing around nothing, or a mark. -/
theorem ofBranch_cases (sorted : Bool) (write : List Item → Item) (cs : List Contribution) :
    (∃ is, is.Perm (items cs) ∧ is ≠ [] ∧ ofBranch sorted write cs = some (.item (write is))) ∨
    (cs = [] ∧ ofBranch sorted write cs = none) ∨
    (items cs = [] ∧ cs ≠ [] ∧ ofBranch sorted write cs = some .hollow) := by
  unfold ofBranch
  split
  · rename_i i is hi
    refine .inl ⟨_, hi ▸ arrange_perm sorted _, fun he => ?_, rfl⟩
    have := (arrange_perm sorted (i :: is)).length_eq
    simp [he] at this
  · exact .inr (.inl ⟨rfl, rfl⟩)
  · rename_i c cs hi
    exact .inr (.inr ⟨hi, List.cons_ne_nil _ _, rfl⟩)

end Contribution

namespace Schema

open Contribution

/-! ## Entries -/

section Entries

variable (s : Schema) (provider : ArgumentProvider)

/-- The contributions of a single branch entry. -/
def branchContributions (type key : String) (role : Role) (body : Tree) : List Contribution :=
  s.contributions provider type (.branch key role body .empty)

theorem contributions_branch (type key : String) (role : Role) (body rest : Tree) :
    s.contributions provider type (.branch key role body rest) =
      s.branchContributions provider type key role body ++ s.contributions provider type rest := by
  simp only [branchContributions, contributions, List.append_nil]

/-- What a branch entry contributes: a field around its body, if that is not empty, a branch around its body, or
nothing, as its key means. -/
theorem branchContributions_eq (type key : String) (role : Role) (body : Tree) :
    s.branchContributions provider type key role body =
      match s.meaning? type key with
      | some (.composite f kind) =>
        if body.isEmpty then []
        else [.ofField (isSorted kind role) (.composite f.name (provider s type f))
          (s.contributions provider f.type.base body)]
      | some (.branch next kind) =>
        (ofBranch (isSorted kind role) (.fragment next) (s.contributions provider next body)).toList
      | _ => [] :=
  List.append_nil _

/-- What a branch entry contributes, with everything that is known in each case: an item around the items of its body, a
mark for a field that is touched or for what is around one, or nothing. -/
theorem branchContributions_cases (type key : String) (role : Role) (body : Tree) :
    (∃ f kind is, s.meaning? type key = some (.composite f kind) ∧
      is.Perm (items (s.contributions provider f.type.base body)) ∧ is ≠ [] ∧
      s.branchContributions provider type key role body = [.item (.composite f.name (provider s type f) is)]) ∨
    (∃ f kind, s.meaning? type key = some (.composite f kind) ∧ body ≠ .empty ∧
      s.contributions provider f.type.base body = [] ∧
      s.branchContributions provider type key role body = [.touched (.composite f.name (provider s type f) [])]) ∨
    (∃ f kind, s.meaning? type key = some (.composite f kind) ∧
      items (s.contributions provider f.type.base body) = [] ∧ s.contributions provider f.type.base body ≠ [] ∧
      s.branchContributions provider type key role body = [.hollow]) ∨
    (∃ next kind is, s.meaning? type key = some (.branch next kind) ∧
      is.Perm (items (s.contributions provider next body)) ∧ is ≠ [] ∧
      s.branchContributions provider type key role body = [.item (.fragment next is)]) ∨
    (∃ next kind, s.meaning? type key = some (.branch next kind) ∧
      items (s.contributions provider next body) = [] ∧ s.contributions provider next body ≠ [] ∧
      s.branchContributions provider type key role body = [.hollow]) ∨
    ((∀ f kind, s.meaning? type key = some (.composite f kind) → body = .empty) ∧
      (∀ next kind, s.meaning? type key = some (.branch next kind) → s.contributions provider next body = []) ∧
      s.branchContributions provider type key role body = []) := by
  rw [branchContributions_eq]
  cases hm : s.meaning? type key with
  | none => simp
  | some m =>
    cases m with
    | typename => simp
    | leaf f => simp
    | composite f kind =>
      by_cases hb : body = .empty
      · simp [hb, contributions, Tree.isEmpty]
      · have hb' : body.isEmpty = false := by
          cases body with
          | empty => exact absurd rfl hb
          | leaf _ _ _ => rfl
          | branch _ _ _ _ => rfl
        dsimp only
        rw [if_neg (by simp [hb'])]
        rcases ofField_cases (isSorted kind role) (.composite f.name (provider s type f))
          (s.contributions provider f.type.base body) with ⟨is, hp, hne, he⟩ | ⟨hc, he⟩ | ⟨hi, hc, he⟩ <;> rw [he]
        · exact .inl ⟨f, kind, is, rfl, hp, hne, rfl⟩
        · exact .inr (.inl ⟨f, kind, rfl, hb, hc, rfl⟩)
        · exact .inr (.inr (.inl ⟨f, kind, rfl, hi, hc, rfl⟩))
    | branch next kind =>
      dsimp only
      rcases ofBranch_cases (isSorted kind role) (.fragment next)
        (s.contributions provider next body) with ⟨is, hp, hne, he⟩ | ⟨hc, he⟩ | ⟨hi, hc, he⟩ <;> rw [he]
      · exact .inr (.inr (.inr (.inl ⟨next, kind, is, rfl, hp, hne, rfl⟩)))
      · refine .inr (.inr (.inr (.inr (.inr ⟨fun _ _ h => ?_, fun _ _ h => ?_, rfl⟩)))) <;> cases h
        exact hc
      · exact .inr (.inr (.inr (.inr (.inl ⟨next, kind, rfl, hi, hc, rfl⟩))))

/-- The items of a branch entry: one item around those of its body, as its key means, or none if its body has none. -/
theorem items_branchContributions_cases (type key : String) (role : Role) (body : Tree) :
    (∃ f kind is, s.meaning? type key = some (.composite f kind) ∧
      is.Perm (items (s.contributions provider f.type.base body)) ∧ is ≠ [] ∧
      items (s.branchContributions provider type key role body) = [.composite f.name (provider s type f) is]) ∨
    (∃ next kind is, s.meaning? type key = some (.branch next kind) ∧
      is.Perm (items (s.contributions provider next body)) ∧ is ≠ [] ∧
      items (s.branchContributions provider type key role body) = [.fragment next is]) ∨
    (items (s.branchContributions provider type key role body) = [] ∧
      ∀ st next, (s.meaning? type key).bind Meaning.opens? = some (st, next) →
        items (s.contributions provider next body) = []) := by
  rcases s.branchContributions_cases provider type key role body with ⟨f, kind, is, hm, hp, hne, he⟩ |
    ⟨f, kind, hm, _, hc, he⟩ | ⟨f, kind, hm, hi, _, he⟩ | ⟨next, kind, is, hm, hp, hne, he⟩ |
    ⟨next, kind, hm, hi, _, he⟩ | ⟨hfield, hbranch, he⟩ <;> rw [he]
  · exact .inl ⟨f, kind, is, hm, hp, hne, rfl⟩
  · refine .inr (.inr ⟨rfl, fun st next h => ?_⟩)
    rw [hm] at h
    cases h
    rw [hc]
    rfl
  · refine .inr (.inr ⟨rfl, fun st next h => ?_⟩)
    rw [hm] at h
    cases h
    exact hi
  · exact .inr (.inl ⟨next, kind, is, hm, hp, hne, rfl⟩)
  · refine .inr (.inr ⟨rfl, fun st next h => ?_⟩)
    rw [hm] at h
    cases h
    exact hi
  · refine .inr (.inr ⟨rfl, fun st next h => ?_⟩)
    obtain ⟨m, hm, ho⟩ := Option.bind_eq_some_iff.mp h
    cases m with
    | typename => cases ho
    | leaf f => cases ho
    | composite f kind =>
      rw [hfield f kind hm]
      rfl
    | branch next' kind =>
      cases ho
      rw [hbranch next kind hm]
      rfl

/-- A leaf contributes the last step that its key means, if it is selected. -/
theorem leafContribution_cases (type key : String) (selected : Bool) :
    (selected = true ∧ s.meaning? type key = some .typename ∧
      s.leafContribution provider type key selected = some (.item .typename)) ∨
    (∃ f, selected = true ∧ s.meaning? type key = some (.leaf f) ∧
      s.leafContribution provider type key selected = some (.item (.scalar f.name (provider s type f)))) ∨
    ((selected = true → (s.meaning? type key).bind Meaning.ends? = none) ∧
      s.leafContribution provider type key selected = none) := by
  cases selected with
  | false => exact .inr (.inr ⟨fun h => (by cases h), rfl⟩)
  | true =>
    cases hm : s.meaning? type key with
    | none => exact .inr (.inr ⟨fun _ => rfl, by simp [leafContribution, hm]⟩)
    | some m =>
      cases m with
      | typename => exact .inl ⟨rfl, rfl, by simp [leafContribution, hm]⟩
      | leaf f => exact .inr (.inl ⟨f, rfl, rfl, by simp [leafContribution, hm]⟩)
      | composite _ _ => exact .inr (.inr ⟨fun _ => rfl, by simp [leafContribution, hm]⟩)
      | branch _ _ => exact .inr (.inr ⟨fun _ => rfl, by simp [leafContribution, hm]⟩)

/-- The touched field of a branch entry: a field with a body that contributes nothing. -/
theorem touchedItems_branchContributions_cases (type key : String) (role : Role) (body : Tree) :
    (∃ f kind, s.meaning? type key = some (.composite f kind) ∧ body ≠ .empty ∧
      s.contributions provider f.type.base body = [] ∧
      touchedItems (s.branchContributions provider type key role body) = [.composite f.name (provider s type f) []]) ∨
    (touchedItems (s.branchContributions provider type key role body) = [] ∧
      ∀ f kind, s.meaning? type key = some (.composite f kind) → body ≠ .empty →
        s.contributions provider f.type.base body ≠ []) := by
  rcases s.branchContributions_cases provider type key role body with ⟨f, kind, is, hm, hp, hne, he⟩ |
    ⟨f, kind, hm, hb, hc, he⟩ | ⟨f, kind, hm, _, hc, he⟩ | ⟨next, kind, is, hm, _, _, he⟩ |
    ⟨next, kind, hm, _, _, he⟩ | ⟨hfield, _, he⟩ <;> rw [he]
  · refine .inr ⟨rfl, fun f' kind' hm' _ hc => hne ?_⟩
    cases hm.symm.trans hm'
    rw [hc] at hp
    exact List.perm_nil.mp hp
  · exact .inl ⟨f, kind, hm, hb, hc, rfl⟩
  · refine .inr ⟨rfl, fun f' kind' hm' _ => ?_⟩
    cases hm.symm.trans hm'
    exact hc
  · exact .inr ⟨rfl, fun f' kind' hm' => nomatch hm.symm.trans hm'⟩
  · exact .inr ⟨rfl, fun f' kind' hm' => nomatch hm.symm.trans hm'⟩
  · exact .inr ⟨rfl, fun f' kind' hm' hb => absurd (hfield f' kind' hm') hb⟩

/-- The touched fields of a tree, in the order of its keys: the fields that have a body which contributes nothing. -/
theorem exists_touchedItems_eq (hs : s.IsValid) {type : String} (ht : (s.kind? type).isSome) : ∀ t : Tree,
    ∃ fs : List Field,
      touchedItems (s.contributions provider type t) = fs.map (fun f => .composite f.name (provider s type f) []) ∧
      (fs.map Field.name).Sublist t.keys ∧
      ∀ f, f ∈ fs ↔ ∃ key role body kind, (key, .branch role body) ∈ t.entries ∧ body ≠ .empty ∧
        s.meaning? type key = some (.composite f kind) ∧ s.contributions provider f.type.base body = []
  | .empty => ⟨[], rfl, .slnil, by simp [Tree.entries]⟩
  | .leaf key selected rest => by
    obtain ⟨fs, hfs, hkeys, hmem⟩ := exists_touchedItems_eq hs ht rest
    refine ⟨fs, ?_, hkeys.cons _, by simpa [Tree.entries] using hmem⟩
    rw [contributions, touchedItems_append, hfs]
    rcases leafContribution_cases s provider type key selected with ⟨_, _, he⟩ | ⟨f, _, _, he⟩ | ⟨_, he⟩ <;>
      rw [he] <;> rfl
  | .branch key role body rest => by
    obtain ⟨fs, hfs, hkeys, hmem⟩ := exists_touchedItems_eq hs ht rest
    rw [contributions_branch, touchedItems_append, hfs]
    rcases s.touchedItems_branchContributions_cases provider type key role body with
      ⟨f, kind, hm, hb, hc, he⟩ | ⟨he, hno⟩ <;> rw [he]
    · have hkey : f.name = key := (hs.opens_of_meaning? ht hm rfl).1
      refine ⟨f :: fs, rfl, by rw [List.map_cons, hkey]; exact hkeys.cons_cons _, fun g => ?_⟩
      rw [List.mem_cons, hmem]
      constructor
      · rintro (rfl | ⟨key', role', body', kind', hk, h⟩)
        · exact ⟨key, role, body, kind, List.mem_cons_self, hb, hm, hc⟩
        · exact ⟨key', role', body', kind', List.mem_cons_of_mem _ hk, h⟩
      · rintro ⟨key', role', body', kind', hk, hb', hm', hc'⟩
        rcases List.mem_cons.mp hk with h | hk
        · cases h
          cases hm.symm.trans hm'
          exact .inl rfl
        · exact .inr ⟨key', role', body', kind', hk, hb', hm', hc'⟩
    · refine ⟨fs, rfl, hkeys.cons _, fun g => ?_⟩
      rw [hmem]
      constructor
      · rintro ⟨key', role', body', kind', hk, h⟩
        exact ⟨key', role', body', kind', List.mem_cons_of_mem _ hk, h⟩
      · rintro ⟨key', role', body', kind', hk, hb', hm', hc'⟩
        rcases List.mem_cons.mp hk with h | hk
        · cases h
          exact absurd hc' (hno g kind' hm' hb')
        · exact ⟨key', role', body', kind', hk, hb', hm', hc'⟩

end Entries

variable {s : Schema} {provider : ArgumentProvider}

/-! ## Items that fit -/

/-- An item that is in order on a type: it is the name of the type, a field of a scalar or enum type without selection
set, or a field of another type or a branch, with a selection set that is not empty and in order in turn. -/
inductive Fits (s : Schema) : String → Item → Prop
  | typename {type : String} : Fits s type .typename
  | scalar {type name : String} {arguments : List (String × Literal)} : s.Ends type (.field name) →
      Fits s type (.scalar name arguments)
  | composite {type next name : String} {arguments : List (String × Literal)} {body : List Item} :
      s.Opens type (.field name) next → body ≠ [] → (∀ i ∈ body, Fits s next i) →
      Fits s type (.composite name arguments body)
  | fragment {type next : String} {body : List Item} : s.Opens type (.branch next) next → body ≠ [] →
      (∀ i ∈ body, Fits s next i) → Fits s type (.fragment next body)

/-- A provider that leaves arguments out or gives placeholders. -/
def IsStandard (provider : ArgumentProvider) : Prop := provider = noArguments ∨ provider = placeholderArguments

/-- An item as it is written on a type: it fits the type, and each field has the arguments that the provider gives for
it there. -/
inductive Written (s : Schema) (provider : ArgumentProvider) : String → Item → Prop
  | typename {type : String} : Written s provider type .typename
  | scalar {type : String} {f : Field} : s.field? type f.name = some f → s.kind? f.type.base = some .leaf →
      Written s provider type (.scalar f.name (provider s type f))
  | composite {type : String} {f : Field} {kind : TypeKind} {body : List Item} : s.field? type f.name = some f →
      s.kind? f.type.base = some kind → kind.isComposite = true → body ≠ [] →
      (∀ i ∈ body, Written s provider f.type.base i) →
      Written s provider type (.composite f.name (provider s type f) body)
  | fragment {type next : String} {body : List Item} : s.Opens type (.branch next) next → body ≠ [] →
      (∀ i ∈ body, Written s provider next i) → Written s provider type (.fragment next body)

theorem Written.fits {type : String} {i : Item} (h : s.Written provider type i) : s.Fits type i := by
  induction h with
  | typename => exact .typename
  | scalar hf hk => exact .scalar (.field hf hk)
  | composite hf hk hc hne _ ih => exact .composite (.field hf hk hc) hne ih
  | fragment ho hne _ ih => exact .fragment ho hne ih

/-- Every item that a tree contributes is written on the type that it is selected on. -/
theorem written_of_mem_items (hs : s.IsValid) : ∀ (t : Tree) {type : String}, (s.kind? type).isSome →
    ∀ i ∈ items (s.contributions provider type t), s.Written provider type i
  | .empty, _, _, _, h => by cases h
  | .leaf key selected rest, type, ht, i, h => by
    rw [contributions, items_append] at h
    rcases List.mem_append.mp h with h | h
    · rcases leafContribution_cases s provider type key selected with ⟨_, _, he⟩ |
        ⟨f, _, hm, he⟩ | ⟨_, he⟩ <;> rw [he] at h
      · obtain rfl := List.mem_singleton.mp h
        exact .typename
      · obtain rfl := List.mem_singleton.mp h
        obtain ⟨hf, hk⟩ := hs.meaning?_eq_leaf_iff.mp hm
        obtain ⟨_, rfl⟩ := mem_fields_of_field? hf
        exact .scalar hf hk
      · cases h
    · exact written_of_mem_items hs rest ht i h
  | .branch key role body rest, type, ht, i, h => by
    rw [contributions_branch, items_append] at h
    rcases List.mem_append.mp h with h | h
    · rcases items_branchContributions_cases s provider type key role body with
        ⟨f, kind, is, hm, hp, hne, he⟩ | ⟨next, kind, is, hm, hp, hne, he⟩ | ⟨he, _⟩ <;> rw [he] at h
      · obtain rfl := List.mem_singleton.mp h
        have ho := (hs.opens_of_meaning? ht hm rfl).2
        obtain ⟨hf, hk, hc⟩ := hs.meaning?_eq_composite_iff.mp hm
        obtain ⟨_, rfl⟩ := mem_fields_of_field? hf
        exact .composite hf hk hc hne fun i hi =>
          written_of_mem_items hs body (hs.kind?_of_opens ht ho) i (hp.mem_iff.mp hi)
      · obtain rfl := List.mem_singleton.mp h
        have ho := (hs.opens_of_meaning? ht hm rfl).2
        exact .fragment ho hne fun i hi =>
          written_of_mem_items hs body (hs.kind?_of_opens ht ho) i (hp.mem_iff.mp hi)
      · cases h
    · exact written_of_mem_items hs rest ht i h

/-- Every item that a tree contributes fits the type that it is selected on. -/
theorem fits_of_mem_items (hs : s.IsValid) (t : Tree) {type : String} (ht : (s.kind? type).isSome) :
    ∀ i ∈ items (s.contributions provider type t), s.Fits type i := fun i hi =>
  (written_of_mem_items hs t ht i hi).fits

/-! ## Operations -/

/-- What an operation is made of: the tree is not nested too deep, and its items are those of the root. -/
theorem operation_eq_ok {tree : Tree} {o : Options} {op : Operation} (h : s.operation tree o = .ok op) :
    ∃ root, s.root? o.kind = some root ∧ s.nesting root tree ≤ nestingLimit ∧ op.kind = o.kind ∧
      op.items = rootItems (s.contributions o.provider root tree) ∧
      op.name? = if op.items = [] then none else o.name? := by
  unfold operation at h
  split at h
  · cases h
  · rename_i root hroot
    split at h
    · cases h
    · rename_i hn
      obtain rfl := Except.ok.inj h
      exact ⟨root, hroot, Nat.le_of_not_lt hn, rfl, rfl, by simp [List.isEmpty_iff]⟩

theorem serialize_eq_ok {tree : Tree} {o : Options} {text : String} (h : s.serialize tree o = .ok text) :
    ∃ op, s.operation tree o = .ok op ∧ op.write = text := by
  unfold serialize at h
  cases he : s.operation tree o with
  | error e =>
    rw [he] at h
    cases h
  | ok op =>
    rw [he] at h
    exact ⟨op, rfl, Except.ok.inj h⟩

theorem serialize_eq_error_iff {tree : Tree} {o : Options} {error : Error} :
    s.serialize tree o = .error error ↔ s.operation tree o = .error error := by
  unfold serialize
  cases s.operation tree o with
  | error e => simp [Except.map]
  | ok op => simp [Except.map]

theorem rootItems_eq_items {cs : List Contribution} (h : items cs ≠ []) : rootItems cs = items cs := by
  unfold rootItems
  split
  · rename_i he
    exact absurd he h
  · rename_i he
    exact he.symm

theorem rootItems_eq_touchedItems {cs : List Contribution} (h : items cs = []) : rootItems cs = touchedItems cs := by
  rw [rootItems, h]

end Schema

end GraphSelect
