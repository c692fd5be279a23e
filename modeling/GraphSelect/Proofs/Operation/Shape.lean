import GraphSelect.Proofs.Operation.Paths

/-!
# The shape of an operation

Where a tree selects something, its operation has no empty selection set. Where it selects nothing, the operation shows
which fields of the root were touched: those with a body that is not empty and that holds no such field itself, not
even behind branches. Where there is none, the operation is empty and has no name (`serialize_shape`).

The marks of `Contribution` carry this through the tree: an entry contributes nothing at all exactly if no item comes
out of it and it holds no field with a body that is not empty (`contributions_eq_nil_iff`).
-/

namespace GraphSelect

namespace Schema

open Contribution

variable {s : Schema} {provider : ArgumentProvider}

/-! ## Trees without selection -/

/-- Some selected leaf of a tree resolves. -/
def HasSelection (s : Schema) (type : String) (t : Tree) : Prop :=
  ∃ p, (p.map Step.key, true) ∈ t.leaves ∧ s.Resolves type p

/-- A tree has a field of an object, interface or union type with a body that is not empty, perhaps behind branches. -/
inductive HoldsObject (s : Schema) : String → Tree → Prop
  | field {type next name : String} {role : Role} {body t : Tree} : (name, .branch role body) ∈ t.entries →
      s.Opens type (.field name) next → body ≠ .empty → HoldsObject s type t
  | branch {type next : String} {role : Role} {body t : Tree} : (Key.ofType next, .branch role body) ∈ t.entries →
      s.Opens type (.branch next) next → HoldsObject s next body → HoldsObject s type t

/-- A touched field: a field of an object, interface or union type whose body is not empty and holds no such field. -/
def IsTouched (s : Schema) (type : String) (t : Tree) (f : Field) : Prop :=
  ∃ role body, (f.name, .branch role body) ∈ t.entries ∧ body ≠ .empty ∧ s.field? type f.name = some f ∧
    s.Opens type (.field f.name) f.type.base ∧ ¬ s.HoldsObject f.type.base body

/-- The part of a tree that a step opens makes it hold a field with a body. -/
def HoldsBehind (s : Schema) (next : String) (body : Tree) : Step → Prop
  | .field _ => body ≠ .empty
  | _ => s.HoldsObject next body

/-- What the body of a field selects, the tree selects. -/
theorem HasSelection.of_mem_entries {type next name : String} {role : Role} {body t : Tree}
    (hk : (name, .branch role body) ∈ t.entries) (ho : s.Opens type (.field name) next)
    (h : s.HasSelection next body) : s.HasSelection type t := by
  obtain ⟨p, hp, hr⟩ := h
  exact ⟨.field name :: p, Tree.cons_mem_leaves hk hp, .step ho hr⟩

theorem not_holdsObject_empty {type : String} : ¬ s.HoldsObject type .empty := by
  intro h
  cases h with
  | field hk _ _ => cases hk
  | branch hk _ _ => cases hk

theorem holdsObject_leaf {type key : String} {selected : Bool} {rest : Tree} :
    s.HoldsObject type (.leaf key selected rest) ↔ s.HoldsObject type rest := by
  constructor
  · intro h
    cases h with
    | field hk ho hb => exact .field (by simpa [Tree.entries] using hk) ho hb
    | branch hk ho hb => exact .branch (by simpa [Tree.entries] using hk) ho hb
  · intro h
    cases h with
    | field hk ho hb => exact .field (List.mem_cons_of_mem _ hk) ho hb
    | branch hk ho hb => exact .branch (List.mem_cons_of_mem _ hk) ho hb

theorem holdsObject_branch {type key : String} {role : Role} {body rest : Tree} :
    s.HoldsObject type (.branch key role body rest) ↔
      (∃ st next, st.key = key ∧ s.Opens type st next ∧ s.HoldsBehind next body st) ∨ s.HoldsObject type rest := by
  constructor
  · intro h
    cases h with
    | field hk ho hb =>
      rcases List.mem_cons.mp hk with hk | hk
      · cases hk
        exact .inl ⟨_, _, rfl, ho, hb⟩
      · exact .inr (.field hk ho hb)
    | branch hk ho hb =>
      rcases List.mem_cons.mp hk with hk | hk
      · cases hk
        exact .inl ⟨_, _, rfl, ho, hb⟩
      · exact .inr (.branch hk ho hb)
  · rintro (⟨st, next, rfl, ho, hb⟩ | h)
    · cases ho with
      | field hf hk hc => exact .field List.mem_cons_self (.field hf hk hc) hb
      | branch hf hp => exact .branch List.mem_cons_self (.branch hf hp) hb
    · cases h with
      | field hk ho hb => exact .field (List.mem_cons_of_mem _ hk) ho hb
      | branch hk ho hb => exact .branch (List.mem_cons_of_mem _ hk) ho hb

section Trees

variable (hs : s.IsValid)
include hs

/-- A branch entry contributes nothing exactly if no item comes out of it and it holds no field with a body. -/
theorem branchContributions_eq_nil_iff {type key : String} (ht : (s.kind? type).isSome) {role : Role} {body : Tree}
    (ih : ∀ next, (s.kind? next).isSome → (s.contributions provider next body = [] ↔
      items (s.contributions provider next body) = [] ∧ ¬ s.HoldsObject next body)) :
    s.branchContributions provider type key role body = [] ↔
      items (s.branchContributions provider type key role body) = [] ∧
        ¬ ∃ st next, st.key = key ∧ s.Opens type st next ∧ s.HoldsBehind next body st := by
  -- A meaning that opens a type shows the step for which the body holds a field.
  have hopens : ∀ {m : Meaning} {st : Step} {next : String}, s.meaning? type key = some m →
      m.opens? = some (st, next) → s.HoldsBehind next body st →
      ∃ st next, st.key = key ∧ s.Opens type st next ∧ s.HoldsBehind next body st := fun hm hst hholds =>
    ⟨_, _, (hs.opens_of_meaning? ht hm hst).1, (hs.opens_of_meaning? ht hm hst).2, hholds⟩
  rcases s.branchContributions_cases provider type key role body with ⟨f, kind, is, hm, _, _, he⟩ |
    ⟨f, kind, hm, hb, _, he⟩ | ⟨f, kind, hm, _, hc, he⟩ | ⟨next, kind, is, hm, _, _, he⟩ |
    ⟨next, kind, hm, hi, hc, he⟩ | ⟨hfield, hbranch, he⟩ <;> rw [he]
  · simp
  · exact ⟨fun h => (List.cons_ne_nil _ _ h).elim, fun ⟨_, hno⟩ => (hno (hopens hm rfl hb)).elim⟩
  · have hb : body ≠ .empty := by
      rintro rfl
      exact hc rfl
    exact ⟨fun h => (List.cons_ne_nil _ _ h).elim, fun ⟨_, hno⟩ => (hno (hopens hm rfl hb)).elim⟩
  · simp
  · have hnext := hs.kind?_of_opens ht (hs.opens_of_meaning? ht hm rfl).2
    have hbody : s.HoldsObject next body := by
      by_contra hno
      exact hc ((ih next hnext).mpr ⟨hi, hno⟩)
    exact ⟨fun h => (List.cons_ne_nil _ _ h).elim, fun ⟨_, hno⟩ => (hno (hopens hm rfl hbody)).elim⟩
  · refine ⟨fun _ => ⟨rfl, ?_⟩, fun _ => rfl⟩
    rintro ⟨st, next, hkey, ho, hholds⟩
    obtain ⟨m, hm, hst⟩ := Option.bind_eq_some_iff.mp ((hs.opens_iff ht).mp ⟨hkey, ho⟩)
    cases m with
    | typename => cases hst
    | leaf f => cases hst
    | composite f kind =>
      cases hst
      exact hholds (hfield f kind hm)
    | branch next' kind =>
      cases hst
      exact ((ih next (hs.kind?_of_opens ht ho)).mp (hbranch next kind hm)).2 hholds

/-- A tree contributes nothing exactly if no item comes out of it and it holds no field with a body. -/
theorem contributions_eq_nil_iff : ∀ (t : Tree) {type : String}, (s.kind? type).isSome →
    (s.contributions provider type t = [] ↔
      items (s.contributions provider type t) = [] ∧ ¬ s.HoldsObject type t)
  | .empty, _, _ => ⟨fun _ => ⟨rfl, not_holdsObject_empty⟩, fun _ => rfl⟩
  | .leaf key selected rest, type, ht => by
    have hleaf : (s.leafContribution provider type key selected).toList = [] ↔
        items (s.leafContribution provider type key selected).toList = [] := by
      rcases leafContribution_cases s provider type key selected with ⟨_, _, he⟩ | ⟨f, _, _, he⟩ | ⟨_, he⟩ <;>
        rw [he] <;> simp
    rw [contributions, items_append, List.append_eq_nil_iff, List.append_eq_nil_iff, hleaf,
      contributions_eq_nil_iff rest ht, holdsObject_leaf, and_assoc]
  | .branch key role body rest, type, ht => by
    rw [contributions_branch, items_append, List.append_eq_nil_iff, List.append_eq_nil_iff,
      branchContributions_eq_nil_iff hs ht fun next hnext => contributions_eq_nil_iff body hnext,
      contributions_eq_nil_iff rest ht, holdsObject_branch, not_or, and_and_and_comm]

/-- A tree selects something exactly if an item comes out of it. -/
theorem hasSelection_iff (provider : ArgumentProvider) {type : String} (ht : (s.kind? type).isSome) (t : Tree) :
    s.HasSelection type t ↔ items (s.contributions provider type t) ≠ [] := by
  constructor
  · rintro ⟨p, hp⟩ he
    have hm : p ∈ itemPaths (items (s.contributions provider type t)) := (mem_paths_contributions hs t ht).mpr hp
    rw [he] at hm
    cases hm
  · intro hne
    obtain ⟨p, hp⟩ := List.exists_mem_of_ne_nil _ (itemPaths_ne_nil hne (fits_of_mem_items hs t ht))
    exact ⟨p, (mem_paths_contributions hs t ht).mp hp⟩

/-- The touched items of a tree that selects nothing are its touched fields, in the order of the tree. -/
theorem exists_touchedItems_eq_map (provider : ArgumentProvider) {type : String} (ht : (s.kind? type).isSome)
    {t : Tree} (hno : ¬ s.HasSelection type t) :
    ∃ fs : List Field,
      touchedItems (s.contributions provider type t) = fs.map (fun f => .composite f.name (provider s type f) []) ∧
      (fs.map Field.name).Sublist t.keys ∧ ∀ f, f ∈ fs ↔ s.IsTouched type t f := by
  obtain ⟨fs, hfs, hkeys, hmem⟩ := exists_touchedItems_eq s provider hs ht t
  refine ⟨fs, hfs, hkeys, fun f => ?_⟩
  rw [hmem]
  constructor
  · rintro ⟨key, role, body, kind, hentry, hb, hm, hc⟩
    obtain ⟨hf, hk, hcomposite⟩ := hs.meaning?_eq_composite_iff.mp hm
    obtain ⟨_, rfl⟩ := mem_fields_of_field? hf
    have ho : s.Opens type (.field f.name) f.type.base := .field hf hk hcomposite
    exact ⟨role, body, hentry, hb, hf, ho, ((contributions_eq_nil_iff hs body (hs.kind?_of_opens ht ho)).mp hc).2⟩
  · rintro ⟨role, body, hentry, hb, hf, ho, hholds⟩
    have hnext := hs.kind?_of_opens ht ho
    have hbody : items (s.contributions provider f.type.base body) = [] := by
      by_contra hne
      exact hno (.of_mem_entries hentry ho ((hasSelection_iff hs provider hnext body).mpr hne))
    have hnil := (contributions_eq_nil_iff hs body hnext).mpr ⟨hbody, hholds⟩
    obtain ⟨f', kind, hf', hk, hcomposite, _⟩ := opens_field.mp ho
    obtain rfl := Option.some.inj (hf.symm.trans hf')
    exact ⟨f.name, role, body, kind, hentry, hb, hs.meaning?_eq_composite_iff.mpr ⟨hf, hk, hcomposite⟩, hnil⟩

end Trees

/-! ## Operations -/

/-- The text of an operation: its keyword, its name if it has one, and its selection set. -/
theorem write_eq (op : Operation) : op.write =
    op.kind.keyword ++ op.name?.elim "" (" " ++ ·) ++ " " ++ String.ofList (writeSet op.items) := by
  apply String.toList_injective
  rw [Operation.write, Operation.writeChars, String.toList_ofList]
  cases op.name? <;> simp [Operation.writeName]

/-- The shape of an operation. If a selected leaf of the tree resolves, then no selection set is empty and the name is
written between the keyword and the items. If none does, then the touched fields of the root are written with empty
selection sets, in the order of the tree and behind the name too, and if there is no such field, then only the keyword
and an empty selection set are written. -/
theorem serialize_shape (hs : s.IsValid) {tree : Tree} {o : Options} {text : String}
    (h : s.serialize tree o = .ok text) :
    ∃ root op, s.root? o.kind = some root ∧ s.operation tree o = .ok op ∧ op.write = text ∧ op.kind = o.kind ∧
      (s.HasSelection root tree → op.name? = o.name? ∧
        text = o.kind.keyword ++ o.name?.elim "" (" " ++ ·) ++ " " ++ String.ofList (writeSet op.items) ∧
        op.items ≠ [] ∧ ∀ i ∈ op.items, s.Fits root i) ∧
      (¬ s.HasSelection root tree → (∃ f, s.IsTouched root tree f) → op.name? = o.name? ∧
        text = o.kind.keyword ++ o.name?.elim "" (" " ++ ·) ++ " " ++ String.ofList (writeSet op.items) ∧
        ∃ fs : List Field, op.items = fs.map (fun f => .composite f.name (o.provider s root f) []) ∧
          (fs.map Field.name).Sublist tree.keys ∧ ∀ f, f ∈ fs ↔ s.IsTouched root tree f) ∧
      (¬ s.HasSelection root tree → (¬ ∃ f, s.IsTouched root tree f) → text = o.kind.keyword ++ " {}") := by
  obtain ⟨op, hop, rfl⟩ := serialize_eq_ok h
  obtain ⟨root, hroot, _, hkind, hitems, hname⟩ := operation_eq_ok hop
  have ht : (s.kind? root).isSome := hs.kind?_root hroot ▸ rfl
  refine ⟨root, op, hroot, hop, rfl, hkind, fun hsel => ?_, fun hno ⟨f, hf⟩ => ?_, fun hno hnone => ?_⟩
  · have hne := (hasSelection_iff hs o.provider ht tree).mp hsel
    rw [rootItems_eq_items hne] at hitems
    rw [← hitems] at hne
    have hname : op.name? = o.name? := by rw [hname, if_neg hne]
    exact ⟨hname, by rw [write_eq, hkind, hname], hne, hitems ▸ fits_of_mem_items hs tree ht⟩
  · have he := not_not.mp (mt (hasSelection_iff hs o.provider ht tree).mpr hno)
    obtain ⟨fs, hfs, hkeys, hmem⟩ := exists_touchedItems_eq_map hs o.provider ht hno
    rw [rootItems_eq_touchedItems he, hfs] at hitems
    have hne : op.items ≠ [] := by
      rw [hitems, Ne, List.map_eq_nil_iff]
      exact List.ne_nil_of_mem ((hmem f).mpr hf)
    have hname : op.name? = o.name? := by rw [hname, if_neg hne]
    exact ⟨hname, by rw [write_eq, hkind, hname], fs, hitems, hkeys, hmem⟩
  · have he := not_not.mp (mt (hasSelection_iff hs o.provider ht tree).mpr hno)
    obtain ⟨fs, hfs, hkeys, hmem⟩ := exists_touchedItems_eq_map hs o.provider ht hno
    have hnil : fs = [] := List.eq_nil_iff_forall_not_mem.mpr fun f hf => hnone ⟨f, (hmem f).mp hf⟩
    rw [rootItems_eq_touchedItems he, hfs, hnil, List.map_nil] at hitems
    have hname : op.name? = none := by rw [hname, if_pos hitems]
    have hset : String.ofList (writeSet op.items) = "{}" := by rw [hitems, writeSet]
    rw [write_eq, hkind, hname, hset, Option.elim_none, String.append_empty, String.append_assoc]
    rfl

/-- A touched field with arguments left out beside one that holds a touched field itself. -/
theorem serialize_shape_touched : ∃ (s : Schema) (tree : Tree) (o : Options) (text : String),
    s.IsValid ∧ s.serialize tree o = .ok text ∧ text = "query Touched { user {} }" ∧
    ∃ root op, s.root? o.kind = some root ∧ s.operation tree o = .ok op ∧ op.write = text ∧ op.kind = o.kind ∧
      (s.HasSelection root tree → op.name? = o.name? ∧
        text = o.kind.keyword ++ o.name?.elim "" (" " ++ ·) ++ " " ++ String.ofList (writeSet op.items) ∧
        op.items ≠ [] ∧ ∀ i ∈ op.items, s.Fits root i) ∧
      (¬ s.HasSelection root tree → (∃ f, s.IsTouched root tree f) → op.name? = o.name? ∧
        text = o.kind.keyword ++ o.name?.elim "" (" " ++ ·) ++ " " ++ String.ofList (writeSet op.items) ∧
        ∃ fs : List Field, op.items = fs.map (fun f => .composite f.name (o.provider s root f) []) ∧
          (fs.map Field.name).Sublist tree.keys ∧ ∀ f, f ∈ fs ↔ s.IsTouched root tree f) ∧
      (¬ s.HasSelection root tree → (¬ ∃ f, s.IsTouched root tree f) → text = o.kind.keyword ++ " {}") := by
  let tree : Tree := .branch "user" .node (.leaf "id" false .empty)
    (.branch "me" .node (.branch "friend" .node (.leaf "id" false .empty) .empty) .empty)
  let o : Options := { name? := some "Touched" }
  obtain ⟨s, hs, h⟩ := exists_isValid_of_parse
    "type User { id: ID friend: User } type Query { user(id: ID): User me: User }"
    (fun s => decide ((s.serialize tree o).toOption = some "query Touched { user {} }"))
    (by decide +kernel)
  have htext := eq_ok_of_toOption_eq_some (of_decide_eq_true h)
  exact ⟨s, tree, o, _, hs, htext, rfl, serialize_shape hs htext⟩

end Schema

end GraphSelect
