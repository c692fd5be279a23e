import GraphSelect.Proofs.Operation.Merging
import GraphSelect.Proofs.Operation.Sets

/-!
# Arguments decorate

The arguments of a field are looked up when it is written, and nothing is decided by them. Without its arguments
(`Operation.bare`), an operation is the one that is written with no arguments at all, so it is the same for all
providers (`map_bare_operation`). What a provider answers for a field on the type of the selection set that the field
stands in is what the field has, at every depth (`fieldsHave_of_setAt`), touched fields of the root included
(`serialize_arguments`).
-/

namespace GraphSelect

/-! ## Items without arguments -/

mutual

/-- An item without the arguments of its fields, at every depth. -/
def Item.bare : Item → Item
  | .typename => .typename
  | .scalar name _ => .scalar name []
  | .composite name _ body => .composite name [] (bareItems body)
  | .fragment type body => .fragment type (bareItems body)

/-- A selection set without the arguments of its fields, at every depth. -/
def bareItems : List Item → List Item
  | [] => []
  | i :: is => i.bare :: bareItems is

end

theorem bareItems_eq_map (is : List Item) : bareItems is = is.map Item.bare := by
  induction is with
  | nil => rfl
  | cons i is ih => rw [bareItems, ih, List.map_cons]

/-- An operation without the arguments of its fields. -/
def Operation.bare (op : Operation) : Operation := { op with items := op.items.map Item.bare }

@[simp] theorem Item.isTypename_bare (i : Item) : i.bare.isTypename = i.isTypename := by
  cases i <;> rfl

@[simp] theorem Item.isField_bare (i : Item) : i.bare.isField = i.isField := by
  cases i <;> rfl

@[simp] theorem Item.isFragment_bare (i : Item) : i.bare.isFragment = i.isFragment := by
  cases i <;> rfl

namespace Contribution

/-- A contribution without the arguments of fields. -/
def bare : Contribution → Contribution
  | .item i => .item i.bare
  | .touched i => .touched i.bare
  | .hollow => .hollow

theorem items_map_bare (cs : List Contribution) : items (cs.map bare) = (items cs).map Item.bare := by
  induction cs with
  | nil => rfl
  | cons c cs ih =>
    cases c with
    | item i => exact congrArg (i.bare :: ·) ih
    | touched i => exact ih
    | hollow => exact ih

theorem touchedItems_map_bare (cs : List Contribution) :
    touchedItems (cs.map bare) = (touchedItems cs).map Item.bare := by
  induction cs with
  | nil => rfl
  | cons c cs ih =>
    cases c with
    | item i => exact ih
    | touched i => exact congrArg (i.bare :: ·) ih
    | hollow => exact ih

/-- The order of a body has nothing to do with arguments. -/
theorem arrange_map_bare (sorted : Bool) (is : List Item) :
    arrange sorted (is.map Item.bare) = (arrange sorted is).map Item.bare := by
  cases sorted with
  | false => rfl
  | true =>
    simp only [arrange, if_true, sortItems, List.filter_map, List.map_append, Function.comp_def, Item.isTypename_bare,
      Item.isField_bare, Item.isFragment_bare]

section Bodies

variable {write write' : List Item → Item} (hwrite : ∀ is, (write is).bare = write' (is.map Item.bare)) (sorted : Bool)
  (cs : List Contribution)
include hwrite

theorem bare_ofField : (ofField sorted write cs).bare = ofField sorted write' (cs.map bare) := by
  unfold ofField
  rw [items_map_bare]
  cases items cs with
  | nil =>
    cases cs with
    | nil => exact congrArg touched (hwrite [])
    | cons c cs => rfl
  | cons i is =>
    show item (write (arrange sorted (i :: is))).bare = item (write' (arrange sorted ((i :: is).map Item.bare)))
    rw [hwrite, arrange_map_bare]

theorem map_bare_ofBranch : (ofBranch sorted write cs).map bare = ofBranch sorted write' (cs.map bare) := by
  unfold ofBranch
  rw [items_map_bare]
  cases items cs with
  | nil => cases cs <;> rfl
  | cons i is =>
    show some (item (write (arrange sorted (i :: is))).bare) =
      some (item (write' (arrange sorted ((i :: is).map Item.bare))))
    rw [hwrite, arrange_map_bare]

end Bodies

end Contribution

namespace Schema

open Contribution

variable {s : Schema} {provider : ArgumentProvider}

/-! ## Trees without arguments -/

theorem bare_leafContribution (type key : String) (selected : Bool) :
    (s.leafContribution provider type key selected).map bare = s.leafContribution noArguments type key selected := by
  unfold leafContribution
  split
  · cases s.meaning? type key with
    | none => rfl
    | some m => cases m <;> rfl
  · rfl

/-- Without arguments, a tree contributes what it contributes when no field has any. -/
theorem map_bare_contributions : ∀ (t : Tree) (type : String),
    (s.contributions provider type t).map bare = s.contributions noArguments type t
  | .empty, _ => rfl
  | .leaf key selected rest, type => by
    rw [contributions, contributions, List.map_append, map_bare_contributions rest, ← bare_leafContribution]
    cases s.leafContribution provider type key selected <;> rfl
  | .branch key role body rest, type => by
    rw [contributions_branch, contributions_branch, List.map_append, map_bare_contributions rest,
      branchContributions_eq, branchContributions_eq]
    congr 1
    cases s.meaning? type key with
    | none => rfl
    | some m =>
      cases m with
      | typename => rfl
      | leaf f => rfl
      | composite f kind =>
        dsimp only
        split
        · rfl
        · rw [List.map_singleton, bare_ofField, map_bare_contributions body]
          exact fun is => by rw [Item.bare, bareItems_eq_map]; rfl
      | branch next kind =>
        dsimp only
        rw [← map_bare_contributions body, ← map_bare_ofBranch]
        · cases ofBranch (isSorted kind role) (.fragment next) (s.contributions provider next body) <;> rfl
        · exact fun is => by rw [Item.bare, bareItems_eq_map]

theorem map_bare_rootItems (cs : List Contribution) : (rootItems cs).map Item.bare = rootItems (cs.map bare) := by
  unfold rootItems
  rw [items_map_bare, touchedItems_map_bare]
  cases items cs <;> rfl

/-- Without arguments, an operation is the one that is written with none, or fails in the same way. -/
theorem map_bare_operation (tree : Tree) (o : Options) :
    (s.operation tree o).map Operation.bare =
      s.operation tree { o with requiredArguments := .omit, provider? := none } := by
  unfold operation
  cases s.root? o.kind with
  | none => rfl
  | some root =>
    dsimp only
    split
    · rfl
    · have hitems : (rootItems (s.contributions o.provider root tree)).map Item.bare =
          rootItems (s.contributions noArguments root tree) := by
        rw [map_bare_rootItems, map_bare_contributions]
      have hprovider : Options.provider { o with requiredArguments := .omit, provider? := none } = noArguments := rfl
      rw [hprovider, ← hitems, List.isEmpty_map]
      rfl

/-! ## Arguments at their places -/

/-- Every field of a selection set has the arguments that a provider answers for it on a type. -/
def FieldsHave (s : Schema) (provider : ArgumentProvider) (type : String) (is : List Item) : Prop :=
  ∀ i ∈ is, i.isField = true → ∃ f, i.step = .field f.name ∧ s.field? type f.name = some f ∧
    i.arguments = provider s type f

theorem fieldsHave_of_written {type : String} {is : List Item} (h : ∀ i ∈ is, s.Written provider type i) :
    s.FieldsHave provider type is := by
  intro i hi hfield
  cases h i hi with
  | typename => cases hfield
  | scalar hf _ => exact ⟨_, rfl, hf, rfl⟩
  | composite hf _ _ _ _ => exact ⟨_, rfl, hf, rfl⟩
  | fragment _ _ _ => cases hfield

/-- The steps to a selection set in the items of the root lead to a type on which its fields have what the provider
answers for them. -/
theorem fieldsHave_of_setAt (hs : s.IsValid) {type : String} (ht : (s.kind? type).isSome) {t : Tree} {p : List Step}
    {is : List Item} (h : SetAt (rootItems (s.contributions provider type t)) p is) :
    ∃ next, s.Follows type p next ∧ s.FieldsHave provider next is := by
  by_cases he : items (s.contributions provider type t) = []
  · -- Touched fields have empty selection sets, and nothing stands inside those.
    obtain ⟨fs, hfs, _, hmem⟩ := exists_touchedItems_eq s provider hs ht t
    have hfield : ∀ f ∈ fs, s.field? type f.name = some f ∧ s.Opens type (.field f.name) f.type.base := by
      intro f hf
      obtain ⟨key, role, body, kind, _, _, hm, _⟩ := (hmem f).mp hf
      obtain ⟨hf', hk, hc⟩ := hs.meaning?_eq_composite_iff.mp hm
      obtain ⟨_, rfl⟩ := mem_fields_of_field? hf'
      exact ⟨hf', .field hf' hk hc⟩
    rw [rootItems_eq_touchedItems he, hfs] at h
    cases h with
    | nil =>
      refine ⟨type, .nil, fun i hi _ => ?_⟩
      obtain ⟨f, hf, rfl⟩ := List.mem_map.mp hi
      exact ⟨f, rfl, (hfield f hf).1, rfl⟩
    | cons hi hbody hset =>
      obtain ⟨f, hf, rfl⟩ := List.mem_map.mp hi
      cases hbody
      cases hset with
      | nil => exact ⟨_, .cons (hfield f hf).2 .nil, fun i hi => absurd hi List.not_mem_nil⟩
      | cons hi _ _ => cases hi
  · rw [rootItems_eq_items he] at h
    obtain ⟨next, hp, hw⟩ := exists_written_of_setAt h (written_of_mem_items hs t ht)
    exact ⟨next, hp, fieldsHave_of_written hw⟩

/-- Every field of an operation, at any depth, has the arguments that the options give it on the type of the selection
set that it stands in: what a provider answers, if there is one, and else placeholders or nothing. -/
def Answered (s : Schema) (o : Options) (op : Operation) : Prop :=
  ∃ root, s.root? o.kind = some root ∧ ∀ p is, SetAt op.items p is → ∃ type, s.Follows root p type ∧
    (∀ provider, o.provider? = some provider → s.FieldsHave provider type is) ∧
    (o.provider? = none → o.requiredArguments = .placeholder → s.FieldsHave placeholderArguments type is) ∧
    (o.provider? = none → o.requiredArguments = .omit → ∀ i ∈ is, i.arguments = [])

/-- An operation has the arguments that its options ask for. -/
theorem answered_of_operation (hs : s.IsValid) {tree : Tree} {o : Options} {op : Operation}
    (h : s.operation tree o = .ok op) : s.Answered o op := by
  obtain ⟨root, hroot, _, _, hitems, _⟩ := operation_eq_ok h
  refine ⟨root, hroot, fun p is hset => ?_⟩
  rw [hitems] at hset
  obtain ⟨type, hp, hhave⟩ := fieldsHave_of_setAt hs (hs.kind?_root hroot ▸ rfl) hset
  unfold Options.provider at hhave
  refine ⟨type, hp, fun provider ho => ?_, fun ho hr => ?_, fun ho hr i hi => ?_⟩
  · rwa [ho] at hhave
  · rwa [ho, hr] at hhave
  · rw [ho, hr] at hhave
    cases hfield : i.isField with
    | true =>
      obtain ⟨_, _, _, he⟩ := hhave i hi hfield
      exact he
    | false => cases i <;> first | rfl | cases hfield

/-- Arguments decorate an operation and select nothing. Two choices of arguments fail alike, or give operations that are
the same without their arguments. In each of the two, every field has the arguments that are chosen for it on the type
of the selection set that it stands in. -/
theorem serialize_arguments (hs : s.IsValid) (tree : Tree) (o : Options) (required : RequiredArguments)
    (provider? : Option ArgumentProvider) :
    (∃ error, s.serialize tree o = .error error ∧
      s.serialize tree { o with requiredArguments := required, provider? := provider? } = .error error) ∨
    ∃ op op', s.operation tree o = .ok op ∧
      s.operation tree { o with requiredArguments := required, provider? := provider? } = .ok op' ∧
      s.serialize tree o = .ok op.write ∧
      s.serialize tree { o with requiredArguments := required, provider? := provider? } = .ok op'.write ∧
      op.bare = op'.bare ∧ s.Answered o op ∧
      s.Answered { o with requiredArguments := required, provider? := provider? } op' := by
  generalize ho : { o with requiredArguments := required, provider? := provider? : Options } = o'
  have hbare : (s.operation tree o).map Operation.bare = (s.operation tree o').map Operation.bare := by
    rw [map_bare_operation, map_bare_operation, ← ho]
  cases hop : s.operation tree o with
  | error error =>
    cases hop' : s.operation tree o' with
    | error error' =>
      rw [hop, hop'] at hbare
      cases hbare
      exact .inl ⟨error, serialize_eq_error_iff.mpr hop, serialize_eq_error_iff.mpr hop'⟩
    | ok op' =>
      rw [hop, hop'] at hbare
      cases hbare
  | ok op =>
    cases hop' : s.operation tree o' with
    | error error' =>
      rw [hop, hop'] at hbare
      cases hbare
    | ok op' =>
      rw [hop, hop'] at hbare
      have htext : s.serialize tree o = .ok op.write := by rw [serialize, hop]; rfl
      have htext' : s.serialize tree o' = .ok op'.write := by rw [serialize, hop']; rfl
      exact .inr ⟨op, op', rfl, hop'.symm ▸ rfl, htext, htext', Except.ok.inj hbare, answered_of_operation hs hop,
        answered_of_operation hs hop'⟩

/-- Placeholders, and instead of them a provider that answers differently on an interface and on a type inside it. -/
theorem serialize_arguments_table : ∃ (s : Schema) (tree : Tree) (o : Options) (required : RequiredArguments)
    (provider? : Option ArgumentProvider), s.IsValid ∧
    s.serialize tree o = .ok "query { node(index: 0) { posts ... on User { posts } } }" ∧
    s.serialize tree { o with requiredArguments := required, provider? := provider? } =
      .ok "query { node { posts(first: 1) ... on User { posts(first: 2) } } }" ∧
    ((∃ error, s.serialize tree o = .error error ∧
      s.serialize tree { o with requiredArguments := required, provider? := provider? } = .error error) ∨
    ∃ op op', s.operation tree o = .ok op ∧
      s.operation tree { o with requiredArguments := required, provider? := provider? } = .ok op' ∧
      s.serialize tree o = .ok op.write ∧
      s.serialize tree { o with requiredArguments := required, provider? := provider? } = .ok op'.write ∧
      op.bare = op'.bare ∧ s.Answered o op ∧
      s.Answered { o with requiredArguments := required, provider? := provider? } op') := by
  let tree : Tree := .branch "node" .fragment (.leaf "posts" true
    (.branch "on_User" .node (.leaf "posts" true .empty) .empty)) .empty
  let o : Options := { requiredArguments := .placeholder }
  let table : List ArgumentEntry :=
    [⟨"Node", "posts", [("first", .int "1")]⟩, ⟨"User", "posts", [("first", .int "2")]⟩]
  let o' : Options := { o with requiredArguments := .placeholder, provider? := some (.ofTable table) }
  obtain ⟨s, hs, h⟩ := exists_isValid_of_parse
    "interface Node { posts(first: Int): [ID] } type User implements Node { posts(first: Int): [ID] }
     type Query { node(index: Int!): Node }"
    (fun s => decide ((s.serialize tree o).toOption = some "query { node(index: 0) { posts ... on User { posts } } }" ∧
      (s.serialize tree o').toOption = some "query { node { posts(first: 1) ... on User { posts(first: 2) } } }"))
    (by decide +kernel)
  obtain ⟨htext, htext'⟩ := of_decide_eq_true h
  exact ⟨s, tree, o, .placeholder, some (.ofTable table), hs, eq_ok_of_toOption_eq_some htext,
    eq_ok_of_toOption_eq_some htext', serialize_arguments hs tree o .placeholder (some (.ofTable table))⟩

end Schema

end GraphSelect
