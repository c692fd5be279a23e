import GraphSelect.Proofs.Document.Reading
import GraphSelect.Proofs.Operation.Shape

/-!
# Reading back what was written

The text of an operation that selects something is a document with that operation and nothing else: with its kind, its
name, and the same fields, arguments and fragments in the same order (`serialize_reads`). This holds of any tree, as no
key of a tree is written, but the names of fields and types of the schema, which are GraphQL names; and of arguments
that are left out or placeholders, which are small literals (`IsValid.isPlaceholder_of_placeholder?`).
-/

namespace GraphSelect

namespace Schema

variable {s : Schema}

/-! ## Placeholders -/

/-- What comes out of a list of steps that all succeed came out of one of the steps. -/
theorem exists_of_mem_mapM {α β : Type} {f : α → Option β} : ∀ {xs : List α} {ys : List β}, xs.mapM f = some ys →
    ∀ y ∈ ys, ∃ x ∈ xs, f x = some y
  | [], ys, h, y, hy => by
    cases h
    cases hy
  | x :: xs, ys, h, y, hy => by
    rw [List.mapM_cons] at h
    obtain ⟨z, hz, h⟩ := Option.bind_eq_some_iff.mp h
    obtain ⟨zs, hzs, h⟩ := Option.bind_eq_some_iff.mp h
    cases h
    rcases List.mem_cons.mp hy with rfl | hy
    · exact ⟨x, List.mem_cons_self, hz⟩
    · obtain ⟨x', hx', he⟩ := exists_of_mem_mapM hzs y hy
      exact ⟨x', List.mem_cons_of_mem _ hx', he⟩

/-- The literal that is given for a type is a placeholder: its enum values and the names of its fields are names. -/
theorem IsValid.isPlaceholder_of_placeholder? (hs : s.IsValid) : ∀ {levels : Nat} {type : TypeRef} {value : Literal},
    placeholder? s levels type = some value → value.IsPlaceholder
  | 0, _, _, h => by cases h
  | _ + 1, .list _ _, _, h => by
    cases h
    exact .emptyList
  | levels + 1, .named name _, value, h => by
    unfold placeholder? at h
    split at h
    · cases h
      exact .zero
    · cases h
      exact .zeroPointZero
    · cases h
      exact .bool
    · cases h
      exact .emptyString
    · cases h
      exact .emptyString
    · split at h
      · cases h
        exact .emptyString
      · rename_i values hbody
        obtain ⟨v, hv, rfl⟩ := Option.map_eq_some_iff.mp h
        have hnamed := List.all_eq_true.mp (hs.isNamed_of_body? hbody) v (List.mem_of_mem_head? hv)
        obtain ⟨hname, hno⟩ := Bool.and_eq_true_iff.mp hnamed
        exact .enum hname (of_decide_eq_true hno)
      · rename_i fields hbody
        obtain ⟨given, hgiven, rfl⟩ := Option.map_eq_some_iff.mp h
        have hmem : ∀ g ∈ given, ∃ f ∈ fields, ∃ v, placeholder? s levels f.type = some v ∧ (f.name, v) = g := by
          intro g hg
          obtain ⟨f, hf, he⟩ := exists_of_mem_mapM hgiven g hg
          exact ⟨f, (List.mem_filter.mp hf).1, Option.map_eq_some_iff.mp he⟩
        refine .object (fun g hg => ?_) fun g hg => ?_
        · obtain ⟨f, hf, v, _, rfl⟩ := hmem g hg
          exact List.all_eq_true.mp (hs.isNamed_of_body? hbody) f hf
        · obtain ⟨f, _, v, hv, rfl⟩ := hmem g hg
          exact hs.isPlaceholder_of_placeholder? hv
      · cases h

theorem IsValid.arePlaceholders (hs : s.IsValid) {provider : ArgumentProvider} (hprovider : IsStandard provider)
    {type : String} {f : Field} (hf : f ∈ s.fields type) : ArePlaceholders (provider s type f) := by
  rcases hprovider with rfl | rfl
  · intro a ha
    cases ha
  · intro a ha
    obtain ⟨v, hv, he⟩ := List.mem_filterMap.mp ha
    obtain ⟨value, hvalue, rfl⟩ := Option.map_eq_some_iff.mp he
    obtain ⟨_, harguments⟩ := Bool.and_eq_true_iff.mp (hs.isNamed_of_mem_fields hf)
    have hname := List.all_eq_true.mp harguments v (List.mem_filter.mp hv).1
    exact ⟨hname, hs.isPlaceholder_of_placeholder? hvalue⟩

/-! ## Written items -/

/-- An item that is written on a type has a spelling. -/
theorem Written.isSpellable (hs : s.IsValid) {provider : ArgumentProvider} (hprovider : IsStandard provider)
    {type : String} {i : Item} (h : s.Written provider type i) (ht : (s.kind? type).isSome) : i.IsSpellable := by
  induction h with
  | typename => exact .typename
  | @scalar type f hf hk =>
    have hm := (mem_fields_of_field? hf).1
    have hname := (Bool.and_eq_true_iff.mp (hs.isNamed_of_mem_fields hm)).1
    exact .scalar hname (hs.ne_typename_of_mem_fields hm) (hs.arePlaceholders hprovider hm)
  | @composite type f kind body hf hk _ hne _ ih =>
    have hm := (mem_fields_of_field? hf).1
    have hname := (Bool.and_eq_true_iff.mp (hs.isNamed_of_mem_fields hm)).1
    exact .composite hname (hs.arePlaceholders hprovider hm) hne fun i hi => ih i hi (hk ▸ rfl)
  | @fragment type next body ho hne _ ih =>
    have hnext := hs.kind?_of_opens ht ho
    obtain ⟨kind, hk⟩ := Option.isSome_iff_exists.mp hnext
    exact .fragment (hs.isName_of_kind? hk) hne fun i hi => ih i hi hnext

/-! ## Texts -/

/-- The text of an operation reads back. If a selected leaf of the tree resolves, if the name that is asked for is a
GraphQL name, and if arguments are left out or placeholders, then the text is a document with exactly one operation. It
has the kind and the name that are asked for, and its items are those of the operation, each of which is written on its
type: its names are those of fields and types of the schema. -/
theorem serialize_reads (hs : s.IsValid) {tree : Tree} {o : Options} {text root : String}
    (hname : ∀ name ∈ o.name?, Token.isName name = true) (hprovider : IsStandard o.provider)
    (hroot : s.root? o.kind = some root) (hsel : s.HasSelection root tree) (h : s.serialize tree o = .ok text) :
    ∃ op spelled place, s.operation tree o = .ok op ∧ op.write = text ∧
      Document.read? text = some [.operation spelled place] ∧ spelled.operation? = some op ∧
      op.kind = o.kind ∧ op.name? = o.name? ∧ ∀ i ∈ op.items, s.Written o.provider root i := by
  obtain ⟨op, hop, rfl⟩ := serialize_eq_ok h
  obtain ⟨root', hroot', _, hkind, hitems, hopname⟩ := operation_eq_ok hop
  obtain rfl := Option.some.inj (hroot'.symm.trans hroot)
  have ht : (s.kind? root').isSome := hs.kind?_root hroot ▸ rfl
  have hne := (hasSelection_iff hs o.provider ht tree).mp hsel
  rw [rootItems_eq_items hne] at hitems
  rw [← hitems] at hne
  rw [if_neg hne] at hopname
  have hwritten : ∀ i ∈ op.items, s.Written o.provider root' i := hitems ▸ written_of_mem_items hs tree ht
  have hspellable : ∀ i ∈ op.items, i.IsSpellable := fun i hi => (hwritten i hi).isSpellable hs hprovider ht
  have hscan : Token.scan op.write.toList = some op.tokens := by
    rw [Operation.write, String.toList_ofList]
    exact scan_operation (hopname ▸ hname) hne hspellable
  obtain ⟨spelled, place, hread, hspelled⟩ := Document.exists_read?_eq hscan hne hspellable
  exact ⟨op, spelled, place, hop, rfl, hread, hspelled, hkind, hopname, hwritten⟩

/-- Names that are keywords elsewhere, for an operation, fields, types and enum values, and an argument over several
lines. -/
theorem serialize_reads_keywords : ∃ (s : Schema) (tree : Tree) (o : Options) (text root : String), s.IsValid ∧
    (∀ name ∈ o.name?, Token.isName name = true) ∧ IsStandard o.provider ∧ s.root? o.kind = some root ∧
    s.HasSelection root tree ∧ s.serialize tree o = .ok text ∧
    text = "query query \x7b query(in: \x7b\n  e: on,\n  i: \x7b\n    s: \"\",\n  \x7d,\n\x7d, n: 0.0) " ++
      "\x7b true ... on type \x7b on \x7d \x7d \x7d" ∧
    ∃ op spelled place, s.operation tree o = .ok op ∧ op.write = text ∧
      Document.read? text = some [.operation spelled place] ∧ spelled.operation? = some op ∧
      op.kind = o.kind ∧ op.name? = o.name? ∧ ∀ i ∈ op.items, s.Written o.provider root i := by
  let tree : Tree := .branch "query" .fragment (.leaf "true" true
    (.branch "on_type" .node (.leaf "on" true (.leaf "fragment" true .empty)) .empty)) .empty
  let o : Options := { name? := some "query", requiredArguments := .placeholder }
  let text := "query query \x7b query(in: \x7b\n  e: on,\n  i: \x7b\n    s: \"\",\n  \x7d,\n\x7d, n: 0.0) " ++
    "\x7b true ... on type \x7b on \x7d \x7d \x7d"
  obtain ⟨s, hs, h⟩ := exists_isValid_of_parse
    "type Query { query(in: In!, n: Float!): on } interface on { true: ID } type type implements on { true: ID on: ID }
     input In { e: E!, i: Inner! } input Inner { s: String!, l: [Int] } enum E { on query }"
    (fun s => decide ((s.serialize tree o).toOption = some text ∧ s.root? o.kind = some "Query" ∧
      (Contribution.items (s.contributions o.provider "Query" tree)).isEmpty = false))
    (by decide +kernel)
  obtain ⟨htext, hroot, hitems⟩ := of_decide_eq_true h
  have hname : ∀ name ∈ o.name?, Token.isName name = true := by
    intro name hname
    obtain rfl := Option.some.inj hname
    decide
  have hprovider : IsStandard o.provider := .inr rfl
  have hsel : s.HasSelection "Query" tree :=
    (hasSelection_iff hs o.provider (hs.kind?_root hroot ▸ rfl) tree).mpr (List.isEmpty_eq_false_iff.mp hitems)
  have hok := eq_ok_of_toOption_eq_some htext
  exact ⟨s, tree, o, text, "Query", hs, hname, hprovider, hroot, hsel, hok, rfl,
    serialize_reads hs hname hprovider hroot hsel hok⟩

end Schema

end GraphSelect
