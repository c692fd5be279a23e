import GraphSelect.Proofs.Operation.RoundTrip
import GraphSelect.Proofs.Schema.Inputs
import Mathlib

/-!
# Placeholders

A field is written with a placeholder for each argument that it requires (`placeholderArguments_fill`): none is left
out, each stands once and in order, and each is a value of the type of its argument (`Fills`), which the schema itself
would take where a directive is given one (`Fills.literalProblems_eq_nil`).

A placeholder could be missing only if it needed more levels of values than there are. Every level but the last belongs
to an input object that the one before requires, and a valid schema has at most 32 of these in a row; what stands on the
last level has none below it (`IsValid.exists_placeholder?`).
-/

namespace GraphSelect

namespace Schema

variable {s : Schema}

/-! ## Values of a type -/

/-- A literal is a value of a type. A built-in scalar has literals of its own kind and an enum its declared values, a
scalar that the schema defines itself takes a string, and the items of a list are values of its item type. An object
gives each required field of its type once and nothing else, and what it gives is a value of the type of the field. -/
inductive Fills (s : Schema) : TypeRef → Literal → Prop
  | int {nonNull : Bool} {text : String} : Token.scan text.toList = some [.int text] → fitsInt text = true →
      Fills s (.named "Int" nonNull) (.int text)
  | float {nonNull : Bool} {text : String} : Token.scan text.toList = some [.float text] →
      Fills s (.named "Float" nonNull) (.float text)
  | boolean {nonNull value : Bool} : Fills s (.named "Boolean" nonNull) (.bool value)
  | string {nonNull : Bool} {text : String} : Fills s (.named "String" nonNull) (.string text)
  | id {nonNull : Bool} {text : String} : Fills s (.named "ID" nonNull) (.string text)
  | ownScalar {name text : String} {nonNull : Bool} : name ∉ BuiltIn.scalars → s.body? name = some .scalar →
      Fills s (.named name nonNull) (.string text)
  | enum {name : String} {nonNull : Bool} {values : List EnumValue} {v : EnumValue} :
      s.body? name = some (.enum values) → v ∈ values → Fills s (.named name nonNull) (.enum v.name)
  | list {item : TypeRef} {nonNull : Bool} {items : List Literal} : (∀ i ∈ items, Fills s item i) →
      Fills s (.list item nonNull) (.list items)
  | object {name : String} {nonNull : Bool} {fields : List InputValue} {given : List (String × Literal)} :
      s.body? name = some (.input fields) →
      given.map Prod.fst = (fields.filter (·.isRequired)).map InputValue.name → (given.map Prod.fst).Nodup →
      (∀ v ∈ fields, ∀ value, (v.name, value) ∈ given → Fills s v.type value) →
      Fills s (.named name nonNull) (.object given)

theorem Fills.isNull_eq_false {type : TypeRef} {value : Literal} (h : s.Fills type value) : value.isNull = false := by
  cases h <;> rfl

theorem itemProblems_eq_nil {type : TypeRef} :
    ∀ {items : List Literal}, (∀ i ∈ items, s.literalProblems type i = []) → s.itemProblems type items = []
  | [], _ => by rw [itemProblems]
  | i :: items, h => by
    obtain ⟨hi, h⟩ := List.forall_mem_cons.mp h
    rw [itemProblems, hi, itemProblems_eq_nil h, List.nil_append]

/-- What is given for declared fields has no problem if each value has none. -/
theorem givenProblems_eq_nil {type : String} {declared : List InputValue} : ∀ {given : List (String × Literal)},
    (∀ g ∈ given, ∃ f ∈ declared, f.name = g.1) →
    (∀ g ∈ given, ∀ f ∈ declared, f.name = g.1 → s.literalProblems f.type g.2 = []) →
    s.givenProblems type declared given = []
  | [], _, _ => by rw [givenProblems]
  | (name, value) :: given, hdeclared, h => by
    obtain ⟨⟨f, hf, hname⟩, hdeclared⟩ := List.forall_mem_cons.mp hdeclared
    obtain ⟨hvalue, h⟩ := List.forall_mem_cons.mp h
    rw [givenProblems, givenProblems_eq_nil hdeclared h, List.append_nil]
    split
    · rename_i f' hfind
      exact hvalue f' (List.mem_of_find?_eq_some hfind) (by simpa using List.find?_some hfind)
    · rename_i hnone
      exact absurd (List.find?_eq_none.mp hnone f hf) (by simpa using hname)

theorem exists_lookup_eq_some {α : Type} {name : String} {given : List (String × α)} (h : name ∈ given.map Prod.fst) :
    ∃ value, given.lookup name = some value ∧ (name, value) ∈ given := by
  obtain ⟨g, hg, rfl⟩ := List.mem_map.mp h
  obtain ⟨value, hlookup⟩ := Option.isSome_iff_exists.mp (List.lookup_isSome_iff.mpr ⟨g, hg, beq_self_eq_true g.1⟩)
  obtain ⟨_, _, rfl, _⟩ := List.lookup_eq_some_iff.mp hlookup
  exact ⟨value, hlookup, List.mem_append_right _ List.mem_cons_self⟩

/-- A value of a type is one that could be given to a directive. -/
theorem Fills.literalProblems_eq_nil (hs : s.IsValid) {type : TypeRef} {value : Literal} (h : s.Fills type value) :
    s.literalProblems type value = [] := by
  have hscalar : ∀ name ∈ BuiltIn.scalars, ∃ t, s.type? name = some t ∧ t.name = name ∧ t.body = .scalar := by
    intro name hname
    obtain ⟨t, ht, hb⟩ := Option.map_eq_some_iff.mp (hs.body?_of_mem_scalars hname)
    exact ⟨t, ht, (mem_of_type? ht).2, hb⟩
  induction h with
  | int _ hfits =>
    obtain ⟨t, ht, hname, hb⟩ := hscalar "Int" (by decide)
    simp [literalProblems, TypeRef.base, ht, fitsPlain, enumProblems, hb, hname, hfits]
  | float =>
    obtain ⟨t, ht, hname, hb⟩ := hscalar "Float" (by decide)
    simp [literalProblems, TypeRef.base, ht, fitsPlain, enumProblems, hb, hname]
  | boolean =>
    obtain ⟨t, ht, hname, hb⟩ := hscalar "Boolean" (by decide)
    simp [literalProblems, TypeRef.base, ht, fitsPlain, enumProblems, hb, hname]
  | string =>
    obtain ⟨t, ht, hname, hb⟩ := hscalar "String" (by decide)
    simp [literalProblems, TypeRef.base, ht, fitsPlain, enumProblems, hb, hname]
  | id =>
    obtain ⟨t, ht, hname, hb⟩ := hscalar "ID" (by decide)
    simp [literalProblems, TypeRef.base, ht, fitsPlain, enumProblems, hb, hname]
  | ownScalar hname hbody =>
    obtain ⟨t, ht, hb⟩ := Option.map_eq_some_iff.mp hbody
    have hown : isOwnScalar t = true := by simp [isOwnScalar, hb, TypeBody.sort, (mem_of_type? ht).2, hname]
    simp [literalProblems, TypeRef.base, ht, fitsPlain, enumProblems, hb, hown]
  | @enum name nonNull values v hbody hv =>
    obtain ⟨t, ht, hb⟩ := Option.map_eq_some_iff.mp hbody
    have hany : values.any (·.name = v.name) = true := List.any_eq_true.mpr ⟨v, hv, by simp⟩
    simp [literalProblems, TypeRef.base, ht, fitsPlain, enumProblems, hb, hany]
  | list _ ih =>
    rw [literalProblems]
    split
    · rfl
    · exact itemProblems_eq_nil ih
  | @object name nonNull fields given hbody hnames _ hfills ih =>
    obtain ⟨t, ht, hb⟩ := Option.map_eq_some_iff.mp hbody
    have hgiven : s.givenProblems t.name fields given = [] := by
      refine givenProblems_eq_nil (fun g hg => ?_) fun g hg f hf hname => ih f hf g.2 (hname ▸ hg)
      obtain ⟨f, hf, hname⟩ := List.mem_map.mp (hnames ▸ List.mem_map_of_mem hg)
      exact ⟨f, (List.mem_filter.mp hf).1, hname⟩
    have hmissing : missingFields t.name fields given = [] := by
      refine List.filterMap_eq_nil_iff.mpr fun f hf => if_neg fun hmissing => ?_
      obtain ⟨hrequired, hnull⟩ := Bool.and_eq_true_iff.mp hmissing
      have hm : f.name ∈ given.map Prod.fst := hnames ▸ List.mem_map_of_mem (List.mem_filter.mpr ⟨hf, hrequired⟩)
      obtain ⟨value, hlookup, hm⟩ := exists_lookup_eq_some hm
      rw [hlookup, Option.all_some, (hfills f hf value hm).isNull_eq_false] at hnull
      cases hnull
    rw [literalProblems, TypeRef.base, ht]
    simp only [hb, hgiven, hmissing, List.append_nil]

/-! ## Placeholders -/

/-- The steps of a list all succeed with these results exactly if each does with its own. -/
theorem mapM_eq_some_iff {α β : Type} {f : α → Option β} {xs : List α} : ∀ {ys : List β},
    xs.mapM f = some ys ↔ List.Forall₂ (fun x y => f x = some y) xs ys := by
  induction xs with
  | nil =>
    intro ys
    rw [List.forall₂_nil_left_iff]
    exact ⟨fun h => (Option.some.inj h).symm, fun h => h ▸ rfl⟩
  | cons x xs ih =>
    intro ys
    simp only [List.mapM_cons, List.forall₂_cons_left_iff, Option.bind_eq_bind, Option.bind_eq_some_iff, ih]
    constructor
    · rintro ⟨y, hy, ys, hys, h⟩
      exact ⟨y, ys, hy, hys, (Option.some.inj h).symm⟩
    · rintro ⟨y, ys, hy, hys, rfl⟩
      exact ⟨y, hy, ys, hys, rfl⟩

theorem exists_mapM_eq_some {α β : Type} {f : α → Option β} : ∀ {xs : List α}, (∀ x ∈ xs, ∃ y, f x = some y) →
    ∃ ys, xs.mapM f = some ys
  | [], _ => ⟨[], rfl⟩
  | x :: xs, h => by
    obtain ⟨⟨y, hy⟩, h⟩ := List.forall_mem_cons.mp h
    obtain ⟨ys, hys⟩ := exists_mapM_eq_some h
    exact ⟨y :: ys, by simp [List.mapM_cons, hy, hys]⟩

theorem map_eq_map_of_forall₂ {α β γ : Type} {f : α → γ} {g : β → γ} {xs : List α} {ys : List β}
    (h : List.Forall₂ (fun x y => f x = g y) xs ys) : xs.map f = ys.map g := by
  rwa [← List.forall₂_eq_eq_eq, List.forall₂_map_left_iff, List.forall₂_map_right_iff]

/-- What is given for a value has its name. -/
theorem name_eq_of_map_eq_some {v : InputValue} {literal? : Option Literal} {a : String × Literal}
    (h : literal?.map (v.name, ·) = some a) : v.name = a.1 := by
  obtain ⟨_, _, rfl⟩ := Option.map_eq_some_iff.mp h
  rfl

/-- A built-in scalar has a placeholder on every level, which is one of its values. -/
theorem exists_placeholder?_scalar {name : String} (h : name ∈ BuiltIn.scalars) (nonNull : Bool) :
    ∃ value, (∀ levels, placeholder? s (levels + 1) (.named name nonNull) = some value) ∧
      s.Fills (.named name nonNull) value := by
  have hint : Token.scan "0".toList = some [.int "0"] := by decide +kernel
  have hzero : "0".toInt? = some 0 := Nat.toInt?_repr 0
  have hfits : fitsInt "0" = true := by rw [fitsInt, hzero]; rfl
  have hfloat : Token.scan "0.0".toList = some [.float "0.0"] := by decide +kernel
  obtain rfl | rfl | rfl | rfl | rfl : name = "Int" ∨ name = "Float" ∨ name = "String" ∨ name = "Boolean" ∨
      name = "ID" := by simpa [BuiltIn.scalars] using h
  · exact ⟨_, fun _ => rfl, .int hint hfits⟩
  · exact ⟨_, fun _ => rfl, .float hfloat⟩
  · exact ⟨_, fun _ => rfl, .string⟩
  · exact ⟨_, fun _ => rfl, .boolean⟩
  · exact ⟨_, fun _ => rfl, .id⟩

/-- The placeholder of a type that is neither a list nor a built-in scalar is a string, an enum value or an object. -/
theorem placeholder?_eq {name : String} (hname : name ∉ BuiltIn.scalars) (levels : Nat) (nonNull : Bool) :
    placeholder? s (levels + 1) (.named name nonNull) =
      match s.body? name with
      | some .scalar => some (.string "")
      | some (.enum values) => values.head?.map fun v => .enum v.name
      | some (.input fields) =>
        ((fields.filter (·.isRequired)).mapM fun f => (placeholder? s levels f.type).map (f.name, ·)).map .object
      | _ => none := by
  simp only [BuiltIn.scalars, List.mem_cons, List.not_mem_nil, or_false, not_or] at hname
  obtain ⟨hint, hfloat, hstring, hboolean, hid⟩ := hname
  exact placeholder?.eq_8 s levels name nonNull hint hfloat hboolean hstring hid

/-- More levels do not change a placeholder. -/
theorem placeholder?_mono : ∀ {levels more : Nat} {type : TypeRef} {value : Literal},
    placeholder? s levels type = some value → levels ≤ more → placeholder? s more type = some value
  | 0, _, _, _, h, _ => by cases h
  | _ + 1, more + 1, .list _ _, _, h, _ => h
  | levels + 1, more + 1, .named name nonNull, value, h, hle => by
    by_cases hname : name ∈ BuiltIn.scalars
    · obtain ⟨_, heq, _⟩ := exists_placeholder?_scalar hname nonNull
      rw [heq] at h ⊢
      exact h
    · rw [placeholder?_eq hname] at h ⊢
      split at h <;> try exact h
      obtain ⟨given, hgiven, rfl⟩ := Option.map_eq_some_iff.mp h
      refine Option.map_eq_some_iff.mpr ⟨given, ?_, rfl⟩
      rw [mapM_eq_some_iff] at hgiven ⊢
      refine hgiven.imp fun f g hg => ?_
      obtain ⟨value, hvalue, rfl⟩ := Option.map_eq_some_iff.mp hg
      exact Option.map_eq_some_iff.mpr ⟨value, placeholder?_mono hvalue (Nat.le_of_succ_le_succ hle), rfl⟩

/-- A placeholder is a value of its type. -/
theorem IsValid.fills_of_placeholder? (hs : s.IsValid) : ∀ {levels : Nat} {type : TypeRef} {value : Literal},
    placeholder? s levels type = some value → s.Fills type value
  | 0, _, _, h => by cases h
  | _ + 1, .list _ _, _, h => by
    cases h
    exact .list fun _ hi => absurd hi List.not_mem_nil
  | levels + 1, .named name nonNull, value, h => by
    by_cases hname : name ∈ BuiltIn.scalars
    · obtain ⟨value', heq, hfills⟩ := exists_placeholder?_scalar (s := s) hname nonNull
      rw [heq] at h
      exact Option.some.inj h ▸ hfills
    · rw [placeholder?_eq hname] at h
      split at h
      · rename_i hbody
        cases h
        exact .ownScalar hname hbody
      · rename_i values hbody
        obtain ⟨v, hv, rfl⟩ := Option.map_eq_some_iff.mp h
        exact .enum hbody (List.mem_of_mem_head? hv)
      · rename_i fields hbody
        obtain ⟨given, hgiven, rfl⟩ := Option.map_eq_some_iff.mp h
        have hd : (fields.map InputValue.name).Nodup := inputFields_of_body? hbody ▸ hs.inputNames_nodup name
        have hnames : (fields.filter (·.isRequired)).map InputValue.name = given.map Prod.fst :=
          map_eq_map_of_forall₂ ((mapM_eq_some_iff.mp hgiven).imp fun _ _ => name_eq_of_map_eq_some)
        refine .object hbody hnames.symm (hnames ▸ hd.sublist (List.filter_sublist.map _)) fun v hv value hm => ?_
        obtain ⟨f, hf, hg⟩ := exists_of_mem_mapM hgiven _ hm
        obtain ⟨value', hvalue, he⟩ := Option.map_eq_some_iff.mp hg
        obtain ⟨hname, rfl⟩ := Prod.mk.inj he
        obtain rfl := List.inj_on_of_nodup_map hd (List.mem_filter.mp hf).1 hv hname
        exact hs.fills_of_placeholder? hvalue
      · cases h

/-- A field of an input object that must be given an object requires it. -/
theorem requires_of_isRequired {name : String} {f : InputValue} {fields : List InputValue}
    (hf : f ∈ s.inputFields name) (hrequired : f.isRequired = true) (hlist : f.type.isList = false)
    (hbody : s.body? f.type.base = some (.input fields)) : s.Requires name f.type.base := by
  refine ⟨f, hf, ?_⟩
  obtain ⟨hnonNull, -⟩ := Bool.and_eq_true_iff.mp hrequired
  obtain ⟨t, ht, hb⟩ := Option.map_eq_some_iff.mp hbody
  cases htype : f.type with
  | list item nonNull => simp [htype, TypeRef.isList] at hlist
  | named type nonNull =>
    rw [htype] at hnonNull ht
    obtain rfl : nonNull = true := hnonNull
    rw [TypeRef.base] at ht ⊢
    simp [requiredInput?, htype, ht, hb, TypeBody.sort]

/-- A type of values has a placeholder on a level below which there are at least as many as input objects that are
required in a row. -/
theorem IsValid.exists_placeholder? (hs : s.IsValid) : ∀ {levels : Nat} {type : TypeRef}, s.IsInput type.base →
    (∀ fields, type.isList = false → s.body? type.base = some (.input fields) →
      ∀ rest, (type.base :: rest).IsChain s.Requires → rest.length < levels) →
    ∃ value, placeholder? s (levels + 1) type = some value
  | _, .list _ _, _, _ => ⟨_, rfl⟩
  | levels, .named name nonNull, hinput, hlevels => by
    by_cases hname : name ∈ BuiltIn.scalars
    · obtain ⟨value, heq, _⟩ := exists_placeholder?_scalar (s := s) hname nonNull
      exact ⟨value, heq levels⟩
    · obtain ⟨body, hbody, hinput⟩ := hinput
      rw [placeholder?_eq hname]
      rw [TypeRef.base] at hbody
      cases body with
      | scalar => exact ⟨_, by rw [hbody]⟩
      | enum values =>
        cases values with
        | nil => exact absurd rfl (hs.enumValues_ne_nil hbody)
        | cons v values => exact ⟨.enum v.name, by rw [hbody]; rfl⟩
      | input fields =>
        have hlevels := hlevels fields rfl hbody
        obtain ⟨fewer, rfl⟩ := Nat.exists_eq_succ_of_ne_zero (hlevels [] (List.isChain_singleton _)).ne'
        have hgiven : ∀ f ∈ fields.filter (·.isRequired), ∃ g,
            (placeholder? s (fewer + 1) f.type).map (f.name, ·) = some g := by
          intro f hf
          obtain ⟨hf, hrequired⟩ := List.mem_filter.mp hf
          have hmem : f ∈ s.inputFields name := inputFields_of_body? hbody ▸ hf
          obtain ⟨value, hvalue⟩ : ∃ value, placeholder? s (fewer + 1) f.type = some value := by
            refine hs.exists_placeholder? (hs.isInput_of_mem_inputFields hmem) fun below hlist hb rest hchain => ?_
            -- A row that starts at the type of the field goes on from the input object that requires it.
            have hrequires := requires_of_isRequired hmem hrequired hlist hb
            exact Nat.lt_of_succ_lt_succ (hlevels _ (List.isChain_cons_cons.mpr ⟨hrequires, hchain⟩))
          exact ⟨_, by rw [hvalue]; rfl⟩
        obtain ⟨given, hgiven⟩ := exists_mapM_eq_some hgiven
        exact ⟨.object given, by rw [hbody]; exact Option.map_eq_some_iff.mpr ⟨given, hgiven, rfl⟩⟩
      | _ => cases hinput

/-- What comes of a list if every step succeeds is one result for each, in order. -/
theorem forall₂_filterMap {α β : Type} {f : α → Option β} : ∀ {xs : List α}, (∀ x ∈ xs, ∃ y, f x = some y) →
    List.Forall₂ (fun x y => f x = some y) xs (xs.filterMap f)
  | [], _ => .nil
  | x :: xs, h => by
    obtain ⟨⟨y, hy⟩, h⟩ := List.forall_mem_cons.mp h
    rw [List.filterMap_cons_some hy]
    exact .cons hy (forall₂_filterMap h)

/-- Each argument that a field requires is given one literal, in order, and nothing else is given. The literal is a
value of the type of the argument, which the schema would take too, and more levels would not change it. -/
theorem placeholderArguments_fill (hs : s.IsValid) {parent type : String} {f : Field} (hf : f ∈ s.fields type) :
    ((placeholderArguments s parent f).map Prod.fst).Nodup ∧
    List.Forall₂ (fun (v : InputValue) (a : String × Literal) => a.1 = v.name ∧ s.Fills v.type a.2 ∧
        s.literalProblems v.type a.2 = [] ∧ ∀ levels > placeholderDepth, placeholder? s levels v.type = some a.2)
      (f.arguments.filter (·.isRequired)) (placeholderArguments s parent f) := by
  have hexists : ∀ v ∈ f.arguments.filter (·.isRequired), ∃ a,
      (placeholder? s (placeholderDepth + 1) v.type).map (v.name, ·) = some a := by
    intro v hv
    have hinput := hs.isInput_of_mem_arguments hf (List.mem_filter.mp hv).1
    obtain ⟨value, hvalue⟩ : ∃ value, placeholder? s (placeholderDepth + 1) v.type = some value :=
      hs.exists_placeholder? hinput fun _ _ _ rest hchain => hs.length_le_of_isChain hchain
    exact ⟨_, by rw [hvalue]; rfl⟩
  have hgiven : List.Forall₂ (fun v a => (placeholder? s (placeholderDepth + 1) v.type).map (v.name, ·) = some a)
      (f.arguments.filter (·.isRequired)) (placeholderArguments s parent f) := forall₂_filterMap hexists
  constructor
  · have hnames := map_eq_map_of_forall₂ (hgiven.imp fun _ _ => name_eq_of_map_eq_some)
    exact hnames ▸ (hs.argumentNames_nodup hf).sublist (List.filter_sublist.map _)
  · refine hgiven.imp fun v a ha => ?_
    obtain ⟨value, hvalue, rfl⟩ := Option.map_eq_some_iff.mp ha
    have hfills := hs.fills_of_placeholder? hvalue
    exact ⟨rfl, hfills, hfills.literalProblems_eq_nil hs, fun _ hlevels => placeholder?_mono hvalue hlevels⟩

/-- An order needs an object with an object of its own, and a time, but neither a note nor a limit. -/
theorem placeholderArguments_fill_order : ∃ (s : Schema) (f : Field), s.IsValid ∧ f ∈ s.fields "Query" ∧
    (placeholderArguments s "Query" f).map Prod.fst = ["in", "at"] ∧
    ((placeholderArguments s "Query" f).map Prod.fst).Nodup ∧
    List.Forall₂ (fun (v : InputValue) (a : String × Literal) => a.1 = v.name ∧ s.Fills v.type a.2 ∧
        s.literalProblems v.type a.2 = [] ∧ ∀ levels > placeholderDepth, placeholder? s levels v.type = some a.2)
      (f.arguments.filter (·.isRequired)) (placeholderArguments s "Query" f) := by
  obtain ⟨s, hs, h⟩ := exists_isValid_of_parse
    "type Query { order(in: In!, at: Time!, note: ID, limit: Int! = 3): ID } input In { line: Line! more: [In!]! }
     input Line { by: Sort! } enum Sort { UP } scalar Time"
    (fun s => (s.field? "Query" "order").any fun f => decide
      ((placeholderArguments s "Query" f).map Prod.fst = ["in", "at"]))
    (by decide +kernel)
  obtain ⟨f, hf, hnames⟩ := (Option.any_eq_true _ _).mp h
  have hf := (mem_fields_of_field? hf).1
  exact ⟨s, f, hs, hf, of_decide_eq_true hnames, placeholderArguments_fill hs hf⟩

end Schema

end GraphSelect
