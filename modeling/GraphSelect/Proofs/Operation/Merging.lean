import GraphSelect.Proofs.Operation.Shape

/-!
# Fields that are merged

Fields with one name that are selected in the same place, on a type or through fragments, give one entry of the
response. So they must have types of the same shape and, unless no object can have both of the types that they are
selected on, the same arguments, and their selection sets must be merged in the same way (`Conflict`, `Merges`).

Nothing that is written is given another name, so whether an operation can be merged is decided by the schema and by
what is selected alone. It can exactly if no two of its paths disagree: on the way, where both go on with fields of one
name, the types or the arguments of these differ (`merges_operation_iff`). A conflict of two fields is carried out to
paths that lead to them (`Conflict.exists_paths`), and paths that disagree into the fields where they do
(`Disagree.exists_fields`).
-/

namespace GraphSelect

/-! ## Fields of selection sets -/

namespace Item

/-- The name that a field has in the response, which is its own. -/
def responseName? : Item → Option String
  | .typename => some Key.typename
  | .scalar name _ => some name
  | .composite name _ _ => some name
  | .fragment _ _ => none

/-- The arguments of a field. -/
def arguments : Item → List (String × Literal)
  | .scalar _ arguments => arguments
  | .composite _ arguments _ => arguments
  | _ => []

/-- The selection set of a field or fragment; a field of a scalar or enum type has an empty one. -/
def body : Item → List Item
  | .composite _ _ body => body
  | .fragment _ body => body
  | _ => []

end Item

namespace Schema

open Contribution

/-- A field that is collected from a selection set on a type: one of its own, on that type, or one that a fragment in it
collects, on the type of the fragment or of another one inside. -/
inductive Collects : String → List Item → String → Item → Prop
  | field {type name : String} {items : List Item} {i : Item} : i ∈ items → i.responseName? = some name →
      Collects type items type i
  | fragment {outer next type : String} {items body : List Item} {i : Item} : .fragment next body ∈ items →
      Collects next body type i → Collects outer items type i

/-- The type of a field that is selected on a type. -/
def fieldType? (s : Schema) (type : String) : Item → Option TypeRef
  | .typename => some BuiltIn.typenameField.type
  | .scalar name _ => (s.field? type name).map Field.type
  | .composite name _ _ => (s.field? type name).map Field.type
  | .fragment _ _ => none

/-- Two types give responses of the same shape: they are lists and exclude null in the same places, and what is listed
is the same scalar or enum type, or twice an object, interface or union type. -/
def SameShape (s : Schema) : TypeRef → TypeRef → Prop
  | .named a nonNull, .named b nonNull' => nonNull = nonNull' ∧ (a = b ∨ s.IsComposite a ∧ s.IsComposite b)
  | .list a nonNull, .list b nonNull' => nonNull = nonNull' ∧ SameShape s a b
  | _, _ => False

/-- Two different object types: no object has both. -/
def Apart (s : Schema) (P Q : String) : Prop := P ≠ Q ∧ s.kind? P = some .object ∧ s.kind? Q = some .object

/-- Two fields with one name that cannot be merged where they are selected on `P` and `Q`: their types have different
shapes; or their arguments differ, and some object can have both types, unless this is `exempt` as no object can have
both types further out; or two fields inside cannot be merged. -/
inductive Conflict (s : Schema) : Prop → String → Item → String → Item → Prop
  | shape {exempt : Prop} {P Q name : String} {i j : Item} {a b : TypeRef} : i.responseName? = some name →
      j.responseName? = some name → s.fieldType? P i = some a → s.fieldType? Q j = some b → ¬ s.SameShape a b →
      Conflict s exempt P i Q j
  | arguments {exempt : Prop} {P Q name : String} {i j : Item} : i.responseName? = some name →
      j.responseName? = some name → ¬ exempt → ¬ s.Apart P Q → ¬ i.arguments.Perm j.arguments →
      Conflict s exempt P i Q j
  | inside {exempt : Prop} {P Q P' Q' name : String} {i j i' j' : Item} {a b : TypeRef} :
      i.responseName? = some name → j.responseName? = some name → s.fieldType? P i = some a →
      s.fieldType? Q j = some b → Collects a.base i.body P' i' → Collects b.base j.body Q' j' →
      Conflict s (exempt ∨ s.Apart P Q) P' i' Q' j' → Conflict s exempt P i Q j

/-- All fields of a selection set on a type can be merged. As each field is compared with itself too, so can the fields
of every selection set inside. -/
def Merges (s : Schema) (type : String) (items : List Item) : Prop :=
  ∀ P i Q j, Collects type items P i → Collects type items Q j → ¬ s.Conflict False P i Q j

/-- Two paths that cannot be selected together where they start on `P` and `Q`: behind some branches they go on with
fields of one name, and of these the types have different shapes, or the arguments differ and nothing exempts them, or
the paths behind them disagree. -/
inductive Disagree (s : Schema) (provider : ArgumentProvider) : Prop → String → List Step → String → List Step → Prop
  | left {exempt : Prop} {P Q next : String} {p q : List Step} : Disagree s provider exempt next p Q q →
      Disagree s provider exempt P (.branch next :: p) Q q
  | right {exempt : Prop} {P Q next : String} {p q : List Step} : Disagree s provider exempt P p next q →
      Disagree s provider exempt P p Q (.branch next :: q)
  | shape {exempt : Prop} {P Q name : String} {p q : List Step} {f g : Field} : s.field? P name = some f →
      s.field? Q name = some g → ¬ s.SameShape f.type g.type →
      Disagree s provider exempt P (.field name :: p) Q (.field name :: q)
  | arguments {exempt : Prop} {P Q name : String} {p q : List Step} {f g : Field} : s.field? P name = some f →
      s.field? Q name = some g → ¬ exempt → ¬ s.Apart P Q → ¬ (provider s P f).Perm (provider s Q g) →
      Disagree s provider exempt P (.field name :: p) Q (.field name :: q)
  | inside {exempt : Prop} {P Q name : String} {p q : List Step} {f g : Field} : s.field? P name = some f →
      s.field? Q name = some g → Disagree s provider (exempt ∨ s.Apart P Q) f.type.base p g.type.base q →
      Disagree s provider exempt P (.field name :: p) Q (.field name :: q)

variable {s : Schema} {provider : ArgumentProvider}

theorem sameShape_refl : ∀ a : TypeRef, s.SameShape a a
  | .named _ _ => ⟨rfl, .inl rfl⟩
  | .list a _ => ⟨rfl, sameShape_refl a⟩

theorem Disagree.ne_nil {exempt : Prop} {P Q : String} {p q : List Step} (h : s.Disagree provider exempt P p Q q) :
    p ≠ [] ∧ q ≠ [] := by
  induction h with
  | left _ ih => exact ⟨List.cons_ne_nil _ _, ih.2⟩
  | right _ ih => exact ⟨ih.1, List.cons_ne_nil _ _⟩
  | shape _ _ _ => exact ⟨List.cons_ne_nil _ _, List.cons_ne_nil _ _⟩
  | arguments _ _ _ _ _ => exact ⟨List.cons_ne_nil _ _, List.cons_ne_nil _ _⟩
  | inside _ _ _ _ => exact ⟨List.cons_ne_nil _ _, List.cons_ne_nil _ _⟩

/-! ## Fields that are written -/

/-- What is collected from written items is written. -/
theorem Collects.written {type P : String} {items : List Item} {i : Item} (h : Collects type items P i) :
    (∀ k ∈ items, s.Written provider type k) → s.Written provider P i := by
  induction h with
  | field hi _ => exact fun hw => hw _ hi
  | fragment hm _ ih =>
    intro hw
    cases hw _ hm with
    | fragment _ _ hbody => exact ih hbody

theorem not_collects_nil {type P : String} {i : Item} : ¬ Collects type [] P i := by
  intro h
  cases h with
  | field hi _ => cases hi
  | fragment hm _ => cases hm

/-- An item asks for a field of a type, as it is written there: all its paths start with the field, and behind that they
are the paths of its selection set, if it has one. -/
structure Asks (s : Schema) (provider : ArgumentProvider) (P : String) (i : Item) (f : Field) : Prop where
  responseName : i.responseName? = some f.name
  field : s.field? P f.name = some f
  fieldType : s.fieldType? P i = some f.type
  arguments : i.arguments = provider s P f
  body : ∀ k ∈ i.body, s.Written provider f.type.base k
  path : ∃ p, .field f.name :: p ∈ i.paths
  path_of_body : ∀ p ∈ itemPaths i.body, .field f.name :: p ∈ i.paths
  body_of_path : ∀ name p, .field name :: p ∈ i.paths → name = f.name ∧ (p ≠ [] → p ∈ itemPaths i.body)

/-- What is written is the name of the type, a field, or a fragment. -/
theorem Written.cases {P : String} {i : Item} (h : s.Written provider P i) :
    i = .typename ∨ (∃ f, s.Asks provider P i f) ∨
      ∃ next body, i = .fragment next body ∧ ∀ k ∈ body, s.Written provider next k := by
  cases h with
  | typename => exact .inl rfl
  | @scalar _ f hf hk =>
    refine .inr (.inl ⟨f, rfl, hf, by simp [fieldType?, hf], rfl, nofun, ⟨[], by simp [Item.paths]⟩, nofun, ?_⟩)
    intro name p hp
    simp only [Item.paths, List.mem_singleton, List.cons.injEq, Step.field.injEq] at hp
    exact ⟨hp.1, fun hne => absurd hp.2 hne⟩
  | @composite _ f kind body hf hk hc hne hbody =>
    have hin : ∀ p ∈ itemPaths body, .field f.name :: p ∈ (Item.composite f.name (provider s P f) body).paths :=
      fun p hp => List.mem_map_of_mem hp
    obtain ⟨p, hp⟩ := List.exists_mem_of_ne_nil _ (itemPaths_ne_nil hne fun k hk => (hbody k hk).fits)
    refine .inr (.inl ⟨f, rfl, hf, by simp [fieldType?, hf], rfl, hbody, ⟨p, hin p hp⟩, hin, ?_⟩)
    intro name q hq
    obtain ⟨q', hq', he⟩ := List.mem_map.mp hq
    cases he
    exact ⟨rfl, fun _ => hq'⟩
  | fragment _ _ hbody => exact .inr (.inr ⟨_, _, rfl, hbody⟩)

/-- Two written fields with one name are both the name of the type or both fields of their types. -/
theorem Written.cases_of_responseName (hs : s.IsValid) {P Q name : String} {i j : Item} (hi : s.Written provider P i)
    (hj : s.Written provider Q j) (hni : i.responseName? = some name) (hnj : j.responseName? = some name) :
    (i = .typename ∧ j = .typename) ∨
      ∃ f g, f.name = name ∧ g.name = name ∧ s.Asks provider P i f ∧ s.Asks provider Q j g := by
  have htypename : ∀ {R : String} {f : Field}, s.field? R f.name = some f → f.name ≠ Key.typename := fun hf =>
    hs.ne_typename_of_mem_fields (mem_fields_of_field? hf).1
  rcases hi.cases with rfl | ⟨f, hf⟩ | ⟨_, _, rfl, _⟩
  · cases hni
    rcases hj.cases with rfl | ⟨g, hg⟩ | ⟨_, _, rfl, _⟩
    · exact .inl ⟨rfl, rfl⟩
    · exact absurd (Option.some.inj (hg.responseName.symm.trans hnj)) (htypename hg.field)
    · cases hnj
  · have hfn := Option.some.inj (hf.responseName.symm.trans hni)
    rcases hj.cases with rfl | ⟨g, hg⟩ | ⟨_, _, rfl, _⟩
    · cases hnj
      exact absurd hfn (htypename hf.field)
    · exact .inr ⟨f, g, hfn, Option.some.inj (hg.responseName.symm.trans hnj), hf, hg⟩
    · cases hnj
  · cases hni

/-- The name of the type has no conflict with itself. -/
theorem not_conflict_typename {exempt : Prop} {P Q : String} : ¬ s.Conflict exempt P .typename Q .typename := by
  intro h
  cases h with
  | shape _ _ ha hb hne =>
    cases ha
    cases hb
    exact hne (sameShape_refl _)
  | arguments _ _ _ _ hne => exact hne (.refl _)
  | inside _ _ _ _ hc _ _ => exact not_collects_nil hc

/-! ## From fields to paths -/

/-- Behind a path to a collected field there is a path through the fragments around it. It disagrees with the same
paths. -/
theorem Collects.exists_path (s : Schema) (provider : ArgumentProvider) {type P : String} {items : List Item} {i : Item}
    (h : Collects type items P i) {p : List Step} (hp : p ∈ i.paths) : ∃ q ∈ itemPaths items,
      (∀ exempt R r, s.Disagree provider exempt P p R r → s.Disagree provider exempt type q R r) ∧
      ∀ exempt R r, s.Disagree provider exempt R r P p → s.Disagree provider exempt R r type q := by
  induction h with
  | field hi _ => exact ⟨p, mem_itemPaths.mpr ⟨_, hi, hp⟩, fun _ _ _ h => h, fun _ _ _ h => h⟩
  | fragment hm _ ih =>
    obtain ⟨q, hq, hleft, hright⟩ := ih hp
    exact ⟨_, mem_itemPaths.mpr ⟨_, hm, List.mem_map_of_mem hq⟩, fun e R r h => .left (hleft e R r h),
      fun e R r h => .right (hright e R r h)⟩

/-- Two written fields with a conflict lead to paths that disagree. -/
theorem Conflict.exists_paths (hs : s.IsValid) {exempt : Prop} {P Q : String} {i j : Item}
    (h : s.Conflict exempt P i Q j) : s.Written provider P i → s.Written provider Q j →
    ∃ p ∈ i.paths, ∃ q ∈ j.paths, s.Disagree provider exempt P p Q q := by
  induction h with
  | @shape exempt P Q name i j a b hni hnj ha hb hne =>
    intro hi hj
    rcases hi.cases_of_responseName hs hj hni hnj with ⟨rfl, rfl⟩ | ⟨f, g, rfl, hg', hf, hg⟩
    · have hconflict : s.Conflict exempt P .typename Q .typename := .shape hni hnj ha hb hne
      exact absurd hconflict not_conflict_typename
    · obtain ⟨p, hp⟩ := hf.path
      obtain ⟨q, hq⟩ := hg.path
      obtain rfl := Option.some.inj (hf.fieldType.symm.trans ha)
      obtain rfl := Option.some.inj (hg.fieldType.symm.trans hb)
      rw [hg'] at hq
      exact ⟨_, hp, _, hq, .shape hf.field (hg' ▸ hg.field) hne⟩
  | @arguments exempt P Q name i j hni hnj he hapart hne =>
    intro hi hj
    rcases hi.cases_of_responseName hs hj hni hnj with ⟨rfl, rfl⟩ | ⟨f, g, rfl, hg', hf, hg⟩
    · exact (hne (.refl _)).elim
    · obtain ⟨p, hp⟩ := hf.path
      obtain ⟨q, hq⟩ := hg.path
      rw [hf.arguments, hg.arguments] at hne
      rw [hg'] at hq
      exact ⟨_, hp, _, hq, .arguments hf.field (hg' ▸ hg.field) he hapart hne⟩
  | @inside exempt P Q P' Q' name i j i' j' a b hni hnj ha hb hci hcj hconflict ih =>
    intro hi hj
    rcases hi.cases_of_responseName hs hj hni hnj with ⟨rfl, rfl⟩ | ⟨f, g, rfl, hg', hf, hg⟩
    · exact (not_collects_nil hci).elim
    · obtain rfl := Option.some.inj (hf.fieldType.symm.trans ha)
      obtain rfl := Option.some.inj (hg.fieldType.symm.trans hb)
      obtain ⟨p, hp, q, hq, hd⟩ := ih (hci.written hf.body) (hcj.written hg.body)
      obtain ⟨p', hp', hleft, -⟩ := hci.exists_path s provider hp
      obtain ⟨q', hq', -, hright⟩ := hcj.exists_path s provider hq
      have hq' := hg.path_of_body q' hq'
      rw [hg'] at hq'
      exact ⟨_, hf.path_of_body p' hp', _, hq',
        .inside hf.field (hg' ▸ hg.field) (hright _ _ _ (hleft _ _ _ hd))⟩

/-! ## From paths to fields -/

/-- A path of written items that starts with a branch is one of a fragment. -/
theorem exists_fragment_of_mem_itemPaths {P next : String} {items : List Item}
    (hw : ∀ i ∈ items, s.Written provider P i) {p : List Step} (hp : .branch next :: p ∈ itemPaths items) :
    ∃ body, .fragment next body ∈ items ∧ p ∈ itemPaths body ∧ ∀ k ∈ body, s.Written provider next k := by
  obtain ⟨i, hi, hp⟩ := mem_itemPaths.mp hp
  cases hw i hi with
  | typename => simp [Item.paths] at hp
  | scalar _ _ => simp [Item.paths] at hp
  | composite _ _ _ _ _ => simp [Item.paths] at hp
  | @fragment _ next' body _ _ hbody =>
    obtain ⟨q, hq, he⟩ := List.mem_map.mp hp
    cases he
    exact ⟨body, hi, hq, hbody⟩

/-- A path of written items that starts with a field is one of an item that asks for it. -/
theorem exists_asks_of_mem_itemPaths {P name : String} {f : Field} (hf : s.field? P name = some f)
    {items : List Item} (hw : ∀ i ∈ items, s.Written provider P i) {p : List Step}
    (hp : .field name :: p ∈ itemPaths items) :
    ∃ i ∈ items, i.responseName? = some name ∧ s.Asks provider P i f ∧ (p ≠ [] → p ∈ itemPaths i.body) := by
  obtain ⟨i, hi, hp⟩ := mem_itemPaths.mp hp
  rcases (hw i hi).cases with rfl | ⟨f', hf'⟩ | ⟨next, body, rfl, _⟩
  · simp [Item.paths] at hp
  · obtain ⟨rfl, hbody⟩ := hf'.body_of_path name p hp
    obtain rfl := Option.some.inj (hf'.field.symm.trans hf)
    exact ⟨i, hi, hf'.responseName, hf', hbody⟩
  · simp [Item.paths] at hp

/-- Paths of written items that disagree lead through collected fields with a conflict. -/
theorem Disagree.exists_fields {exempt : Prop} {P Q : String} {p q : List Step}
    (h : s.Disagree provider exempt P p Q q) : ∀ {is js : List Item}, (∀ i ∈ is, s.Written provider P i) →
    (∀ j ∈ js, s.Written provider Q j) → p ∈ itemPaths is → q ∈ itemPaths js →
    ∃ P' i Q' j, Collects P is P' i ∧ Collects Q js Q' j ∧ s.Conflict exempt P' i Q' j := by
  induction h with
  | left _ ih =>
    intro is js hi hj hp hq
    obtain ⟨body, hm, hp, hbody⟩ := exists_fragment_of_mem_itemPaths hi hp
    obtain ⟨P', i, Q', j, hci, hcj, hconflict⟩ := ih hbody hj hp hq
    exact ⟨P', i, Q', j, .fragment hm hci, hcj, hconflict⟩
  | right _ ih =>
    intro is js hi hj hp hq
    obtain ⟨body, hm, hq, hbody⟩ := exists_fragment_of_mem_itemPaths hj hq
    obtain ⟨P', i, Q', j, hci, hcj, hconflict⟩ := ih hi hbody hp hq
    exact ⟨P', i, Q', j, hci, .fragment hm hcj, hconflict⟩
  | shape hf hg hne =>
    intro is js hi hj hp hq
    obtain ⟨i, hmi, hni, hai, -⟩ := exists_asks_of_mem_itemPaths hf hi hp
    obtain ⟨j, hmj, hnj, haj, -⟩ := exists_asks_of_mem_itemPaths hg hj hq
    exact ⟨_, i, _, j, .field hmi hni, .field hmj hnj, .shape hni hnj hai.fieldType haj.fieldType hne⟩
  | arguments hf hg he hapart hne =>
    intro is js hi hj hp hq
    obtain ⟨i, hmi, hni, hai, -⟩ := exists_asks_of_mem_itemPaths hf hi hp
    obtain ⟨j, hmj, hnj, haj, -⟩ := exists_asks_of_mem_itemPaths hg hj hq
    rw [← hai.arguments, ← haj.arguments] at hne
    exact ⟨_, i, _, j, .field hmi hni, .field hmj hnj, .arguments hni hnj he hapart hne⟩
  | inside hf hg hd ih =>
    intro is js hi hj hp hq
    obtain ⟨i, hmi, hni, hai, hpi⟩ := exists_asks_of_mem_itemPaths hf hi hp
    obtain ⟨j, hmj, hnj, haj, hqj⟩ := exists_asks_of_mem_itemPaths hg hj hq
    obtain ⟨hp, hq⟩ := hd.ne_nil
    obtain ⟨P', i', Q', j', hci, hcj, hconflict⟩ := ih hai.body haj.body (hpi hp) (hqj hq)
    exact ⟨_, i, _, j, .field hmi hni, .field hmj hnj,
      .inside hni hnj hai.fieldType haj.fieldType hci hcj hconflict⟩

/-- Written items can be merged exactly if no two of their paths disagree. -/
theorem merges_iff (hs : s.IsValid) {type : String} {items : List Item}
    (hw : ∀ i ∈ items, s.Written provider type i) :
    s.Merges type items ↔ ∀ p ∈ itemPaths items, ∀ q ∈ itemPaths items, ¬ s.Disagree provider False type p type q := by
  constructor
  · intro hmerges p hp q hq hd
    obtain ⟨P, i, Q, j, hi, hj, hconflict⟩ := hd.exists_fields hw hw hp hq
    exact hmerges P i Q j hi hj hconflict
  · intro hagree P i Q j hi hj hconflict
    obtain ⟨p, hp, q, hq, hd⟩ := hconflict.exists_paths hs (hi.written hw) (hj.written hw)
    obtain ⟨p', hp', hleft, -⟩ := hi.exists_path s provider hp
    obtain ⟨q', hq', -, hright⟩ := hj.exists_path s provider hq
    exact hagree p' hp' q' hq' (hright _ _ _ (hleft _ _ _ hd))

/-! ## Operations -/

/-- Touched fields can be merged: two with one name are one field, and their selection sets are empty. -/
theorem merges_touchedItems (hs : s.IsValid) {type : String} (ht : (s.kind? type).isSome) (t : Tree) :
    s.Merges type (touchedItems (s.contributions provider type t)) := by
  obtain ⟨fs, hfs, -, hmem⟩ := exists_touchedItems_eq s provider hs ht t
  have hcollected : ∀ {P i}, Collects type (touchedItems (s.contributions provider type t)) P i →
      P = type ∧ ∃ f, s.field? type f.name = some f ∧ i = .composite f.name (provider s type f) [] := by
    intro P i h
    rw [hfs] at h
    cases h with
    | field hi _ =>
      obtain ⟨f, hf, rfl⟩ := List.mem_map.mp hi
      obtain ⟨key, _, _, kind, _, _, hm, _⟩ := (hmem f).mp hf
      obtain ⟨hfield, _, _⟩ := hs.meaning?_eq_composite_iff.mp hm
      exact ⟨rfl, f, (mem_fields_of_field? hfield).2 ▸ hfield, rfl⟩
    | fragment hm _ =>
      obtain ⟨f, _, he⟩ := List.mem_map.mp hm
      cases he
  intro P i Q j hi hj hconflict
  obtain ⟨rfl, f, hf, rfl⟩ := hcollected hi
  obtain ⟨rfl, g, hg, rfl⟩ := hcollected hj
  have heq : ∀ {name}, (Item.composite f.name (provider s Q f) []).responseName? = some name →
      (Item.composite g.name (provider s Q g) []).responseName? = some name → f = g := by
    intro name hni hnj
    have hname : f.name = g.name := Option.some.inj (hni.trans hnj.symm)
    rw [hname, hg] at hf
    exact (Option.some.inj hf).symm
  cases hconflict with
  | shape hni hnj ha hb hne =>
    obtain rfl := heq hni hnj
    obtain rfl := Option.some.inj (ha.symm.trans hb)
    exact hne (sameShape_refl _)
  | arguments hni hnj _ _ hne =>
    obtain rfl := heq hni hnj
    exact hne (.refl _)
  | inside _ _ _ _ hc _ _ => exact not_collects_nil hc

/-- An operation can be merged exactly if no two of its paths disagree. -/
theorem merges_operation_iff (hs : s.IsValid) {tree : Tree} {o : Options} {op : Operation} {root : String}
    (hroot : s.root? o.kind = some root) (hop : s.operation tree o = .ok op) :
    s.Merges root op.items ↔
      ∀ p ∈ op.paths, ∀ q ∈ op.paths, ¬ s.Disagree o.provider False root p root q := by
  obtain ⟨root', hroot', _, _, hitems, _⟩ := operation_eq_ok hop
  obtain rfl := Option.some.inj (hroot'.symm.trans hroot)
  have ht : (s.kind? root').isSome := hs.kind?_root hroot ▸ rfl
  by_cases he : items (s.contributions o.provider root' tree) = []
  · rw [Operation.paths, hitems, rootItems_eq_touchedItems he, itemPaths_touchedItems hs ht]
    constructor
    · intro _ p hp
      cases hp
    · intro _
      exact merges_touchedItems hs ht tree
  · rw [Operation.paths, hitems, rootItems_eq_items he]
    exact merges_iff hs (written_of_mem_items hs tree ht)

end Schema

end GraphSelect
