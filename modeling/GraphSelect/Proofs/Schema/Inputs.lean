import GraphSelect.Proofs.Schema.Validity
import Mathlib.Data.List.Chain
import Mathlib.Data.List.Induction
import Mathlib.Data.List.Nodup

/-!
# Input objects

What a valid schema says of the values that can be given: each argument and each field of an input object has a scalar,
an enum or an input object as its type (`isInput_of_mem_arguments`, `isInput_of_mem_inputFields`), no enum is empty
(`enumValues_ne_nil`), names are apart (`argumentNames_nodup`, `inputNames_nodup`), and the built-in scalars stay what
they are (`body?_of_mem_scalars`).

An input object requires another one if it has a field of its type without null. No input object requires itself, be it
through others, and no more than 32 of them require each other in a row (`nodup_of_isChain`, `length_le_of_isChain`).
The check that a schema has passed starts at each input object and looks for its name further down; a row of input
objects in which some other name comes again is found when the check starts at that name.
-/

namespace GraphSelect

/-! ## Putting input objects and scalars together -/

/-- What starts a list under new names that are apart is kept. -/
theorem mem_firsts_append {α : Type} {name : α → String} {x : α} (ys : List α) : ∀ {xs : List α} {seen : List String},
    (xs.map name).Nodup → (∀ x ∈ xs, name x ∉ seen) → x ∈ xs → x ∈ (firsts name seen (xs ++ ys)).1
  | y :: xs, seen, hd, hnew, hx => by
    obtain ⟨hy, hd⟩ := List.nodup_cons.mp hd
    obtain ⟨hseen, hnew⟩ := List.forall_mem_cons.mp hnew
    simp only [List.cons_append, firsts, if_neg hseen]
    rcases List.mem_cons.mp hx with rfl | hx
    · exact List.mem_cons_self
    · refine List.mem_cons_of_mem _ (mem_firsts_append ys hd (fun z hz hm => ?_) hx)
      rcases List.mem_cons.mp hm with he | hm
      · exact hy (he ▸ List.mem_map_of_mem hz)
      · exact hnew z hz hm

namespace Document

theorem body_extendAll_of_scalar : ∀ {es : List TypeDefinition} {t : TypeDefinition}, t.body = .scalar →
    (extendAll t es).1.body = .scalar
  | [], _, h => h
  | e :: es, t, h => by
    have hbody : (extendType t e).1.body = .scalar := by
      unfold extendType
      split
      · simp [h, appendBody]
      · exact h
    show (extendAll (extendType t e).1 es).1.body = .scalar
    exact body_extendAll_of_scalar hbody

/-- A scalar is still one when it is finished. -/
theorem body_finishType_of_scalar (extensions : List TypeDefinition) {t : TypeDefinition} (h : t.body = .scalar) :
    (finishType extensions t).1.body = .scalar := by
  simp only [finishType, keepFirstParts, body_extendAll_of_scalar h]

/-- Every document has the built-in scalars. -/
theorem exists_scalar_mem_mergeTypes (document : Document) {name : String} (h : name ∈ BuiltIn.scalars) :
    ∃ t ∈ document.mergeTypes.1, t.name = name ∧ t.body = .scalar := by
  have hbuiltIn : { name, body := .scalar } ∈ BuiltIn.types :=
    List.mem_append_left _ (List.mem_map_of_mem (f := fun name => ({ name, body := .scalar } : TypeDefinition)) h)
  have hd : (BuiltIn.types.map TypeDefinition.name).Nodup := by decide
  have hkept := mem_firsts_append document.typeDefinitions hd (fun _ _ => List.not_mem_nil) hbuiltIn
  exact ⟨_, List.mem_map_of_mem (List.mem_map_of_mem hkept), name_finishType _ _, body_finishType_of_scalar _ rfl⟩

/-- The input fields that a finished type keeps have different names. -/
theorem inputNames_finishType_nodup (extensions : List TypeDefinition) (t : TypeDefinition) :
    ((finishType extensions t).1.body.inputFields.map InputValue.name).Nodup := by
  simp only [finishType, keepFirstParts]
  split
  · rename_i hb
    simp [hb, TypeBody.inputFields]
  all_goals first | exact List.nodup_nil | exact (firsts_distinct InputValue.name [] _).2

end Document

namespace Schema

variable {s : Schema}

/-! ## Names that do not come again -/

theorem nodup_of_repeatedNames_eq_nil {problem : String → Problem} : ∀ {names : List (String × Nat)}
    {seen : List String}, repeatedNames problem seen names = [] →
    (names.map Prod.fst).Nodup ∧ ∀ name ∈ names.map Prod.fst, name ∉ seen
  | [], _, _ => by simp
  | (name, position) :: names, seen, h => by
    obtain ⟨hname, hnames⟩ := List.append_eq_nil_iff.mp h
    have hseen : name ∉ seen := by simpa [problemIf_eq_nil] using hname
    obtain ⟨hnodup, hnew⟩ := nodup_of_repeatedNames_eq_nil hnames
    have hnot : name ∉ names.map Prod.fst := fun hm => hnew name hm List.mem_cons_self
    refine ⟨List.nodup_cons.mpr ⟨hnot, hnodup⟩, fun other hother => ?_⟩
    rcases List.mem_cons.mp hother with rfl | hother
    · exact hseen
    · exact fun hm => hnew other hother (List.mem_cons_of_mem _ hm)

/-! ## Types of values -/

/-- A type that values can be given for: a scalar, an enum or an input object of the schema. -/
def IsInput (s : Schema) (name : String) : Prop := ∃ body, s.body? name = some body ∧ isInputBody body = true

theorem body?_of_type? {name : String} {t : TypeDefinition} (ht : s.type? name = some t) :
    s.body? name = some t.body := by
  simp [body?, ht]

theorem inputFields_of_body? {name : String} {fields : List InputValue} (h : s.body? name = some (.input fields)) :
    s.inputFields name = fields := by
  simp [inputFields, h, TypeBody.inputFields]

/-- What has input fields is an input object. -/
theorem exists_type?_of_mem_inputFields {name : String} {v : InputValue} (h : v ∈ s.inputFields name) :
    ∃ t fields, s.type? name = some t ∧ t.body = .input fields ∧ v ∈ fields := by
  unfold inputFields body? at h
  cases ht : s.type? name with
  | none => simp [ht] at h
  | some t =>
    cases hb : t.body with
    | input fields => exact ⟨t, fields, rfl, hb, by simpa [ht, hb, TypeBody.inputFields] using h⟩
    | _ => simp [ht, hb, TypeBody.inputFields] at h

/-- The type of a value that is declared without a problem is an input type. -/
theorem isInput_of_inputValueProblems {part : NamedPart} {place : DirectivePlace} {v : InputValue}
    (h : s.inputValueProblems part place v = []) : s.IsInput v.type.base := by
  have h := (List.append_eq_nil_iff.mp h).2
  split at h
  · cases h
  · rename_i t ht
    exact ⟨t.body, body?_of_type? ht, by simpa [problemIf_eq_nil] using h⟩

section Problems

variable (hs : s.problems = [])
include hs

theorem argumentsProblems_eq_nil {name : String} {f : Field} (hf : f ∈ s.fields name) :
    s.argumentsProblems f.arguments = [] := by
  have h := fieldProblems_eq_nil hs hf
  simp only [fieldProblems, List.append_eq_nil_iff] at h
  exact h.1.2

/-- The problems of an input object are those of its fields and of what it requires. -/
theorem inputProblems_eq_nil {name : String} {t : TypeDefinition} {fields : List InputValue}
    (ht : s.type? name = some t) (hb : t.body = .input fields) :
    (∀ v ∈ fields, s.inputValueProblems .inputField .inputFieldDefinition v = []) ∧
      s.chainProblem? name (inputChainLimit - 1) [name] name = none := by
  obtain ⟨hm, rfl⟩ := mem_of_type? ht
  have h := bodyProblems_eq_nil hs hm
  simp only [bodyProblems, hb, List.append_eq_nil_iff, List.flatMap_eq_nil_iff] at h
  obtain ⟨⟨_, hfields⟩, hchain⟩ := h
  refine ⟨hfields, ?_⟩
  simpa [inputChainProblems, Option.toList_eq_nil_iff] using hchain

end Problems

/-! ## Rows of required input objects -/

/-- An input object requires another: it has a field of its type without null. -/
def Requires (s : Schema) (name next : String) : Prop := ∃ v ∈ s.inputFields name, s.requiredInput? v = some next

/-- If the check of a row finds no problem, then an input object that is required next is not the first of the row; if
it is a new one, some more may follow, and the check goes on from it without a problem. -/
theorem chainProblem?_eq_none {first name next : String} {more : Nat} {seen : List String}
    (h : s.chainProblem? first more seen name = none) (hr : s.Requires name next) :
    (next ∈ seen → next ≠ first) ∧
      (next ∉ seen → ∃ fewer, more = fewer + 1 ∧ s.chainProblem? first fewer (next :: seen) next = none) := by
  obtain ⟨v, hv, hnext⟩ := hr
  cases more with
  | zero =>
    have h := List.findSome?_eq_none_iff.mp h v hv
    simp only [hnext, Option.bind_some] at h
    split at h
    · rename_i hseen
      exact ⟨fun _ he => by simp [he] at h, fun hno => absurd hseen hno⟩
    · cases h
  | succ fewer =>
    have h := List.findSome?_eq_none_iff.mp h v hv
    simp only [hnext, Option.bind_some] at h
    split at h
    · rename_i hseen
      exact ⟨fun _ he => by simp [he] at h, fun hno => absurd hseen hno⟩
    · rename_i hseen
      exact ⟨fun hm => absurd hm hseen, fun _ => ⟨fewer, rfl, h⟩⟩

/-- Without a problem, no row of new input objects leads back to the first. -/
theorem not_isChain_of_chainProblem? {first : String} : ∀ {rest : List String} {name : String} {more : Nat}
    {seen : List String}, s.chainProblem? first more seen name = none → first ∈ seen → rest.Nodup →
    (∀ t ∈ rest, t ∉ seen) → ¬ (name :: (rest ++ [first])).IsChain s.Requires
  | [], name, more, seen, h, hfirst, _, _, hchain => by
    have hr : s.Requires name first := by simpa using hchain
    exact (chainProblem?_eq_none h hr).1 hfirst rfl
  | next :: rest, name, more, seen, h, hfirst, hd, hnew, hchain => by
    obtain ⟨hr, hchain⟩ := List.isChain_cons_cons.mp hchain
    obtain ⟨hnext, hd⟩ := List.nodup_cons.mp hd
    obtain ⟨hseen, hrest⟩ := List.forall_mem_cons.mp hnew
    obtain ⟨fewer, _, h⟩ := (chainProblem?_eq_none h hr).2 hseen
    refine not_isChain_of_chainProblem? h (List.mem_cons_of_mem _ hfirst) hd (fun t ht => ?_) hchain
    simpa [hrest t ht] using fun he : t = next => hnext (he ▸ ht)

/-- Without a problem, no row of new input objects is longer than allowed. -/
theorem length_le_of_chainProblem? {first : String} : ∀ {rest : List String} {name : String} {more : Nat}
    {seen : List String}, s.chainProblem? first more seen name = none → rest.Nodup → (∀ t ∈ rest, t ∉ seen) →
    (name :: rest).IsChain s.Requires → rest.length ≤ more
  | [], _, _, _, _, _, _, _ => Nat.zero_le _
  | next :: rest, name, more, seen, h, hd, hnew, hchain => by
    obtain ⟨hr, hchain⟩ := List.isChain_cons_cons.mp hchain
    obtain ⟨hnext, hd⟩ := List.nodup_cons.mp hd
    obtain ⟨hseen, hrest⟩ := List.forall_mem_cons.mp hnew
    obtain ⟨fewer, rfl, hfewer⟩ := (chainProblem?_eq_none h hr).2 hseen
    have hlength : rest.length ≤ fewer := by
      refine length_le_of_chainProblem? hfewer hd (fun t ht => ?_) hchain
      simpa [hrest t ht] using fun he : t = next => hnext (he ▸ ht)
    simpa using hlength

section Problems

variable (hs : s.problems = [])
include hs

/-- The first of a row that goes on is checked without a problem. -/
theorem chainProblem?_of_isChain {name next : String} {rest : List String}
    (h : (name :: next :: rest).IsChain s.Requires) :
    s.chainProblem? name (inputChainLimit - 1) [name] name = none := by
  obtain ⟨⟨v, hv, _⟩, _⟩ := List.isChain_cons_cons.mp h
  obtain ⟨t, fields, ht, hb, _⟩ := exists_type?_of_mem_inputFields hv
  exact (inputProblems_eq_nil hs ht hb).2

/-- No input object comes twice in a row of input objects that require each other. -/
theorem nodup_of_isChain (l : List String) (h : l.IsChain s.Requires) : l.Nodup := by
  induction l using List.reverseRecOn with
  | nil => exact List.nodup_nil
  | append_singleton init last ih =>
    have hinit := ih (List.IsChain.left_of_append h)
    refine List.nodup_append.mpr ⟨hinit, List.nodup_singleton _, ?_⟩
    rintro a ha b hb rfl
    obtain rfl := List.mem_singleton.mp hb
    -- The part of the row from where its last name stood before leads back to that name.
    obtain ⟨before, between, rfl⟩ := List.append_of_mem ha
    rw [List.append_assoc, List.cons_append] at h
    have hloop : (a :: (between ++ [a])).IsChain s.Requires := List.IsChain.right_of_append h
    obtain ⟨hnot, hd⟩ := List.nodup_cons.mp (List.nodup_append.mp hinit).2.1
    have hstart : s.chainProblem? a (inputChainLimit - 1) [a] a = none := by
      cases between with
      | nil => exact chainProblem?_of_isChain hs hloop
      | cons next between => exact chainProblem?_of_isChain hs hloop
    refine not_isChain_of_chainProblem? hstart (List.mem_singleton_self a) hd (fun t ht => ?_) hloop
    simpa using fun he : t = a => hnot (he ▸ ht)

/-- A row of input objects that require each other has at most 32 of them. -/
theorem length_le_of_isChain {l : List String} (h : l.IsChain s.Requires) : l.length ≤ inputChainLimit := by
  have hd := nodup_of_isChain hs l h
  match l with
  | [] => exact Nat.zero_le _
  | [name] => exact Nat.one_le_iff_ne_zero.mpr (by decide)
  | name :: next :: rest =>
    obtain ⟨hname, hd⟩ := List.nodup_cons.mp hd
    have hle := length_le_of_chainProblem? (chainProblem?_of_isChain hs h) hd
      (fun t ht => by simpa using fun he : t = name => hname (he ▸ ht)) h
    have hlimit : inputChainLimit - 1 + 1 = inputChainLimit := rfl
    simp only [List.length_cons] at hle ⊢
    omega

end Problems

/-! ## Valid schemas -/

namespace IsValid

variable (hs : s.IsValid)
include hs

/-- No two fields of an input object share a name. -/
theorem inputNames_nodup (name : String) : ((s.inputFields name).map InputValue.name).Nodup := by
  cases ht : s.type? name with
  | none => simp [inputFields, body?, ht]
  | some t =>
    have hfields : s.inputFields name = t.body.inputFields := by simp [inputFields, body?, ht]
    rw [hfields]
    have hm := (mem_of_type? ht).1
    obtain ⟨_, document, _, rfl, _⟩ := hs.exists_document
    obtain ⟨_, _, rfl, _⟩ := Document.exists_of_mem_mergeTypes (Document.types_merge document ▸ hm)
    exact Document.inputNames_finishType_nodup _ _

/-- No two arguments of a field share a name. -/
theorem argumentNames_nodup {name : String} {f : Field} (hf : f ∈ s.fields name) :
    (f.arguments.map InputValue.name).Nodup := by
  obtain ⟨_, document, _, rfl, hp⟩ := hs.exists_document
  have h := nodup_of_repeatedNames_eq_nil (List.append_eq_nil_iff.mp (argumentsProblems_eq_nil hp hf)).2
  simpa [List.map_map, Function.comp_def] using h.1

/-- Values can be given for the arguments of fields. -/
theorem isInput_of_mem_arguments {name : String} {f : Field} {v : InputValue} (hf : f ∈ s.fields name)
    (hv : v ∈ f.arguments) : s.IsInput v.type.base := by
  obtain ⟨_, document, _, rfl, hp⟩ := hs.exists_document
  have h := (List.append_eq_nil_iff.mp (argumentsProblems_eq_nil hp hf)).1
  exact isInput_of_inputValueProblems (s := document.merge.1) (List.flatMap_eq_nil_iff.mp h v hv)

/-- Values can be given for the fields of input objects. -/
theorem isInput_of_mem_inputFields {name : String} {v : InputValue} (hv : v ∈ s.inputFields name) :
    s.IsInput v.type.base := by
  obtain ⟨_, document, _, rfl, hp⟩ := hs.exists_document
  obtain ⟨t, fields, ht, hb, hv⟩ := exists_type?_of_mem_inputFields hv
  exact isInput_of_inputValueProblems (s := document.merge.1) ((inputProblems_eq_nil hp ht hb).1 v hv)

/-- The built-in scalars are scalars. -/
theorem body?_of_mem_scalars {name : String} (h : name ∈ BuiltIn.scalars) : s.body? name = some .scalar := by
  have hd := hs.typeNames_nodup
  obtain ⟨_, document, _, rfl, _⟩ := hs.exists_document
  obtain ⟨t, ht, rfl, hb⟩ := Document.exists_scalar_mem_mergeTypes document h
  rw [← hb]
  exact body?_of_type? (type?_eq_some_of_mem hd (Document.types_merge document ▸ ht))

/-- Every enum has a value. -/
theorem enumValues_ne_nil {name : String} {values : List EnumValue} (h : s.body? name = some (.enum values)) :
    values ≠ [] := by
  obtain ⟨t, ht, hb⟩ := Option.map_eq_some_iff.mp h
  obtain ⟨_, document, _, rfl, hp⟩ := hs.exists_document
  have hproblems := bodyProblems_eq_nil hp (mem_of_type? ht).1
  simp only [bodyProblems, hb, List.append_eq_nil_iff, problemIf_eq_nil, List.isEmpty_eq_false_iff] at hproblems
  exact hproblems.1

/-- At most 32 input objects require each other in a row. -/
theorem length_le_of_isChain {l : List String} (h : l.IsChain s.Requires) : l.length ≤ inputChainLimit := by
  obtain ⟨_, document, _, rfl, hp⟩ := hs.exists_document
  exact Schema.length_le_of_isChain hp h

end IsValid

end Schema

end GraphSelect
