import GraphSelect.Builder
import GraphSelect.Proofs.Agreement
import GraphSelect.Proofs.Cache

/-!
# Builders answer what the text gives

A builder keeps the schemas of texts and answers from them. Whatever it was asked before (`after`), it keeps what its
cache would keep after look-ups of the same texts (`schemas_after`), so what it finds for a text is the schema of that
text (`schema_after_cases`), and it answers what the functions of the text give.

The edit of a tree may have effects (`buildWith`). They take place once, on the generated tree, and only if there is
one.
-/

namespace GraphSelect

/-! ## Edits with effects -/

section Effects

variable {m : Type → Type} [Monad m] {α : Type}

/-- The operation that the tree of a schema selects after an edit that may have effects. -/
def Schema.buildWith (s : Schema) (edit : Tree → m (Tree × α)) (o : Options) : m (Except Error (String × α)) := do
  match s.generate o with
  | .error error => pure (.error error)
  | .ok tree =>
    let (tree, report) ← edit tree
    pure ((s.serialize tree o).map (·, report))

/-- The operation that the tree of the schema of a text selects after an edit that may have effects. -/
def buildFromWith (text : String) (edit : Tree → m (Tree × α)) (o : Options) : m (Except Error (String × α)) :=
  match Schema.parse text with
  | .error problems => pure (.error (.schema (.invalid problems)))
  | .ok s => s.buildWith edit o

/-- The same from a builder, with the builder then. -/
def Builder.buildWith (b : Builder) (text : String) (edit : Tree → m (Tree × α)) (o : Options) :
    m (Except Error (String × α) × Builder) := do
  match b.schema text with
  | (.ok i, b) => do
    let answer ← i.schema.buildWith edit o
    pure (answer, b)
  | (.error error, b) => pure (.error error, b)

theorem Schema.buildWith_id (s : Schema) (edit : Tree → Tree × α) (o : Options) :
    (s.buildWith (m := Id) (fun tree => pure (edit tree)) o).run = s.build edit o := by
  unfold Schema.buildWith Schema.build
  cases s.generate o with
  | error error => rfl
  | ok tree => rfl

theorem buildFromWith_id (text : String) (edit : Tree → Tree × α) (o : Options) :
    (buildFromWith (m := Id) text (fun tree => pure (edit tree)) o).run = buildFrom text edit o := by
  unfold buildFromWith buildFrom withSchema
  cases Schema.parse text with
  | error problems => rfl
  | ok s => exact s.buildWith_id edit o

theorem Builder.buildWith_id (b : Builder) (text : String) (edit : Tree → Tree × α) (o : Options) :
    (b.buildWith (m := Id) text (fun tree => pure (edit tree)) o).run = b.build text edit o := by
  unfold Builder.buildWith Builder.build Builder.withSchema
  rcases b.schema text with ⟨_ | i, b'⟩
  · rfl
  · exact congrArg (·, b') (i.schema.buildWith_id edit o)

end Effects

namespace Builder

/-! ## What a builder was asked -/

/-- Something that a builder is asked. -/
inductive Request where
  | schema (text : String)
  | generate (text : String) (o : Options)
  | serialize (text : String) (tree : Tree) (o : Options)
  | serializeJson (text : String) (value : Json) (o : Options)
  | build (text : String) (edit : Tree → Tree) (o : Options)

/-- The text whose schema a request needs: none if it comes with a value that is no tree. -/
def Request.text? : Request → Option String
  | .schema text => some text
  | .generate text _ => some text
  | .serialize text _ _ => some text
  | .serializeJson text value _ => (Tree.ofJson value).toOption.map fun _ => text
  | .build text _ _ => some text

/-- The builder after a request. -/
def request (b : Builder) : Request → Builder
  | .schema text => (b.schema text).2
  | .generate text o => (b.generate text o).2
  | .serialize text tree o => (b.serialize text tree o).2
  | .serializeJson text value o => (b.serializeJson text value o).2
  | .build text edit o => (b.build text (fun tree => (edit tree, ())) o).2

/-- The builder with room for `n` schemas after some requests. -/
def after (n : Nat) (requests : List Request) : Builder := requests.foldl request (empty n)

theorem schemas_schema (b : Builder) (text : String) : (b.schema text).2.schemas = (b.schemas.getOrParse text).2 := by
  unfold schema
  rcases b.schemas.getOrParse text with ⟨_ | _, _⟩ <;> rfl

theorem schemas_withSchema {α : Type} (b : Builder) (text : String) (f : Schema → Except Error α) :
    (b.withSchema text f).2.schemas = (b.schemas.getOrParse text).2 := by
  rw [← schemas_schema]
  unfold withSchema
  rcases b.schema text with ⟨_ | _, _⟩ <;> rfl

/-- A request looks up the text that it needs, and does nothing else to the cache. -/
theorem schemas_request (b : Builder) (r : Request) :
    (b.request r).schemas = r.text?.elim b.schemas fun text => (b.schemas.getOrParse text).2 := by
  cases r with
  | schema text => exact b.schemas_schema text
  | generate text o => exact b.schemas_withSchema text _
  | serialize text tree o => exact b.schemas_withSchema text _
  | serializeJson text value o =>
    rw [request, serializeJson, Request.text?]
    cases Tree.ofJson value with
    | error fault => rfl
    | ok tree => exact b.schemas_withSchema text _
  | build text edit o => exact b.schemas_withSchema text _

/-- A builder keeps what its cache keeps after look-ups of the texts that were needed. -/
theorem schemas_after (n : Nat) (requests : List Request) :
    (after n requests).schemas = Cache.after n (requests.filterMap Request.text?) := by
  induction requests using List.reverseRecOn with
  | nil => rfl
  | append_singleton requests r ih =>
    have hlast : after n (requests ++ [r]) = (after n requests).request r := by
      rw [after, List.foldl_append]
      rfl
    rw [hlast, schemas_request, ih, List.filterMap_append]
    cases htext : r.text? with
    | none => rw [List.filterMap_cons_none htext, List.filterMap_nil, List.append_nil, Option.elim_none]
    | some text => rw [List.filterMap_cons_some htext, List.filterMap_nil, Cache.after_append, Option.elim_some]

/-- What a builder finds for a text after some requests: the problems of the text, and then it stays as it is, or a
schema that is the one of the text. -/
theorem schema_after_cases (n : Nat) (requests : List Request) (text : String) :
    (∃ problems, Schema.parse text = .error problems ∧
      (after n requests).schema text = (.error (.schema (.invalid problems)), after n requests)) ∨
    ∃ i b, Schema.parse text = .ok i.schema ∧ (after n requests).schema text = (.ok i, b) := by
  have hparse := (Cache.holds_after n (requests.filterMap Request.text?)).parse_eq
  rw [← schemas_after] at hparse
  unfold schema
  rcases (after n requests).schemas.getOrParse_cases text with ⟨i, hi, he⟩ | ⟨_, problems, herror, he⟩ |
    ⟨_, s, hok, he⟩ <;> rw [he]
  · exact .inr ⟨i, _, hparse _ hi, rfl⟩
  · exact .inl ⟨problems, herror, rfl⟩
  · exact .inr ⟨_, _, hok, rfl⟩

/-- Whatever a builder was asked before, it answers what the text gives. -/
theorem withSchema_after {α : Type} (n : Nat) (requests : List Request) (text : String)
    (f : Schema → Except Error α) :
    ((after n requests).withSchema text f).1 = GraphSelect.withSchema text f := by
  unfold withSchema GraphSelect.withSchema
  rcases schema_after_cases n requests text with ⟨problems, hparse, he⟩ | ⟨i, b, hparse, he⟩ <;> rw [hparse, he]

end Builder

/-! ## Answers -/

/-- Building is generating, editing and serializing. -/
theorem buildFrom_eq {α : Type} (text : String) (edit : Tree → Tree × α) (o : Options) :
    buildFrom text edit o = (generateFrom text o).bind fun tree =>
      (serializeFrom text (edit tree).1 o).map (·, (edit tree).2) := by
  unfold buildFrom generateFrom serializeFrom withSchema
  cases Schema.parse text with
  | error problems => rfl
  | ok s =>
    dsimp only [Schema.build]
    cases s.generate o with
    | error error => rfl
    | ok tree => rfl

section Effects

variable {m : Type → Type} [Monad m] {α : Type} {s : Schema} {o : Options}

/-- Without a root type nothing is edited. -/
theorem Schema.buildWith_of_root?_eq_none (hroot : s.root? o.kind = none) (edit : Tree → m (Tree × α)) :
    s.buildWith edit o = pure (.error (.operation (.missingRoot o.kind))) := by
  rw [Schema.buildWith, Schema.generate, hroot]

/-- With a root type its tree is edited once. -/
theorem Schema.IsValid.buildWith_eq (hs : s.IsValid) {root : String} (hroot : s.root? o.kind = some root)
    (edit : Tree → m (Tree × α)) :
    s.buildWith edit o = edit (s.expand o.includeTypename [root] root) >>= fun edited =>
      pure ((s.serialize edited.1 o).map (·, edited.2)) := by
  rw [Schema.buildWith, hs.generate_eq hroot]

variable [LawfulMonad m]

/-- Whatever a builder was asked before, it builds as the text does, with the same effects. -/
theorem Builder.fst_buildWith_after (n : Nat) (requests : List Builder.Request) (text : String)
    (edit : Tree → m (Tree × α)) (o : Options) :
    Prod.fst <$> (Builder.after n requests).buildWith text edit o = buildFromWith text edit o := by
  unfold Builder.buildWith buildFromWith
  rcases Builder.schema_after_cases n requests text with ⟨problems, hparse, he⟩ | ⟨i, b, hparse, he⟩ <;>
    rw [hparse, he]
  · exact map_pure ..
  · simp

end Effects

/-- Whatever a builder was asked before, it generates, serializes and builds what the text gives. Building is
generating, editing and serializing; the edit takes place once, on the generated tree, and not at all if the text is not
valid or its schema has no root type. A value that is no tree is refused whatever the text is, and the builder stays as
it is; any other is serialized as its tree. -/
theorem Builder.answers_after (n : Nat) (requests : List Builder.Request) (text : String) (o : Options) {α : Type} :
    ((after n requests).generate text o).1 = generateFrom text o ∧
    (∀ tree, ((after n requests).serialize text tree o).1 = serializeFrom text tree o) ∧
    (∀ edit : Tree → Tree × α, ((after n requests).build text edit o).1 = buildFrom text edit o ∧
      buildFrom text edit o = (generateFrom text o).bind fun tree =>
        (serializeFrom text (edit tree).1 o).map (·, (edit tree).2)) ∧
    (∀ {m : Type → Type} [Monad m] [LawfulMonad m] (edit : Tree → m (Tree × α)),
      Prod.fst <$> (after n requests).buildWith text edit o = buildFromWith text edit o ∧
      (∀ problems, Schema.parse text = .error problems →
        buildFromWith text edit o = pure (.error (.schema (.invalid problems)))) ∧
      ∀ s, Schema.parse text = .ok s →
        (s.root? o.kind = none → buildFromWith text edit o = pure (.error (.operation (.missingRoot o.kind)))) ∧
        ∀ root, s.root? o.kind = some root → ∃ generated, generateFrom text o = .ok generated ∧
          buildFromWith text edit o = edit generated >>= fun edited =>
            pure ((serializeFrom text edited.1 o).map (·, edited.2))) ∧
    (∀ value fault, Tree.ofJson value = .error fault →
      (after n requests).serializeJson text value o = (.error (.input fault), after n requests)) ∧
    ∀ value tree, Tree.ofJson value = .ok tree →
      (after n requests).serializeJson text value o = (after n requests).serialize text tree o := by
  refine ⟨withSchema_after n requests text _, fun tree => withSchema_after n requests text _,
    fun edit => ⟨withSchema_after n requests text _, buildFrom_eq text edit o⟩, fun {m} _ _ edit => ?_,
    fun value fault h => ?_, fun value tree h => ?_⟩
  · refine ⟨fst_buildWith_after n requests text edit o, fun problems hparse => by rw [buildFromWith, hparse],
      fun s hparse => ⟨fun hroot => ?_, fun root hroot => ?_⟩⟩
    · rw [buildFromWith, hparse]
      exact Schema.buildWith_of_root?_eq_none hroot edit
    · have hs : s.IsValid := ⟨text, hparse⟩
      refine ⟨s.expand o.includeTypename [root] root, ?_, ?_⟩
      · rw [generateFrom, GraphSelect.withSchema, hparse]
        exact hs.generate_eq hroot
      · rw [buildFromWith, hparse]
        unfold serializeFrom GraphSelect.withSchema
        rw [hparse]
        exact hs.buildWith_eq hroot edit
  · rw [serializeJson, h]
  · rw [serializeJson, h]

/-- An edit that changes nothing and puts the tree in front of a log. -/
def editLogged (tree : Tree) : StateM (List Tree) (Tree × Unit) := do
  modify (tree :: ·)
  pure (tree, ())

/-- A builder that was asked for an invalid text and another text: it edits the tree of a query, but none where the text
is not valid or has no mutations, and it refuses a text as a tree. -/
theorem Builder.answers_after_logged : ∃ (requests : List Builder.Request) (text invalid : String)
    (problems : List Diagnostic) (generated : Tree),
    (Prod.fst <$> (after 1 requests).buildWith invalid editLogged {}).run [] =
      (.error (.schema (.invalid problems)), []) ∧
    (Prod.fst <$> (after 1 requests).buildWith text editLogged { kind := .mutation }).run [] =
      (.error (.operation (.missingRoot .mutation)), []) ∧
    (Prod.fst <$> (after 1 requests).buildWith text editLogged {}).run [] =
      ((serializeFrom text generated {}).map (·, ()), [generated]) ∧
    (after 1 requests).serializeJson text (.string "a") {} =
      (.error (.input (.notAnObject .string)), after 1 requests) ∧
    (after 1 requests).serializeJson text (.object [("a", .bool true)]) {} =
      (after 1 requests).serialize text (.leaf "a" true .empty) {} := by
  let requests : List Builder.Request := [.schema "type", .generate "type Query { b: Int }" {}]
  obtain ⟨problems, hproblems⟩ : ∃ problems, Schema.parse "type" = .error problems := by
    have hinvalid : (Schema.parse "type").toOption.isNone = true := by decide +kernel
    cases h : Schema.parse "type" with
    | error problems => exact ⟨problems, rfl⟩
    | ok s =>
      rw [h] at hinvalid
      cases hinvalid
  have hvalid : ((Schema.parse "type Query { a: Int }").toOption.any fun s =>
      decide (s.root? .mutation = none ∧ s.root? .query = some "Query")) = true := by decide +kernel
  obtain ⟨s, hs, hroots⟩ := (Option.any_eq_true _ _).mp hvalid
  have hs := Schema.eq_ok_of_toOption_eq_some hs
  obtain ⟨hmutation, hquery⟩ := of_decide_eq_true hroots
  obtain ⟨hbuild, hrefused, _⟩ := (answers_after 1 requests "type" {}).2.2.2.1 editLogged
  obtain ⟨hbuild', _, hroot⟩ :=
    (answers_after 1 requests "type Query { a: Int }" { kind := .mutation }).2.2.2.1 editLogged
  obtain ⟨_, _, _, heffects, hfault, htree⟩ := answers_after 1 requests "type Query { a: Int }" {} (α := Unit)
  obtain ⟨hbuild'', _, hroot'⟩ := heffects editLogged
  obtain ⟨generated, _, hgenerated⟩ := (hroot' s hs).2 "Query" hquery
  refine ⟨requests, "type Query { a: Int }", "type", problems, generated, ?_, ?_, ?_,
    hfault _ _ rfl, htree _ _ rfl⟩
  · rw [hbuild, hrefused problems hproblems]
    rfl
  · rw [hbuild', (hroot s hs).1 hmutation]
    rfl
  · rw [hbuild'', hgenerated]
    rfl

end GraphSelect
