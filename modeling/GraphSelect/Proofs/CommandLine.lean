import GraphSelect.CommandLine.Run
import GraphSelect.Proofs.Builder
import GraphSelect.Proofs.Generation.Order
import GraphSelect.Proofs.Tree.Switching
import GraphSelect.Proofs.Tree.Text

/-!
# Two ways to an operation

A command line builds an operation at once, from the paths of the leaves that it should select, or in two steps: it
prints the tree of everything that can be selected, and writes the operation that the edited text of a tree selects. The
commands for this answer what the text of the schema and the options give (`answer_generate`, `answer_serialize`,
`answer_build`), wherever they read them (`Reads`).

The two ways agree if the tree is nested no deeper than JSON is read, and none of the paths goes through a key that is a
field and a branch at once (`answer_serialize_of_build`). The text does not tell the roles of branches. They are found
anew, and may differ from those that the tree had when it was generated: below a key that clashes it can be seen
(`answer_serialize_of_build_clash`).
-/

namespace GraphSelect

/-! ## Builders that are empty -/

/-- An empty builder answers what the text itself gives. -/
theorem Builder.withSchema_empty {α : Type} (capacity : Nat) (text : String) (f : Schema → Except Error α) :
    ((Builder.empty capacity).withSchema text f).1 = GraphSelect.withSchema text f :=
  Builder.withSchema_after capacity [] text f

/-! ## Operations of edited trees -/

/-- An operation is built from the text of a schema with a root type: it is that of the edited tree of the type. -/
theorem exists_of_buildFrom {α : Type} {text query : String} {edit : Tree → Tree × α} {report : α} {o : Options}
    (h : buildFrom text edit o = .ok (query, report)) : ∃ s root, Schema.parse text = .ok s ∧
      s.root? o.kind = some root ∧ s.serialize (edit (s.expand o.includeTypename [root] root)).1 o = .ok query := by
  rw [buildFrom, withSchema] at h
  cases hparse : Schema.parse text with
  | error problems => simp [hparse] at h
  | ok s =>
    have hs : s.IsValid := ⟨text, hparse⟩
    cases hroot : s.root? o.kind with
    | none => simp [hparse, Schema.build, Schema.generate, hroot] at h
    | some root =>
      refine ⟨s, root, rfl, hroot, ?_⟩
      simp only [hparse, Schema.build, hs.generate_eq hroot] at h
      cases hserialize : s.serialize (edit (s.expand o.includeTypename [root] root)).1 o with
      | error error => simp [hserialize, Except.map] at h
      | ok query' =>
        simp only [hserialize, Except.map, Except.ok.injEq, Prod.mk.injEq] at h
        rw [h.1]

namespace Command

/-! ## Commands that can read their files -/

/-- The file with the schema of a command. -/
def schemaFile : Command → String
  | .generate schema _ => schema
  | .serialize schema _ _ => schema
  | .build schema _ _ => schema

/-- The options that the line of a command gives. -/
def lineOptions : Command → CommandOptions
  | .generate _ options => options
  | .serialize _ _ options => options
  | .build _ _ options => options

/-- A command finds the text of a schema and options in its files, of which at most one is standard input. -/
structure Reads (inputs : Inputs) (command : Command) (text : String) (o : Options) : Prop where
  stdin : checkStdin command.namedFiles = .ok ()
  schema : readFile inputs command.schemaFile = .ok text
  options : readOptions inputs command.lineOptions = .ok o

section Answers

variable {inputs : Inputs} {schema selection : String} {paths : List String} {options : CommandOptions}
  {text : String} {o : Options}

/-- The answer to a command that generates a tree. -/
theorem answer_generate (h : Reads inputs (.generate schema options) text o) :
    answer inputs (.generate schema options) =
      request ((generateFrom text o).map fun tree => tree.toJson.writeIndented) := by
  have hschema : readFile inputs schema = .ok text := h.schema
  have hoptions : readOptions inputs options = .ok o := h.options
  simp only [answer, h.stdin, hschema, hoptions, bind, Except.bind, Builder.generate, Builder.withSchema_empty]
  rw [generateFrom]
  cases withSchema text (·.generate o) <;> rfl

/-- The answer to a command that writes the operation of a tree. -/
theorem answer_serialize (h : Reads inputs (.serialize schema selection options) text o) {found : String}
    (hfound : readFile inputs selection = .ok found) :
    answer inputs (.serialize schema selection options) =
      match Json.read found with
      | .error _ => .error .notJson
      | .ok value =>
        match Tree.ofJson value with
        | .error fault => request (.error (.input fault))
        | .ok tree => request (serializeFrom text tree o) := by
  have hschema : readFile inputs schema = .ok text := h.schema
  have hoptions : readOptions inputs options = .ok o := h.options
  simp only [answer, h.stdin, hschema, hoptions, hfound, bind, Except.bind]
  cases Json.read found with
  | error fault => rfl
  | ok value =>
    simp only [Builder.serializeJson]
    cases Tree.ofJson value with
    | error fault => rfl
    | ok tree => simp only [Builder.serialize, Builder.withSchema_empty, serializeFrom]

/-- The answer to a command that builds an operation. -/
theorem answer_build (h : Reads inputs (.build schema paths options) text o) :
    answer inputs (.build schema paths options) =
      match buildFrom text (·.selectTexts paths) o with
      | .error error => request (.error error)
      | .ok (query, []) => .ok query
      | .ok (_, leaf :: leaves) => .error (.unknownLeaves (leaf :: leaves)) := by
  have hschema : readFile inputs schema = .ok text := h.schema
  have hoptions : readOptions inputs options = .ok o := h.options
  simp only [answer, h.stdin, hschema, hoptions, bind, Except.bind, Builder.build, Builder.withSchema_empty]
  rw [← buildFrom]
  cases buildFrom text (·.selectTexts paths) o with
  | error error => rfl
  | ok result =>
    obtain ⟨query, unknown⟩ := result
    cases unknown <;> rfl

/-- A command that builds an operation has an answer only if its text is that of a schema, and then the answer is the
operation of the tree with the leaves of the paths selected. -/
theorem exists_of_answer_build (h : Reads inputs (.build schema paths options) text o) {query : String}
    (hquery : answer inputs (.build schema paths options) = .ok query) :
    ∃ s root, Schema.parse text = .ok s ∧ s.root? o.kind = some root ∧
      s.serialize ((s.expand o.includeTypename [root] root).selectTexts paths).1 o = .ok query := by
  rw [answer_build h] at hquery
  split at hquery
  · cases hquery
  · rename_i query' hbuild
    obtain rfl := Except.ok.inj hquery
    exact exists_of_buildFrom hbuild
  · cases hquery

/-- The answer to a command that writes the operation of a tree in its indented text. -/
theorem answer_serialize_writeIndented (h : Reads inputs (.serialize schema selection options) text o) {t : Tree}
    (hd : t.Distinct) {blanks : String} (hblanks : ∀ c ∈ blanks.toList, Json.isBlank c = true)
    (hfound : readFile inputs selection = .ok (t.toJson.writeIndented ++ blanks)) :
    answer inputs (.serialize schema selection options) =
      if t.depth ≤ Json.depthLimit then request (serializeFrom text t.reread o) else .error .notJson := by
  rw [answer_serialize h hfound, Json.read, Tree.readWithin_writeIndented hd hblanks]
  by_cases hdepth : t.depth ≤ Json.depthLimit
  · rw [if_pos hdepth, if_pos hdepth]
    dsimp only
    rw [Tree.ofJson_toJson]
  · rw [if_neg hdepth, if_neg hdepth]

end Answers

/-! ## The two ways -/

/-- An operation that is built from the paths of leaves can also be had in two steps, from the same schema and options:
by generating the tree, switching on the leaves in the text of it, and writing the operation of that. Blanks may follow
the text, as the end of the line does where it is printed. The second step fails if the tree is nested deeper than JSON
is read. If it is not, the operation is the same but for the order of nested selection sets, and it is the same text if
none of the paths goes through a key that is a field and a branch at once. -/
theorem answer_serialize_of_build {inputs : Inputs} {schema : String} {paths : List String} {options : CommandOptions}
    {text query : String} {o : Options} (hreads : Reads inputs (.build schema paths options) text o)
    (hquery : answer inputs (.build schema paths options) = .ok query) :
    ∃ (s : Schema) (root : String) (tree : Tree),
      Schema.parse text = .ok s ∧ s.root? o.kind = some root ∧ s.generate o = .ok tree ∧
      (∀ inputs schema options, Reads inputs (.generate schema options) text o →
        answer inputs (.generate schema options) = .ok tree.toJson.writeIndented) ∧
      ∀ inputs schema selection options (blanks : String), Reads inputs (.serialize schema selection options) text o →
        (∀ c ∈ blanks.toList, Json.isBlank c = true) →
        readFile inputs selection = .ok ((tree.toJson.switchOnAll paths).writeIndented ++ blanks) →
        (Json.depthLimit < tree.depth → answer inputs (.serialize schema selection options) = .error .notJson) ∧
        (tree.depth ≤ Json.depthLimit →
          ((∀ text ∈ paths, ¬ s.ClashesAlong root (Tree.splitPath text)) →
            answer inputs (.serialize schema selection options) = .ok query) ∧
          ∃ op op' : Operation, op.write = query ∧
            answer inputs (.serialize schema selection options) = .ok op'.write ∧
            op'.kind = op.kind ∧ op'.name? = op.name? ∧ List.Forall₂ Item.Rearranged op.items op'.items) := by
  obtain ⟨s, root, hparse, hroot, hserialize⟩ := exists_of_answer_build hreads hquery
  have hs : s.IsValid := ⟨text, hparse⟩
  have hd := Schema.distinct_expand (s := s) o.includeTypename [root] root
  refine ⟨s, root, _, hparse, hroot, hs.generate_eq hroot, fun inputs schema options h => ?_, ?_⟩
  · rw [answer_generate h, generateFrom, withSchema, hparse]
    dsimp only
    rw [hs.generate_eq hroot]
    rfl
  · intro inputs schema selection options blanks h hblanks hfound
    rw [← Tree.toJson_selectTexts hd] at hfound
    rw [answer_serialize_writeIndented h (hd.selectTexts paths) hblanks hfound, Tree.depth_selectTexts]
    refine ⟨fun hdepth => if_neg (Nat.not_le.mpr hdepth), fun hdepth => ?_⟩
    rw [if_pos hdepth, serializeFrom, withSchema, hparse]
    dsimp only
    refine ⟨fun hclear => ?_, ?_⟩
    · have hin := hs.inOrder_selectTexts ⟨.object, hs.kind?_root hroot, rfl⟩ o.includeTypename hclear
      rw [Schema.serialize_reread_of_inOrder hroot hin, hserialize]
      rfl
    · rw [Schema.serialize] at hserialize ⊢
      rcases s.operation_of_alike (Tree.alike_reread _) o with ⟨error, he, _⟩ | ⟨op, op', hop, hop', hsame⟩
      · rw [he] at hserialize
        cases hserialize
      · rw [hop] at hserialize
        rw [hop']
        exact ⟨op, op', Except.ok.inj hserialize, rfl, hsame⟩

/-- The name of a dog, in two ways. -/
theorem answer_serialize_of_build_dog : ∃ (inputs : Inputs) (schema : String) (paths : List String)
    (options : CommandOptions) (text query : String) (o : Options),
    Reads inputs (.build schema paths options) text o ∧
    answer inputs (.build schema paths options) = .ok query ∧
    ∃ (s : Schema) (root : String) (tree : Tree),
      Schema.parse text = .ok s ∧ s.root? o.kind = some root ∧ s.generate o = .ok tree ∧
      (∀ inputs schema options, Reads inputs (.generate schema options) text o →
        answer inputs (.generate schema options) = .ok tree.toJson.writeIndented) ∧
      ∀ inputs schema selection options (blanks : String), Reads inputs (.serialize schema selection options) text o →
        (∀ c ∈ blanks.toList, Json.isBlank c = true) →
        readFile inputs selection = .ok ((tree.toJson.switchOnAll paths).writeIndented ++ blanks) →
        (Json.depthLimit < tree.depth → answer inputs (.serialize schema selection options) = .error .notJson) ∧
        (tree.depth ≤ Json.depthLimit →
          ((∀ text ∈ paths, ¬ s.ClashesAlong root (Tree.splitPath text)) →
            answer inputs (.serialize schema selection options) = .ok query) ∧
          ∃ op op' : Operation, op.write = query ∧
            answer inputs (.serialize schema selection options) = .ok op'.write ∧
            op'.kind = op.kind ∧ op'.name? = op.name? ∧ List.Forall₂ Item.Rearranged op.items op'.items) := by
  let text := "type Query { pet: Pet } interface Pet { name: ID } type Dog implements Pet { name: ID }"
  let inputs : Inputs := { file? := fun path => if path = "schema" then some text else none, stdin? := none }
  have hreads : Reads inputs (.build "schema" ["pet.on_Dog.name"] {}) text {} := ⟨rfl, rfl, rfl⟩
  have hquery : (answer inputs (.build "schema" ["pet.on_Dog.name"] {})).toOption =
      some "query { pet { ... on Dog { name } } }" := by decide +kernel
  have hquery := Schema.eq_ok_of_toOption_eq_some hquery
  exact ⟨inputs, "schema", _, {}, text, _, {}, hreads, hquery, answer_serialize_of_build hreads hquery⟩

/-- A field under the key of a branch: the tree below is that of the branch, in an order that the type of the field does
not have, and reading it again puts it into the fixed order. -/
theorem answer_serialize_of_build_clash : ∃ (inputs : Inputs) (tree : Tree),
    answer inputs (.build "schema" ["n.on_X.on_Y.id", "n.on_X.id"] {}) =
      .ok "query { n { on_X { ... on Y { id } id } } }" ∧
    answer inputs (.generate "schema" {}) = .ok tree.toJson.writeIndented ∧
    readFile inputs "tree" = .ok (tree.toJson.switchOnAll ["n.on_X.on_Y.id", "n.on_X.id"]).writeIndented ∧
    answer inputs (.serialize "schema" "tree" {}) = .ok "query { n { on_X { id ... on Y { id } } } }" := by
  let text := "type Query { n: N } interface N { on_X: Y } type X implements N { on_X: Y on_Y: Y id: ID } " ++
    "type Y { id: ID }"
  let paths := ["n.on_X.on_Y.id", "n.on_X.id"]
  let inputs (tree : Tree) : Inputs := {
    file? := fun path => if path = "schema" then some text else some (tree.toJson.switchOnAll paths).writeIndented
    stdin? := none }
  have h : ((generateFrom text {}).toOption.any fun tree => decide
      ((answer (inputs tree) (.build "schema" paths {})).toOption = some "query { n { on_X { ... on Y { id } id } } }" ∧
        (answer (inputs tree) (.serialize "schema" "tree" {})).toOption =
          some "query { n { on_X { id ... on Y { id } } } }")) = true := by decide +kernel
  obtain ⟨tree, htree, h⟩ := (Option.any_eq_true _ _).mp h
  obtain ⟨hbuild, hserialize⟩ := of_decide_eq_true h
  have hreads : Reads (inputs tree) (.generate "schema" {}) text {} := ⟨rfl, rfl, rfl⟩
  refine ⟨inputs tree, tree, Schema.eq_ok_of_toOption_eq_some hbuild, ?_, rfl,
    Schema.eq_ok_of_toOption_eq_some hserialize⟩
  rw [answer_generate hreads, Schema.eq_ok_of_toOption_eq_some htree]
  rfl

end Command

end GraphSelect
