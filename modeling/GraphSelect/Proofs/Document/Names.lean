import GraphSelect.Document.Basic

/-!
# Names in documents

Every name token of a text is a GraphQL name (`scan_proper`), and no reader puts a token back that it did not take. So
the names that readers give are GraphQL names too; the main statement says it of the types that a document defines or
extends, with their fields, arguments and values (`hasNames_of_mem`).

`Reader.Gives r Q` is the rule the readers are put together by: on tokens whose names are names, `r` fails, or gives a
value with `Q` and leaves such tokens.
-/

namespace GraphSelect

/-! ## Parts of types -/

/-- Whether a field and its arguments have GraphQL names. -/
def Field.isNamed (f : Field) : Bool := Token.isName f.name && f.arguments.all fun v => Token.isName v.name

/-- Whether a value of an enum has a GraphQL name that is no other literal. -/
def EnumValue.isNamed (v : EnumValue) : Bool :=
  Token.isName v.name && decide (¬ (v.name = "true" ∨ v.name = "false" ∨ v.name = "null"))

/-- Whether the parts of a type that have names of their own have GraphQL names. -/
def TypeBody.isNamed : TypeBody → Bool
  | .object _ fields => fields.all Field.isNamed
  | .interface _ fields => fields.all Field.isNamed
  | .enum values => values.all EnumValue.isNamed
  | .input fields => fields.all fun v => Token.isName v.name
  | .scalar => true
  | .union _ => true

/-- Whether a type and its parts have GraphQL names. -/
def TypeDefinition.isNamed (t : TypeDefinition) : Bool := Token.isName t.name && t.body.isNamed

/-! ## Tokens -/

namespace Token

/-- A token that, if it is a name, is a GraphQL name. -/
def IsProper : Token → Prop
  | .name text => isName text = true
  | _ => True

theorem negate_proper {t : Token} (h : t.IsProper) : (negate t).IsProper := by
  cases t <;> exact h

theorem scanUnsigned?_proper {cs rest : List Char} {t : Token} (h : scanUnsigned? cs = some (t, rest)) :
    t.IsProper := by
  unfold scanUnsigned? at h
  repeat' split at h
  all_goals cases h
  all_goals exact trivial

theorem scanString?_proper {cs rest : List Char} {t : Token} (h : scanString? cs = some (t, rest)) : t.IsProper := by
  unfold scanString? at h
  split at h <;>
  · obtain ⟨_, _, he⟩ := Option.map_eq_some_iff.mp h
    obtain ⟨rfl, _⟩ := Prod.mk.inj he
    exact trivial

/-- A name token starts with a letter or an underscore and goes on with characters of names. -/
theorem scanToken?_proper {c : Char} {cs rest : List Char} {t : Token} (h : scanToken? c cs = some (t, rest)) :
    t.IsProper := by
  unfold scanToken? at h
  split at h
  · rename_i hc
    obtain ⟨rfl, _⟩ := Prod.mk.inj (Option.some.inj h)
    simp only [IsProper, isName, String.toList_ofList, hc, Bool.true_and, List.all_takeWhile]
  split at h
  · exact scanUnsigned?_proper h
  split at h
  · obtain ⟨_, hp, he⟩ := Option.map_eq_some_iff.mp h
    obtain ⟨rfl, _⟩ := Prod.mk.inj he
    exact negate_proper (scanUnsigned?_proper hp)
  split at h
  · exact scanString?_proper h
  split at h
  · split at h
    · obtain ⟨rfl, _⟩ := Prod.mk.inj (Option.some.inj h)
      exact trivial
    · cases h
  · obtain ⟨_, _, he⟩ := Option.map_eq_some_iff.mp h
    obtain ⟨rfl, _⟩ := Prod.mk.inj he
    exact trivial

/-- Every name token of a text is a GraphQL name. -/
theorem scan_proper {cs : List Char} {ts : List Token} (h : scan cs = some ts) : ∀ t ∈ ts, t.IsProper := by
  fun_induction scan cs generalizing ts with
  | case1 => cases h; simp
  | case2 _ _ _ ih => exact ih h
  | case3 _ _ ih => exact ih h
  | case4 => cases h
  | case5 c cs _ _ token rest ht _ ih =>
    obtain ⟨ts', hts, rfl⟩ := Option.map_eq_some_iff.mp h
    intro t hm
    rcases List.mem_cons.mp hm with rfl | hm
    · exact scanToken?_proper ht
    · exact ih hts t hm

end Token

/-! ## Readers -/

namespace Reader

/-- On tokens whose names are names, the reader gives only values with `Q` and leaves such tokens. -/
def Gives {α : Type} (r : Reader α) (Q : α → Prop) : Prop :=
  ∀ c a c', (∀ t ∈ c.tokens, t.IsProper) → r.run c = some (a, c') → Q a ∧ ∀ t ∈ c'.tokens, t.IsProper

/-- On tokens whose names are names, the reader leaves such tokens. -/
abbrev Keeps {α : Type} (r : Reader α) : Prop := Gives r fun _ => True

section Rules

variable {α β : Type} {r : Reader α} {Q : α → Prop} {Q' : β → Prop}

theorem Gives.pure {a : α} (h : Q a) : Gives (pure a) Q := by
  intro c a' c' hc he
  simp only [StateT.run_pure] at he
  obtain ⟨rfl, rfl⟩ := Prod.mk.inj (Option.some.inj he)
  exact ⟨h, hc⟩

theorem Gives.bind {f : α → Reader β} (h : Gives r Q) (hf : ∀ a, Q a → Gives (f a) Q') : Gives (r >>= f) Q' := by
  intro c b c' hc he
  simp only [StateT.run_bind] at he
  obtain ⟨⟨a, c₁⟩, hr, he⟩ := Option.bind_eq_some_iff.mp he
  obtain ⟨ha, hc₁⟩ := h c a c₁ hc hr
  exact hf a ha c₁ b c' hc₁ he

theorem Gives.weaken {P : α → Prop} (h : Gives r Q) (hw : ∀ a, Q a → P a) : Gives r P := fun c a c' hc he =>
  ⟨hw a (h c a c' hc he).1, (h c a c' hc he).2⟩

theorem Gives.keeps (h : Gives r Q) : Keeps r := h.weaken fun _ _ => trivial

theorem Gives.failure : Gives (failure : Reader α) Q := by
  intro c a c' _ he
  cases he

theorem Gives.failureThen {f : α → Reader β} : Gives ((Alternative.failure : Reader α) >>= f) Q' :=
  Gives.bind (Q := fun _ => False) .failure fun _ h => h.elim

theorem Gives.map {f : α → β} (h : Gives r Q) (hf : ∀ a, Q a → Q' (f a)) : Gives (f <$> r) Q' := by
  rw [← bind_pure_comp]
  exact h.bind fun a ha => .pure (hf a ha)

theorem Keeps.map {f : α → β} (h : Keeps r) : Keeps (f <$> r) := Gives.map h fun _ _ => trivial

theorem Keeps.then {f : α → Reader β} (h : Keeps r) (hf : ∀ a, Gives (f a) Q') : Gives (r >>= f) Q' :=
  Gives.bind h fun a _ => hf a

theorem Gives.ite {p : Prop} [Decidable p] {r' : Reader α} (h : Gives r Q) (h' : Gives r' Q) :
    Gives (if p then r else r') Q := by
  split <;> assumption

end Rules

/-! ## Steps and loops -/

section Steps

variable {α : Type} {r : Reader α}

theorem gives_get : Gives get fun c : Cursor => ∀ t ∈ c.tokens, t.IsProper := by
  intro c a c' hc he
  simp only [StateT.run_get] at he
  obtain ⟨rfl, rfl⟩ := Prod.mk.inj (Option.some.inj he)
  exact ⟨hc, hc⟩

theorem gives_peek? : Gives peek? fun t? => ∀ t ∈ t?, t.IsProper :=
  gives_get.bind fun _ hc => .pure fun t ht => hc t (List.mem_of_head? ht)

theorem keeps_peek? : Keeps peek? := gives_peek?.keeps

theorem keeps_position : Keeps position := gives_get.bind fun _ _ => .pure trivial

theorem keeps_left : Keeps left := gives_get.bind fun _ _ => .pure trivial

theorem gives_next : Gives next Token.IsProper := by
  refine gives_get.bind fun c hc => ?_
  obtain ⟨_ | ⟨t, rest⟩, n⟩ := c
  · exact .failure
  · intro c₁ a c' _ he
    obtain ⟨rfl, rfl⟩ := Prod.mk.inj (Option.some.inj he)
    exact ⟨hc _ (by simp), fun u hu => hc u (List.mem_cons_of_mem _ hu)⟩

theorem keeps_next : Keeps next := gives_next.keeps

theorem keeps_accept (t : Token) : Keeps (accept t) :=
  keeps_peek?.then fun _ => .ite (keeps_next.then fun _ => .pure trivial) (.pure trivial)

theorem keeps_expect (t : Token) : Keeps (expect t) :=
  (keeps_accept t).then fun _ => .ite (.pure trivial) .failure

/-- A name that is taken is a GraphQL name. -/
theorem gives_name : Gives name fun text => Token.isName text = true := by
  refine gives_next.bind fun t ht => ?_
  cases t with
  | name text => exact .pure ht
  | _ => exact .failure

theorem keeps_name : Keeps name := gives_name.keeps

theorem keeps_skipString : Keeps skipString := by
  refine keeps_peek?.then fun t? => ?_
  split
  · exact keeps_next.then fun _ => .pure trivial
  · exact .pure trivial

variable {Q : α → Prop}

theorem gives_untilMark (close : Punctuator) (h : Gives r Q) : ∀ n,
    Gives (untilMark close r n) fun xs => ∀ x ∈ xs, Q x
  | 0 => .failure
  | n + 1 => (keeps_accept _).then fun _ =>
    .ite (.pure (by simp)) (h.bind fun _ hx => (gives_untilMark close h n).bind fun _ hxs =>
      .pure (List.forall_mem_cons.mpr ⟨hx, hxs⟩))

theorem gives_between (first last : Punctuator) (h : Gives r Q) :
    Gives (between first last r) fun xs => ∀ x ∈ xs, Q x :=
  (keeps_expect _).then fun _ => h.bind fun _ hx => keeps_left.then fun _ =>
    (gives_untilMark last h _).bind fun _ hxs => .pure (List.forall_mem_cons.mpr ⟨hx, hxs⟩)

theorem gives_optionalBetween (first last : Punctuator) (h : Gives r Q) :
    Gives (optionalBetween first last r) fun xs => ∀ x ∈ xs, Q x :=
  keeps_peek?.then fun _ => .ite (gives_between first last h) (.pure (by simp))

theorem keeps_untilMark (close : Punctuator) (h : Keeps r) (n : Nat) : Keeps (untilMark close r n) :=
  (gives_untilMark close h n).keeps

theorem keeps_between (first last : Punctuator) (h : Keeps r) : Keeps (between first last r) :=
  (gives_between first last h).keeps

theorem keeps_optionalBetween (first last : Punctuator) (h : Keeps r) : Keeps (optionalBetween first last r) :=
  (gives_optionalBetween first last h).keeps

theorem keeps_separated (mark : Punctuator) (h : Keeps r) : ∀ n, Keeps (separated mark r n)
  | 0 => .failure
  | n + 1 => h.then fun _ => (keeps_accept _).then fun _ =>
    .ite ((keeps_separated mark h n).then fun _ => .pure trivial) (.pure trivial)

theorem keeps_list (mark : Punctuator) (h : Keeps r) : Keeps (list mark r) :=
  (keeps_accept _).then fun _ => keeps_left.then fun _ => keeps_separated mark h _

end Steps

/-! ## Values, types and directives -/

theorem keeps_literalWithin (constant : Bool) : ∀ depth, Keeps (literalWithin constant depth)
  | 0 => .failure
  | depth + 1 => by
    have ih := keeps_literalWithin constant depth
    refine keeps_next.then fun t => ?_
    split
    · exact .pure trivial
    · exact .pure trivial
    · exact .pure trivial
    · exact .pure trivial
    · exact .ite .failure keeps_name.map
    · exact keeps_left.then fun _ => (keeps_untilMark _ ih _).map
    · exact keeps_left.then fun _ => (keeps_untilMark _
        (keeps_name.then fun _ => (keeps_expect _).then fun _ => ih.then fun _ => .pure trivial) _).map
    · exact .failure

theorem keeps_literal (constant : Bool) : Keeps (literal constant) :=
  keeps_left.then fun _ => keeps_literalWithin constant _

theorem keeps_typeRefWithin : ∀ depth, Keeps (typeRefWithin depth)
  | 0 => .failure
  | depth + 1 => by
    refine keeps_next.then fun t => ?_
    split
    · exact (keeps_accept _).then fun _ => .pure trivial
    · exact (keeps_typeRefWithin depth).then fun _ => (keeps_expect _).then fun _ =>
        (keeps_accept _).then fun _ => .pure trivial
    · exact .failure

theorem keeps_typeRef : Keeps typeRef := keeps_left.then fun _ => keeps_typeRefWithin _

theorem keeps_argument (constant : Bool) : Keeps (argument constant) :=
  keeps_position.then fun _ => keeps_name.then fun _ => (keeps_expect _).then fun _ =>
    (keeps_literal constant).then fun _ => .pure trivial

theorem keeps_arguments (constant : Bool) : Keeps (arguments constant) :=
  keeps_optionalBetween _ _ (keeps_argument constant)

theorem keeps_directivesWithin (constant : Bool) : ∀ n, Keeps (directivesWithin constant n)
  | 0 => .pure trivial
  | n + 1 => keeps_position.then fun _ => (keeps_accept _).then fun _ =>
    .ite (keeps_name.then fun _ => (keeps_arguments constant).then fun _ =>
      (keeps_directivesWithin constant n).then fun _ => .pure trivial) (.pure trivial)

theorem keeps_directives (constant : Bool) : Keeps (directives constant) :=
  keeps_left.then fun _ => keeps_directivesWithin constant _

/-! ## Operations and fragments -/

theorem keeps_name? : Keeps name? := by
  refine keeps_peek?.then fun t? => ?_
  split
  · exact keeps_next.then fun _ => .pure trivial
  · exact .pure trivial

theorem keeps_selectionWithin : ∀ depth, Keeps (selectionWithin depth)
  | 0 => .failure
  | depth + 1 => by
    have hbody := keeps_between .openBrace .closeBrace (keeps_selectionWithin depth)
    refine (keeps_accept _).then fun _ => .ite (keeps_name?.then fun text? => ?_) (keeps_name.then fun _ =>
      (keeps_accept _).then fun _ => ?_)
    · split
      · exact .ite (keeps_name.then fun _ => (keeps_directives false).then fun _ => hbody.then fun _ => .pure trivial)
          ((keeps_directives false).then fun _ => .pure trivial)
      · exact (keeps_directives false).then fun _ => hbody.then fun _ => .pure trivial
    · refine .ite (keeps_name.map.then fun second? => ?_) (Keeps.then (.pure trivial) fun second? => ?_)
      all_goals
        refine (keeps_arguments false).then fun _ => (keeps_directives false).then fun _ => keeps_peek?.then fun _ =>
          .ite (hbody.map.then fun _ => ?_) (Keeps.then (.pure trivial) fun _ => ?_)
        all_goals split <;> exact .pure trivial

theorem keeps_selectionSet : Keeps selectionSet :=
  keeps_left.then fun _ => keeps_between _ _ (keeps_selectionWithin _)

theorem keeps_default? : Keeps default? :=
  (keeps_accept _).then fun _ => .ite (keeps_literal true).map (.pure trivial)

theorem keeps_variableDefinition : Keeps variableDefinition := by
  refine (keeps_expect _).then fun _ => keeps_name.then fun _ => (keeps_expect _).then fun _ =>
    keeps_typeRef.then fun _ => (keeps_accept _).then fun _ =>
    .ite ((keeps_literal true).map.then fun _ => ?_) (Keeps.then (.pure trivial) fun _ => ?_)
  all_goals exact (keeps_directives true).then fun _ => .pure trivial

theorem keeps_operation : Keeps operation := by
  refine keeps_peek?.then fun t? => ?_
  split
  · split
    · exact keeps_next.then fun _ => keeps_name?.then fun _ =>
        (keeps_optionalBetween _ _ keeps_variableDefinition).then fun _ => (keeps_directives false).then fun _ =>
        keeps_selectionSet.then fun _ => .pure trivial
    · exact .failure
  · exact keeps_selectionSet.then fun _ => .pure trivial

theorem keeps_fragment : Keeps fragment :=
  (keeps_expect _).then fun _ => keeps_name.then fun _ => .ite .failureThen
    ((keeps_expect _).then fun _ => keeps_name.then fun _ => (keeps_directives false).then fun _ =>
      keeps_selectionSet.then fun _ => .pure trivial)

/-! ## Definitions -/

theorem gives_inputValue : Gives inputValue fun v => Token.isName v.name = true :=
  keeps_skipString.then fun _ => keeps_position.then fun _ => gives_name.bind fun _ hkey =>
    (keeps_expect _).then fun _ => keeps_position.then fun _ => keeps_typeRef.then fun _ => keeps_default?.then fun _ =>
    (keeps_directives true).then fun _ => .pure hkey

theorem gives_fieldDefinition : Gives fieldDefinition fun f => f.isNamed = true :=
  keeps_skipString.then fun _ => keeps_position.then fun _ => gives_name.bind fun _ hkey =>
    (gives_optionalBetween _ _ gives_inputValue).bind fun _ hparameters => (keeps_expect _).then fun _ =>
    keeps_position.then fun _ => keeps_typeRef.then fun _ => (keeps_directives true).then fun _ =>
    .pure (by rw [Field.isNamed, hkey, Bool.true_and, List.all_eq_true]; exact hparameters)

theorem keeps_mention : Keeps mention := keeps_position.then fun _ => keeps_name.then fun _ => .pure trivial

theorem gives_enumValue : Gives enumValue fun v => v.isNamed = true := by
  refine keeps_skipString.then fun _ => keeps_position.then fun _ => gives_name.bind fun key hkey => ?_
  split
  · exact .failureThen
  · rename_i hno
    refine (keeps_directives true).then fun _ => .pure ?_
    rw [EnumValue.isNamed, hkey, Bool.true_and, decide_eq_true hno]

theorem keeps_rootMention : Keeps rootMention := by
  refine keeps_name.then fun _ => ?_
  split
  · exact (keeps_expect _).then fun _ => keeps_mention.then fun _ => .pure trivial
  · exact .failure

theorem keeps_interfaces : Keeps interfaces :=
  (keeps_accept _).then fun _ => .ite (keeps_list _ keeps_mention) (.pure trivial)

theorem gives_fields : Gives fields fun fs => ∀ f ∈ fs, f.isNamed = true :=
  gives_optionalBetween _ _ gives_fieldDefinition

theorem keeps_roots : Keeps roots := keeps_optionalBetween _ _ keeps_rootMention

theorem keeps_directivePlace : Keeps directivePlace := by
  refine keeps_name.then fun _ => ?_
  split
  · exact .pure trivial
  · exact .failure

/-- The names in a type definition that is read are GraphQL names. -/
theorem gives_typeDefinition (keyword : String) : Gives (typeDefinition keyword) fun t => t.isNamed = true := by
  refine keeps_position.then fun _ => gives_name.bind fun key hkey => ?_
  have isNamed (body : TypeBody) (hbody : body.isNamed = true) (given : List Directive) (place : Nat) :
      (TypeDefinition.mk key body given place).isNamed = true := by
    rw [TypeDefinition.isNamed, hkey, hbody, Bool.true_and]
  split
  · exact (keeps_directives true).then fun _ => .pure (isNamed _ rfl _ _)
  · exact keeps_interfaces.then fun _ => (keeps_directives true).then fun _ => gives_fields.bind fun fs hfields =>
      .pure (isNamed (.object _ fs) (List.all_eq_true.mpr hfields) _ _)
  · exact keeps_interfaces.then fun _ => (keeps_directives true).then fun _ => gives_fields.bind fun fs hfields =>
      .pure (isNamed (.interface _ fs) (List.all_eq_true.mpr hfields) _ _)
  · refine (keeps_directives true).then fun _ => (keeps_accept _).then fun _ =>
      .ite ((keeps_list _ keeps_mention).then fun _ => ?_) (Keeps.then (.pure trivial) fun _ => ?_)
    all_goals exact .pure (isNamed _ rfl _ _)
  · exact (keeps_directives true).then fun _ => (gives_optionalBetween _ _ gives_enumValue).bind fun vs hvalues =>
      .pure (isNamed (.enum vs) (List.all_eq_true.mpr hvalues) _ _)
  · exact (keeps_directives true).then fun _ => (gives_optionalBetween _ _ gives_inputValue).bind fun vs hfields =>
      .pure (isNamed (.input vs) (List.all_eq_true.mpr hfields) _ _)
  · exact .failure

/-- The names in the definition or extension of a type are GraphQL names; nothing is asked of the other definitions. -/
def HasNames : Definition → Prop
  | .type t => t.isNamed = true
  | .typeExtension t => t.isNamed = true
  | _ => True

theorem gives_extensionDefinition (place : Nat) : Gives (extensionDefinition place) HasNames := by
  refine keeps_name.then fun _ => .ite ?_ ?_
  · exact (keeps_directives true).then fun _ => keeps_roots.then fun _ =>
      .ite .failureThen (.pure trivial)
  · exact (gives_typeDefinition _).bind fun _ ht => .ite (.pure ht) .failure

theorem keeps_directiveDefinition : Keeps directiveDefinition :=
  (keeps_expect _).then fun _ => keeps_position.then fun _ => keeps_name.then fun _ =>
    (keeps_optionalBetween _ _ gives_inputValue.keeps).then fun _ => (keeps_accept _).then fun _ =>
    (keeps_expect _).then fun _ => (keeps_list _ keeps_directivePlace).then fun _ => .pure trivial

theorem gives_definition : Gives definition HasNames := by
  have hoperation (place : Nat) : Gives (do pure (Definition.operation (← operation) place)) HasNames :=
    keeps_operation.then fun _ => .pure trivial
  refine keeps_skipString.then fun isDescribed => keeps_position.then fun place => keeps_peek?.then fun t? => ?_
  split
  · exact .ite .failure (hoperation place)
  · exact .ite .failure (hoperation place)
  · exact .ite .failure (hoperation place)
  · exact .ite .failure (hoperation place)
  · exact .ite .failure (keeps_fragment.then fun _ => .pure trivial)
  · exact .ite .failureThen (keeps_next.then fun _ => gives_extensionDefinition place)
  · exact keeps_next.then fun _ => (keeps_directives true).then fun _ =>
      (keeps_between _ _ keeps_rootMention).then fun _ => .pure trivial
  · exact keeps_next.then fun _ => Gives.map keeps_directiveDefinition fun _ _ => trivial
  · exact keeps_next.then fun _ => (gives_typeDefinition _).map fun _ h => h
  · exact .failure

theorem gives_definitionsWithin : ∀ n, Gives (definitionsWithin n) fun ds => ∀ d ∈ ds, HasNames d
  | 0 => .failure
  | n + 1 => gives_definition.bind fun first hfirst => keeps_peek?.then fun _ =>
    .ite (.pure (by simpa using hfirst)) ((gives_definitionsWithin n).bind fun rest hrest =>
      .pure (by simpa using And.intro hfirst hrest))

end Reader

/-! ## Documents -/

namespace Document

/-- The names in the definitions of a text are GraphQL names. -/
theorem hasNames_of_mem {text : String} {document : Document} (h : read? text = some document) {d : Definition}
    (hd : d ∈ document) : Reader.HasNames d := by
  obtain ⟨tokens, hscan, h⟩ := Option.bind_eq_some_iff.mp h
  obtain ⟨⟨ds, c⟩, hrun, h⟩ := Option.bind_eq_some_iff.mp h
  obtain rfl := Option.some.inj h
  exact (Reader.gives_definitionsWithin _ ⟨tokens, 0⟩ _ c (Token.scan_proper hscan) hrun).1 d hd

/-- The names in the type definitions of a text are GraphQL names. -/
theorem isNamed_of_mem_typeDefinitions {text : String} {document : Document} (h : read? text = some document)
    {t : TypeDefinition} (ht : .type t ∈ document) : t.isNamed = true :=
  hasNames_of_mem h ht

/-- The names in the type extensions of a text are GraphQL names. -/
theorem isNamed_of_mem_typeExtensions {text : String} {document : Document} (h : read? text = some document)
    {t : TypeDefinition} (ht : .typeExtension t ∈ document) : t.isNamed = true :=
  hasNames_of_mem h ht

end Document

end GraphSelect
