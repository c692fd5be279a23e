import GraphSelect.Document.Basic
import GraphSelect.Proofs.Document.Scanning
import Mathlib.Data.List.Forall2

/-!
# Reading written operations

The tokens of an operation are read as a document with that operation and nothing else (`Document.exists_read?_eq`).
What is read is spelled, with a place for each argument and room for aliases, directives and variables;
`SpelledOperation.operation?` is the operation that it stands for if it has none of them.

`Reader.Reads r ts rest Q` is the rule the readers are put together by: on the tokens `ts` the reader gives a value with
`Q` and leaves `rest`. An item ends where a field could go on, so what is left has to start with a token that does not
belong to it (`Token.endsItem`).
-/

namespace GraphSelect

/-! ## Operations that are spelled -/

/-- An argument without its place. -/
def Argument.pair (a : Argument) : String × Literal := (a.name, a.value)

mutual

/-- The item that a selection stands for, if it has no alias and no directives and is no spread. -/
def SpelledSelection.item? : SpelledSelection → Option Item
  | .field none name arguments [] none =>
    if name = Key.typename ∧ arguments.isEmpty then some .typename
    else some (.scalar name (arguments.map Argument.pair))
  | .field none name arguments [] (some selections) =>
    (spelledItems? selections).map (.composite name (arguments.map Argument.pair))
  | .inline (some type) [] selections => (spelledItems? selections).map (.fragment type)
  | _ => none

/-- The items that selections stand for. -/
def spelledItems? : List SpelledSelection → Option (List Item)
  | [] => some []
  | selection :: selections => selection.item?.bind fun i => (spelledItems? selections).map (i :: ·)

end

/-- The operation that a spelled one stands for, if it has no variables and no directives. -/
def SpelledOperation.operation? (operation : SpelledOperation) : Option Operation :=
  if operation.variableDefinitions.isEmpty && operation.directives.isEmpty then
    (spelledItems? operation.selections).map fun items => ⟨operation.kind, operation.name?, items⟩
  else none

theorem spelledItems?_of_forall₂ {selections : List SpelledSelection} {items : List Item}
    (h : List.Forall₂ (fun selection i => selection.item? = some i) selections items) :
    spelledItems? selections = some items := by
  induction h with
  | nil => rfl
  | cons hi _ ih => rw [spelledItems?, hi, ih]; rfl

namespace Reader

/-- On the tokens `ts` the reader gives a value with `Q` and leaves `rest`. -/
def Reads {α : Type} (r : Reader α) (ts rest : List Token) (Q : α → Prop) : Prop :=
  ∀ n, ∃ a m, r.run ⟨ts, n⟩ = some (a, ⟨rest, m⟩) ∧ Q a

/-! ## Rules -/

section Rules

variable {α β : Type} {r r' : Reader α} {ts us rest : List Token} {Q : α → Prop} {Q' : β → Prop}

theorem Reads.pure {a : α} (h : Q a) : Reads (pure a) ts ts Q := fun n => ⟨a, n, rfl, h⟩

theorem Reads.bind {f : α → Reader β} (h : Reads r ts us Q) (hf : ∀ a, Q a → Reads (f a) us rest Q') :
    Reads (r >>= f) ts rest Q' := by
  intro n
  obtain ⟨a, m, hr, ha⟩ := h n
  obtain ⟨b, m', hb, hQ⟩ := hf a ha m
  refine ⟨b, m', ?_, hQ⟩
  simp only [StateT.run_bind, hr]
  exact hb

theorem Reads.weaken {P : α → Prop} (h : Reads r ts rest Q) (hw : ∀ a, Q a → P a) : Reads r ts rest P := by
  intro n
  obtain ⟨a, m, hr, ha⟩ := h n
  exact ⟨a, m, hr, hw a ha⟩

theorem Reads.map {f : α → β} (h : Reads r ts rest Q) (hf : ∀ a, Q a → Q' (f a)) : Reads (f <$> r) ts rest Q' := by
  rw [← bind_pure_comp]
  exact h.bind fun a ha => .pure (hf a ha)

theorem Reads.iteTrue {p : Prop} [Decidable p] (hp : p) (h : Reads r ts rest Q) :
    Reads (if p then r else r') ts rest Q := by
  rwa [if_pos hp]

theorem Reads.iteFalse {p : Prop} [Decidable p] (hp : ¬ p) (h : Reads r' ts rest Q) :
    Reads (if p then r else r') ts rest Q := by
  rwa [if_neg hp]

end Rules

/-! ## Steps -/

section Steps

variable {ts rest : List Token}

theorem reads_get : Reads get ts ts fun c : Cursor => c.tokens = ts := fun n => ⟨⟨ts, n⟩, n, rfl, rfl⟩

theorem reads_peek? : Reads peek? ts ts (· = ts.head?) := by
  refine reads_get.bind fun c hc => .pure ?_
  rw [hc]

theorem reads_position : Reads position ts ts fun _ => True := reads_get.bind fun _ _ => .pure trivial

theorem reads_left : Reads left ts ts (· = ts.length) := by
  refine reads_get.bind fun c hc => .pure ?_
  rw [hc]

theorem reads_next {t : Token} : Reads next (t :: ts) ts (· = t) := fun n => ⟨t, n + 1, rfl, rfl⟩

theorem reads_accept {t : Token} : Reads (accept t) (t :: ts) ts (· = true) := by
  refine reads_peek?.bind fun t? ht => ?_
  subst ht
  exact .iteTrue rfl (reads_next.bind fun _ _ => .pure rfl)

theorem reads_accept_of_ne {t : Token} (h : ts.head? ≠ some t) : Reads (accept t) ts ts (· = false) := by
  refine reads_peek?.bind fun t? ht => ?_
  subst ht
  exact .iteFalse h (.pure rfl)

theorem reads_expect {t : Token} : Reads (expect t) (t :: ts) ts fun _ => True := by
  refine reads_accept.bind fun b hb => ?_
  subst hb
  exact .pure trivial

theorem reads_name {text : String} : Reads name (.name text :: ts) ts (· = text) := by
  refine reads_next.bind fun t ht => ?_
  subst ht
  exact .pure rfl

theorem reads_name? {text : String} : Reads name? (.name text :: ts) ts (· = some text) := by
  refine reads_peek?.bind fun t? ht => ?_
  subst ht
  exact reads_next.bind fun _ _ => .pure rfl

theorem reads_name?_mark {m : Punctuator} : Reads name? (.mark m :: ts) (.mark m :: ts) (· = none) := by
  refine reads_peek?.bind fun t? ht => ?_
  subst ht
  exact .pure rfl

theorem reads_skipString_name {text : String} :
    Reads skipString (.name text :: ts) (.name text :: ts) (· = false) := by
  refine reads_peek?.bind fun t? ht => ?_
  subst ht
  exact .pure rfl

end Steps

/-! ## Loops -/

section Loops

variable {α β : Type} {r : Reader α} {P : α → β → Prop} {tokens : β → List Token} {close : Punctuator}

theorem length_le_length_flatMap : ∀ {bs : List β}, (∀ b ∈ bs, 0 < (tokens b).length) →
    bs.length ≤ (bs.flatMap tokens).length
  | [], _ => Nat.le_refl 0
  | b :: bs, h => by
    obtain ⟨hb, h⟩ := List.forall_mem_cons.mp h
    have hbs := length_le_length_flatMap h
    simp only [List.flatMap_cons, List.length_append, List.length_cons]
    omega

section Starts

variable {F : List Token → Prop} {rest : List Token} {bs : List β} (hclose : F (.mark close :: rest))
  (hstart : ∀ b ∈ bs, ∀ us, F (tokens b ++ us) ∧ (tokens b ++ us).head? ≠ some (.mark close))
include hclose hstart

/-- What follows a value is the next one or the closing mark. -/
theorem follows_flatMap : F (bs.flatMap tokens ++ .mark close :: rest) := by
  cases bs with
  | nil => exact hclose
  | cons b bs =>
    rw [List.flatMap_cons, List.append_assoc]
    exact (hstart b List.mem_cons_self _).1

/-- A loop up to a mark reads one value after the other, if the reader reads each of them in front of what can follow
it, `F`, and none of them starts with the mark. -/
theorem reads_untilMark {n : Nat} (hn : bs.length < n)
    (hread : ∀ b ∈ bs, ∀ us, F us → Reads r (tokens b ++ us) us (P · b)) :
    Reads (untilMark close r n) (bs.flatMap tokens ++ .mark close :: rest) rest fun xs => List.Forall₂ P xs bs := by
  induction bs generalizing n with
  | nil =>
    obtain ⟨n, rfl⟩ : ∃ m, n = m + 1 := ⟨n - 1, by simp only [List.length_nil] at hn; omega⟩
    refine reads_accept.bind fun c hc => ?_
    subst hc
    exact .iteTrue rfl (.pure .nil)
  | cons b bs ih =>
    obtain ⟨n, rfl⟩ : ∃ m, n = m + 1 := ⟨n - 1, by simp only [List.length_cons] at hn; omega⟩
    obtain ⟨hb, hread⟩ := List.forall_mem_cons.mp hread
    obtain ⟨hbstart, hstart⟩ := List.forall_mem_cons.mp hstart
    have hn' : bs.length < n := by
      simp only [List.length_cons] at hn
      omega
    rw [List.flatMap_cons, List.append_assoc]
    refine (reads_accept_of_ne (hbstart _).2).bind fun c hc => ?_
    subst hc
    refine .iteFalse Bool.false_ne_true ((hb _ (follows_flatMap hclose hstart)).bind fun x hx => ?_)
    exact (ih hstart hn' hread).bind fun xs hxs => .pure (.cons hx hxs)

/-- Values between two marks are read, at least one, under the same conditions. -/
theorem reads_between {first : Punctuator} (hne : bs ≠ []) (hlength : ∀ b ∈ bs, 0 < (tokens b).length)
    (hread : ∀ b ∈ bs, ∀ us, F us → Reads r (tokens b ++ us) us (P · b)) :
    Reads (between first close r) (.mark first :: bs.flatMap tokens ++ .mark close :: rest) rest
      fun xs => List.Forall₂ P xs bs := by
  obtain ⟨b, bs, rfl⟩ := List.exists_cons_of_ne_nil hne
  obtain ⟨hb, hread⟩ := List.forall_mem_cons.mp hread
  obtain ⟨_, hstart⟩ := List.forall_mem_cons.mp hstart
  obtain ⟨_, hlength⟩ := List.forall_mem_cons.mp hlength
  have hbound : bs.length < (bs.flatMap tokens ++ .mark close :: rest).length + 1 := by
    have hle := length_le_length_flatMap hlength
    simp only [List.length_append, List.length_cons]
    omega
  rw [List.flatMap_cons, List.cons_append, List.append_assoc]
  refine reads_expect.bind fun _ _ => (hb _ (follows_flatMap hclose hstart)).bind fun x hx =>
    reads_left.bind fun n hn => ?_
  subst hn
  exact (reads_untilMark hclose hstart hbound hread).bind fun xs hxs => .pure (.cons hx hxs)

end Starts

theorem reads_optionalBetween_of_ne {first : Punctuator} {ts : List Token} (h : ts.head? ≠ some (.mark first)) :
    Reads (optionalBetween first close r) ts ts (· = []) := by
  refine reads_peek?.bind fun t? ht => ?_
  subst ht
  exact .iteFalse h (.pure rfl)

end Loops

/-! ## Literals and arguments -/

theorem fieldTokens_eq_flatMap : ∀ fields : List (String × Literal),
    fieldTokens fields = fields.flatMap fun f => .name f.1 :: .mark .colon :: f.2.tokens
  | [] => rfl
  | (name, value) :: fields => by
    rw [fieldTokens, fieldTokens_eq_flatMap fields, List.flatMap_cons, List.cons_append, List.cons_append]

theorem length_tokens_le {fields : List (String × Literal)} {f : String × Literal} (h : f ∈ fields) :
    f.2.tokens.length ≤ (fieldTokens fields).length := by
  induction fields with
  | nil => cases h
  | cons g fields ih =>
    obtain ⟨name, value⟩ := g
    simp only [fieldTokens, List.cons_append, List.length_cons, List.length_append]
    rcases List.mem_cons.mp h with rfl | h
    · dsimp only
      omega
    · have := ih h
      omega

/-- A placeholder is read from its tokens, with as many levels as there are tokens. -/
theorem reads_literalWithin {value : Literal} (h : value.IsPlaceholder) (constant : Bool) : ∀ (depth : Nat)
    (rest : List Token), value.tokens.length ≤ depth →
    Reads (literalWithin constant depth) (value.tokens ++ rest) rest (· = value) := by
  induction h with
  | zero | zeroPointZero | emptyString =>
    intro depth rest hdepth
    obtain ⟨n, rfl⟩ : ∃ n, depth = n + 1 := ⟨depth - 1, by simp [Literal.tokens] at hdepth; omega⟩
    refine reads_next.bind fun t ht => ?_
    subst ht
    exact .pure rfl
  | @bool value =>
    intro depth rest hdepth
    cases value with
    | true | false =>
      obtain ⟨n, rfl⟩ : ∃ n, depth = n + 1 := ⟨depth - 1, by simp [Literal.tokens] at hdepth; omega⟩
      refine reads_next.bind fun t ht => ?_
      subst ht
      exact .pure rfl
  | @enum name _ hname =>
    intro depth rest hdepth
    obtain ⟨n, rfl⟩ : ∃ n, depth = n + 1 := ⟨depth - 1, by simp [Literal.tokens] at hdepth; omega⟩
    refine reads_next.bind fun t ht => ?_
    subst ht
    simp only [not_or] at hname
    refine .pure ?_
    simp [nameLiteral, hname]
  | emptyList =>
    intro depth rest hdepth
    obtain ⟨n, rfl⟩ : ∃ n, depth = n + 1 := ⟨depth - 1, by simp [Literal.tokens] at hdepth; omega⟩
    refine reads_next.bind fun t ht => ?_
    subst ht
    refine reads_left.bind fun m hm => ?_
    refine Reads.map (Q := (· = [])) ?_ fun _ ha => congrArg Literal.list ha
    refine reads_accept.bind fun b hb => ?_
    subst hb
    exact .iteTrue rfl (.pure rfl)
  | @object fields _ _ ih =>
    intro depth rest hdepth
    simp only [Literal.tokens, List.cons_append, List.length_cons, List.length_append] at hdepth
    obtain ⟨n, rfl⟩ : ∃ n, depth = n + 1 := ⟨depth - 1, by omega⟩
    have hle : fields.length ≤ (fieldTokens fields).length := by
      rw [fieldTokens_eq_flatMap]
      exact length_le_length_flatMap (by simp)
    have hbound : fields.length < (fieldTokens fields ++ .mark .closeBrace :: rest).length + 1 := by
      simp only [List.length_append, List.length_cons]
      omega
    have htokens : (Literal.object fields).tokens ++ rest =
        .mark .openBrace :: (fieldTokens fields ++ .mark .closeBrace :: rest) := by
      simp [Literal.tokens]
    rw [htokens]
    refine reads_next.bind fun t ht => ?_
    subst ht
    refine reads_left.bind fun m hm => ?_
    subst hm
    rw [fieldTokens_eq_flatMap] at hbound ⊢
    refine Reads.map (reads_untilMark (P := (· = ·)) (F := fun _ => True) trivial (fun _ _ _ => ⟨trivial, by simp⟩)
      hbound fun f hf us _ => ?_) fun xs hxs => ?_
    · have hlength := length_tokens_le hf
      refine reads_name.bind fun key hkey => reads_expect.bind fun _ _ => ?_
      refine (ih f hf n us (by omega)).bind fun v hv => .pure ?_
      rw [hkey, hv]
    · rw [List.forall₂_eq_eq_eq] at hxs
      rw [hxs]

theorem reads_literal {value : Literal} (h : value.IsPlaceholder) (constant : Bool) (rest : List Token) :
    Reads (literal constant) (value.tokens ++ rest) rest (· = value) := by
  refine reads_left.bind fun n hn => ?_
  have hle : value.tokens.length ≤ n := by
    rw [hn, List.length_append]
    omega
  exact reads_literalWithin h constant n rest hle

theorem reads_argument {name : String} {value : Literal} (h : value.IsPlaceholder) (constant : Bool)
    (rest : List Token) : Reads (argument constant) (.name name :: .mark .colon :: value.tokens ++ rest) rest
      fun a => a.pair = (name, value) := by
  refine reads_position.bind fun place _ => reads_name.bind fun key hkey => reads_expect.bind fun _ _ => ?_
  refine (reads_literal h constant rest).bind fun v hv => .pure ?_
  rw [Argument.pair, hkey, hv]

/-- The arguments of a field are read, or none if what follows the name does not open any. -/
theorem reads_arguments {given : List (String × Literal)} (h : ArePlaceholders given) (constant : Bool)
    {rest : List Token} (hrest : rest.head? ≠ some (.mark .openParen)) :
    Reads (arguments constant) (argumentTokens given ++ rest) rest fun as => as.map Argument.pair = given := by
  cases given with
  | nil =>
    refine (reads_optionalBetween_of_ne hrest).weaken fun as has => ?_
    rw [has]
    rfl
  | cons a given =>
    refine reads_peek?.bind fun t? ht => ?_
    subst ht
    refine .iteTrue rfl ?_
    have htokens : argumentTokens (a :: given) ++ rest = .mark .openParen ::
        (a :: given).flatMap (fun f => .name f.1 :: .mark .colon :: f.2.tokens) ++ .mark .closeParen :: rest := by
      rw [argumentTokens, fieldTokens_eq_flatMap]
      simp
    have hread : ∀ b ∈ a :: given, ∀ us, True → Reads (argument constant)
        (.name b.1 :: .mark .colon :: b.2.tokens ++ us) us (fun x => x.pair = b) :=
      fun b hb us _ => reads_argument (h b hb).2 constant us
    rw [htokens]
    refine (reads_between (F := fun _ => True) trivial (fun _ _ _ => ⟨trivial, by simp⟩) (List.cons_ne_nil _ _)
      (by simp) hread).weaken fun xs hxs => ?_
    rw [← List.forall₂_eq_eq_eq, List.forall₂_map_left_iff]
    exact hxs

theorem reads_directives (constant : Bool) {ts : List Token} (h : ts.head? ≠ some (.mark .at)) :
    Reads (directives constant) ts ts (· = []) := by
  refine reads_left.bind fun n _ => ?_
  cases n with
  | zero => exact .pure rfl
  | succ n =>
    refine reads_position.bind fun place _ => (reads_accept_of_ne h).bind fun b hb => ?_
    subst hb
    exact .iteFalse Bool.false_ne_true (.pure rfl)

/-! ## Selections -/

theorem itemTokens_eq_flatMap : ∀ items : List Item, itemTokens items = items.flatMap Item.tokens
  | [] => rfl
  | item :: items => by rw [itemTokens, itemTokens_eq_flatMap items, List.flatMap_cons]

theorem length_item_tokens_le {items : List Item} {i : Item} (h : i ∈ items) :
    i.tokens.length ≤ (itemTokens items).length := by
  rw [itemTokens_eq_flatMap]
  exact (List.sublist_flatten_of_mem (List.mem_map_of_mem h)).length_le

/-- Whether an item ends in front of some tokens: they start with another item or the end of the selection set. -/
def endsItem : List Token → Bool
  | .name _ :: _ => true
  | .mark .spread :: _ => true
  | .mark .closeBrace :: _ => true
  | _ => false

theorem head?_of_endsItem {ts : List Token} (h : endsItem ts = true) :
    ts.head? ≠ some (.mark .colon) ∧ ts.head? ≠ some (.mark .openParen) ∧ ts.head? ≠ some (.mark .at) ∧
      ts.head? ≠ some (.mark .openBrace) := by
  unfold endsItem at h
  split at h
  · simp
  · simp
  · simp
  · cases h

/-- Another item ends in front of an item, which is no end of a selection set. -/
theorem starts_item (i : Item) (us : List Token) :
    endsItem (i.tokens ++ us) = true ∧ (i.tokens ++ us).head? ≠ some (.mark .closeBrace) := by
  cases i with
  | typename => exact ⟨rfl, by simp [Item.tokens]⟩
  | scalar _ _ => exact ⟨rfl, by simp [Item.tokens]⟩
  | composite _ _ _ => exact ⟨rfl, by simp [Item.tokens]⟩
  | fragment _ _ => exact ⟨rfl, by simp [Item.tokens]⟩

theorem length_item_tokens_pos (i : Item) : 0 < i.tokens.length := by
  cases i <;> simp [Item.tokens]

section Selections

variable {depth : Nat} {us rest : List Token}

/-- A field is read with its arguments and, if one follows, with its selection set. -/
theorem reads_field {name : String} {given : List (String × Literal)} (hgiven : ArePlaceholders given)
    {Q : Option (List SpelledSelection) → Prop} (hcolon : us.head? ≠ some (.mark .colon))
    (hparen : us.head? ≠ some (.mark .openParen)) (hat : us.head? ≠ some (.mark .at))
    (hnone : us.head? ≠ some (.mark .openBrace) → us = rest ∧ Q none)
    (hsome : us.head? = some (.mark .openBrace) →
      Reads (between .openBrace .closeBrace (selectionWithin depth)) us rest fun body => Q (some body)) :
    Reads (selectionWithin (depth + 1)) (.name name :: (argumentTokens given ++ us)) rest fun selection =>
      ∃ as inner, selection = .field none name as [] inner ∧ as.map Argument.pair = given ∧ Q inner := by
  have hcolon' : (argumentTokens given ++ us).head? ≠ some (.mark .colon) := by
    cases given with
    | nil => exact hcolon
    | cons _ _ => simp [argumentTokens]
  refine (reads_accept_of_ne (by simp)).bind fun b hb => ?_
  subst hb
  refine .iteFalse Bool.false_ne_true (reads_name.bind fun first hfirst => ?_)
  subst hfirst
  refine (reads_accept_of_ne hcolon').bind fun b hb => ?_
  subst hb
  refine .iteFalse Bool.false_ne_true (Reads.bind (Q := (· = none)) (.pure rfl) fun second? hsecond => ?_)
  subst hsecond
  refine (reads_arguments hgiven false hparen).bind fun as has => ?_
  refine (reads_directives false hat).bind fun marks hmarks => ?_
  subst hmarks
  refine reads_peek?.bind fun t? ht => ?_
  subst ht
  by_cases hbrace : us.head? = some (.mark .openBrace)
  · refine .iteTrue hbrace (Reads.bind (Q := Q) ((hsome hbrace).map fun body hbody => hbody) fun inner hinner => ?_)
    exact .pure ⟨as, inner, rfl, has, hinner⟩
  · obtain ⟨rfl, hQ⟩ := hnone hbrace
    refine .iteFalse hbrace (Reads.bind (Q := Q) (.pure hQ) fun inner hinner => ?_)
    exact .pure ⟨as, inner, rfl, has, hinner⟩

/-- A selection set is read as its items, if each of them is. -/
theorem reads_body {body : List Item} (hne : body ≠ []) (hdepth : (itemTokens body).length ≤ depth)
    (h : ∀ i ∈ body, ∀ depth us, i.tokens.length ≤ depth → endsItem us = true →
      Reads (selectionWithin depth) (i.tokens ++ us) us fun selection => selection.item? = some i) (rest : List Token) :
    Reads (between .openBrace .closeBrace (selectionWithin depth))
      (.mark .openBrace :: (itemTokens body ++ .mark .closeBrace :: rest)) rest
      fun selections => spelledItems? selections = some body := by
  have hitem : ∀ i ∈ body, ∀ us, endsItem us = true →
      Reads (selectionWithin depth) (i.tokens ++ us) us fun selection => selection.item? = some i := by
    intro i hi us hus
    have hle := length_item_tokens_le hi
    exact h i hi depth us (by omega) hus
  rw [itemTokens_eq_flatMap]
  exact (reads_between (F := fun us => endsItem us = true) rfl (fun i _ us => starts_item i us) hne
    (fun i _ => length_item_tokens_pos i) hitem).weaken fun _ => spelledItems?_of_forall₂

end Selections

/-- An item with a spelling is read from its tokens. -/
theorem reads_item {i : Item} (h : i.IsSpellable) : ∀ (depth : Nat) (rest : List Token), i.tokens.length ≤ depth →
    endsItem rest = true →
    Reads (selectionWithin depth) (i.tokens ++ rest) rest fun selection => selection.item? = some i := by
  induction h with
  | typename =>
    intro depth rest hdepth hrest
    obtain ⟨n, rfl⟩ : ∃ n, depth = n + 1 := ⟨depth - 1, by simp [Item.tokens] at hdepth; omega⟩
    obtain ⟨hcolon, hparen, hat, hbrace⟩ := head?_of_endsItem hrest
    have hgiven : ArePlaceholders [] := by simp [ArePlaceholders]
    refine (reads_field hgiven (Q := (· = none)) hcolon hparen hat (fun _ => ⟨rfl, rfl⟩)
      fun h => absurd h hbrace).weaken ?_
    rintro _ ⟨as, _, rfl, has, rfl⟩
    rw [List.map_eq_nil_iff.mp has]
    rfl
  | @scalar name arguments _ hname harguments =>
    intro depth rest hdepth hrest
    obtain ⟨n, rfl⟩ : ∃ n, depth = n + 1 := ⟨depth - 1, by simp [Item.tokens] at hdepth; omega⟩
    obtain ⟨hcolon, hparen, hat, hbrace⟩ := head?_of_endsItem hrest
    refine (reads_field harguments (Q := (· = none)) hcolon hparen hat (fun _ => ⟨rfl, rfl⟩)
      fun h => absurd h hbrace).weaken ?_
    rintro _ ⟨as, _, rfl, has, rfl⟩
    rw [SpelledSelection.item?, if_neg fun h => hname h.1, has]
  | @composite name arguments body _ harguments hne _ ih =>
    intro depth rest hdepth _
    obtain ⟨n, rfl⟩ : ∃ n, depth = n + 1 := ⟨depth - 1, by simp [Item.tokens] at hdepth; omega⟩
    have hle : (itemTokens body).length ≤ n := by
      simp only [Item.tokens, List.cons_append, List.length_cons, List.length_append] at hdepth
      omega
    have hbody := reads_body hne hle ih rest
    have htokens : (Item.composite name arguments body).tokens ++ rest = .name name ::
        (argumentTokens arguments ++ .mark .openBrace :: (itemTokens body ++ .mark .closeBrace :: rest)) := by
      simp [Item.tokens]
    rw [htokens]
    refine (reads_field harguments (Q := fun inner => inner.bind spelledItems? = some body) (by simp) (by simp)
      (by simp) (fun h => absurd rfl h) fun _ => hbody).weaken ?_
    rintro _ ⟨as, inner, rfl, has, hinner⟩
    obtain ⟨selections, rfl, hselections⟩ := Option.bind_eq_some_iff.mp hinner
    rw [SpelledSelection.item?, hselections, has]
    rfl
  | @fragment type body _ hne _ ih =>
    intro depth rest hdepth _
    obtain ⟨n, rfl⟩ : ∃ n, depth = n + 1 := ⟨depth - 1, by simp [Item.tokens] at hdepth; omega⟩
    have hle : (itemTokens body).length ≤ n := by
      simp only [Item.tokens, List.cons_append, List.length_cons, List.length_append] at hdepth
      omega
    have hbody := reads_body hne hle ih rest
    have htokens : (Item.fragment type body).tokens ++ rest = .mark .spread :: .name "on" :: .name type ::
        .mark .openBrace :: (itemTokens body ++ .mark .closeBrace :: rest) := by
      simp [Item.tokens]
    rw [htokens]
    refine reads_accept.bind fun b hb => ?_
    subst hb
    refine .iteTrue rfl (reads_name?.bind fun text? htext => ?_)
    subst htext
    refine .iteTrue rfl (reads_name.bind fun next hnext => ?_)
    subst hnext
    refine (reads_directives false (by simp)).bind fun given hgiven => ?_
    subst hgiven
    refine hbody.bind fun selections hselections => .pure ?_
    rw [SpelledSelection.item?, hselections]
    rfl

/-! ## Operations -/

theorem reads_selectionSet {items : List Item} (hne : items ≠ []) (h : ∀ i ∈ items, i.IsSpellable) :
    Reads selectionSet (.mark .openBrace :: (itemTokens items ++ [.mark .closeBrace])) []
      fun selections => spelledItems? selections = some items := by
  refine reads_left.bind fun n hn => ?_
  have hle : (itemTokens items).length ≤ n := by
    simp only [List.length_cons, List.length_append] at hn
    omega
  exact reads_body hne hle (fun i hi => reads_item (h i hi)) []

/-- The tokens of an operation that is not empty are read as it, and nothing is left. -/
theorem reads_operation {op : Operation} (hne : op.items ≠ []) (hitems : ∀ i ∈ op.items, i.IsSpellable) :
    Reads operation op.tokens [] fun spelled => spelled.operation? = some op := by
  obtain ⟨kind, text?, items⟩ := op
  have hset := reads_selectionSet hne hitems
  have hname : Reads name?
      ((text?.map Token.name).toList ++ .mark .openBrace :: (itemTokens items ++ [.mark .closeBrace]))
      (.mark .openBrace :: (itemTokens items ++ [.mark .closeBrace])) (· = text?) := by
    cases text? with
    | none => exact reads_name?_mark
    | some text => exact reads_name?
  have htokens : (Operation.mk kind text? items).tokens = .name kind.keyword :: ((text?.map Token.name).toList ++
      .mark .openBrace :: (itemTokens items ++ [.mark .closeBrace])) := by
    simp [Operation.tokens]
  rw [htokens]
  refine reads_peek?.bind fun t? ht => ?_
  subst ht
  simp only [List.head?_cons, OperationKind.ofKeyword?_keyword]
  refine reads_next.bind fun _ _ => hname.bind fun name? hname => ?_
  subst hname
  refine (reads_optionalBetween_of_ne (by simp)).bind fun defined hdefined => ?_
  subst hdefined
  refine (reads_directives false (by simp)).bind fun given hgiven => ?_
  subst hgiven
  refine hset.bind fun selections hselections => .pure ?_
  simp [SpelledOperation.operation?, hselections]

/-- A definition that is the operation, wherever it stands. -/
def IsDefinitionOf (op : Operation) (d : Definition) : Prop :=
  ∃ spelled place, d = .operation spelled place ∧ spelled.operation? = some op

theorem reads_definition {op : Operation} (hne : op.items ≠ []) (hitems : ∀ i ∈ op.items, i.IsSpellable) :
    Reads definition op.tokens [] (IsDefinitionOf op) := by
  have hoperation (place : Nat) :
      Reads (do pure (Definition.operation (← operation) place)) op.tokens [] (IsDefinitionOf op) :=
    (reads_operation hne hitems).bind fun spelled hspelled => .pure ⟨spelled, place, rfl, hspelled⟩
  obtain ⟨rest, htokens⟩ : ∃ rest, op.tokens = .name op.kind.keyword :: rest := ⟨_, rfl⟩
  rw [htokens] at hoperation ⊢
  refine reads_skipString_name.bind fun isDescribed hdescribed => reads_position.bind fun place _ =>
    reads_peek?.bind fun t? ht => ?_
  subst hdescribed ht
  generalize op.kind = kind at hoperation ⊢
  cases kind with
  | query => exact .iteFalse Bool.false_ne_true (hoperation place)
  | mutation => exact .iteFalse Bool.false_ne_true (hoperation place)
  | subscription => exact .iteFalse Bool.false_ne_true (hoperation place)

end Reader

/-- The tokens of an operation that is not empty are a document with nothing but the operation. -/
theorem Document.exists_read?_eq {op : Operation} {text : String} (htext : Token.scan text.toList = some op.tokens)
    (hne : op.items ≠ []) (hitems : ∀ i ∈ op.items, i.IsSpellable) :
    ∃ spelled place, Document.read? text = some [.operation spelled place] ∧ spelled.operation? = some op := by
  obtain ⟨n, hn⟩ : ∃ n, op.tokens.length = n + 1 := ⟨_, rfl⟩
  have hdocument : Reader.Reads (Reader.definitionsWithin (n + 1)) op.tokens [] fun ds =>
      ∃ d, ds = [d] ∧ Reader.IsDefinitionOf op d := by
    refine (Reader.reads_definition hne hitems).bind fun d hd => Reader.reads_peek?.bind fun t? ht => ?_
    subst ht
    exact .iteTrue rfl (.pure ⟨d, rfl, hd⟩)
  obtain ⟨_, m, hrun, _, rfl, spelled, place, rfl, hspelled⟩ := hdocument 0
  refine ⟨spelled, place, ?_, hspelled⟩
  simp only [Document.read?, htext, Option.bind_eq_bind, Option.bind_some, hn, hrun]
  rfl

end GraphSelect
