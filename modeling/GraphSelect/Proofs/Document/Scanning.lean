import GraphSelect.Document.Token
import GraphSelect.Operation.Writer
import GraphSelect.Tree.Key

/-!
# Tokens of written text

The text that is written for an operation is scanned into the tokens that are expected of it (`scan_operation`): those
of its items, of their arguments and of the values of these, in order (`Item.tokens`, `Literal.tokens`).

Every lemma here puts something in front of a text `cs` that is scanned already. A name or a number ends only where the
text goes on with another sort of character, so `cs` has to start with one that ends every token (`delimits`). Marks and
spaces need no such condition.
-/

namespace GraphSelect

namespace Token

/-! ## Single tokens -/

/-- Whether a token in front of a text ends there: the text does not go on with a character of a name, a point or a
quote. -/
def delimits : List Char → Bool
  | [] => true
  | c :: _ => !(isNamePart c || c = '.' || c = '"')

theorem scan_of_isIgnored {c : Char} (h : isIgnored c = true) (cs : List Char) : scan (c :: cs) = scan cs := by
  rw [scan, if_pos h]

theorem scan_of_scanToken? {c : Char} {cs rest : List Char} {t : Token} (hignored : isIgnored c = false)
    (hcomment : c ≠ '#') (h : scanToken? c cs = some (t, rest)) : scan (c :: cs) = (scan rest).map (t :: ·) := by
  rw [scan, if_neg (by simp [hignored]), if_neg hcomment]
  split
  · rename_i hnone
    rw [h] at hnone
    cases hnone
  · rename_i t' rest' hsome
    rw [h] at hsome
    cases hsome
    rfl

theorem scan_mark {c : Char} {m : Punctuator} (h : mark? c = some m) (cs : List Char) :
    scan (c :: cs) = (scan cs).map (.mark m :: ·) := by
  unfold mark? at h
  split at h <;> cases h <;> exact scan_of_scanToken? (by decide) (by decide) rfl

theorem scan_spread (cs : List Char) : scan ('.' :: '.' :: '.' :: cs) = (scan cs).map (.mark .spread :: ·) :=
  scan_of_scanToken? (by decide) (by decide) rfl

theorem isNamePart_of_delimits {c : Char} {cs : List Char} (h : delimits (c :: cs) = true) :
    isNamePart c = false ∧ c ≠ '.' ∧ c ≠ '"' := by
  simpa [delimits, and_assoc] using h

/-- A name is scanned as a whole if something else than a name follows. -/
theorem scan_name {text : String} (h : isName text = true) {cs : List Char} (hcs : delimits cs = true) :
    scan (text.toList ++ cs) = (scan cs).map (.name text :: ·) := by
  unfold isName at h
  split at h
  · rename_i c rest htext
    obtain ⟨hstart, hrest⟩ := Bool.and_eq_true_iff.mp h
    have hignored : isIgnored c = false := by
      rw [Bool.eq_false_iff]
      intro hi
      simp only [isIgnored, Bool.or_eq_true, decide_eq_true_eq] at hi
      rcases hi with ((((rfl | rfl) | rfl) | rfl) | rfl) | rfl <;> exact absurd hstart (by decide)
    have hcomment : c ≠ '#' := by
      rintro rfl
      exact absurd hstart (by decide)
    have htake : (rest ++ cs).takeWhile isNamePart = rest := by
      rw [List.takeWhile_append_of_pos (by simpa using hrest)]
      cases cs with
      | nil => simp
      | cons e cs => simp [(isNamePart_of_delimits hcs).1]
    have hdrop : (rest ++ cs).dropWhile isNamePart = cs := by
      rw [List.dropWhile_append_of_pos (by simpa using hrest)]
      cases cs with
      | nil => rfl
      | cons e cs => simp [(isNamePart_of_delimits hcs).1]
    have htoken : scanToken? c (rest ++ cs) = some (.name text, cs) := by
      unfold scanToken?
      rw [if_pos hstart, htake, hdrop, ← htext, String.ofList_toList]
    rw [htext, List.cons_append]
    exact scan_of_scanToken? hignored hcomment htoken
  · cases h

theorem isDigit_of_delimits {c : Char} {cs : List Char} (h : delimits (c :: cs) = true) : c.isDigit = false := by
  have hpart := (isNamePart_of_delimits h).1
  simp only [isNamePart, Char.isAlphanum, Bool.or_eq_false_iff] at hpart
  exact hpart.1.2

theorem takeWhile_isDigit {cs : List Char} (h : delimits cs = true) : cs.takeWhile Char.isDigit = [] := by
  cases cs with
  | nil => rfl
  | cons c cs => simp [isDigit_of_delimits h]

theorem dropWhile_isDigit {cs : List Char} (h : delimits cs = true) : cs.dropWhile Char.isDigit = cs := by
  cases cs with
  | nil => rfl
  | cons c cs => simp [isDigit_of_delimits h]

theorem scanFraction?_of_delimits {cs : List Char} (h : delimits cs = true) : scanFraction? cs = some ([], cs) := by
  unfold scanFraction?
  split
  · exact absurd rfl (isNamePart_of_delimits h).2.1
  · rfl

theorem scanExponent?_of_delimits {cs : List Char} (h : delimits cs = true) : scanExponent? cs = some ([], cs) := by
  have hne {c : Char} {cs : List Char} (h : delimits (c :: cs) = true) : ¬ (c = 'e' ∨ c = 'E') := by
    have hpart := (isNamePart_of_delimits h).1
    rintro (rfl | rfl) <;> exact absurd hpart (by decide)
  unfold scanExponent?
  split
  · rw [if_neg (hne h)]
  · rw [if_neg (hne h)]
  · rfl

theorem endsNumber_of_delimits {cs : List Char} (h : delimits cs = true) : endsNumber cs = true := by
  cases cs with
  | nil => rfl
  | cons c cs =>
    obtain ⟨hpart, hpoint, _⟩ := isNamePart_of_delimits h
    simp [endsNumber, hpart, hpoint]

theorem scan_zero {cs : List Char} (h : delimits cs = true) :
    scan ('0' :: cs) = (scan cs).map (.int "0" :: ·) := by
  have hdigits : scanDigits? ('0' :: cs) = some (['0'], cs) := by
    have hzero : Char.isDigit '0' = true := by decide
    simp [scanDigits?, hzero, takeWhile_isDigit h, dropWhile_isDigit h]
  refine scan_of_scanToken? (by decide) (by decide) ?_
  show scanUnsigned? ('0' :: cs) = _
  simp [scanUnsigned?, hdigits, scanFraction?_of_delimits h, scanExponent?_of_delimits h, endsNumber_of_delimits h]

theorem scan_zeroPointZero {cs : List Char} (h : delimits cs = true) :
    scan ('0' :: '.' :: '0' :: cs) = (scan cs).map (.float "0.0" :: ·) := by
  have hzero : Char.isDigit '0' = true := by decide
  have hpoint : Char.isDigit '.' = false := by decide
  have hwhole : scanDigits? ('0' :: '.' :: '0' :: cs) = some (['0'], '.' :: '0' :: cs) := by
    simp [scanDigits?, hzero, hpoint]
  have hdigits : scanDigits? ('0' :: cs) = some (['0'], cs) := by
    simp [scanDigits?, hzero, takeWhile_isDigit h, dropWhile_isDigit h]
  have hfraction : scanFraction? ('.' :: '0' :: cs) = some (['.', '0'], cs) := by
    simp [scanFraction?, hdigits]
  refine scan_of_scanToken? (by decide) (by decide) ?_
  show scanUnsigned? ('0' :: '.' :: '0' :: cs) = _
  simp [scanUnsigned?, hwhole, hfraction, scanExponent?_of_delimits h, endsNumber_of_delimits h]

/-- The empty string is no start of a block string if no quote follows. -/
theorem scan_emptyString {cs : List Char} (h : delimits cs = true) :
    scan ('"' :: '"' :: cs) = (scan cs).map (.string "" :: ·) := by
  have hstring : scanString? ('"' :: cs) = some (.string "", cs) := by
    unfold scanString?
    split
    · rename_i heq
      obtain ⟨_, rfl⟩ := List.cons.inj heq
      exact absurd rfl (isNamePart_of_delimits h).2.2
    · rw [scanQuoted?]
      all_goals simp
  exact scan_of_scanToken? (by decide) (by decide) hstring

end Token

/-! ## Literals -/

mutual

/-- The tokens that spell a literal. -/
def Literal.tokens : Literal → List Token
  | .null => [.name "null"]
  | .bool true => [.name "true"]
  | .bool false => [.name "false"]
  | .int text => [.int text]
  | .float text => [.float text]
  | .string text => [.string text]
  | .enum name => [.name name]
  | .variable name => [.mark .dollar, .name name]
  | .list items => .mark .openBracket :: literalTokens items ++ [.mark .closeBracket]
  | .object fields => .mark .openBrace :: fieldTokens fields ++ [.mark .closeBrace]

/-- The tokens that spell the items of a list. -/
def literalTokens : List Literal → List Token
  | [] => []
  | item :: items => item.tokens ++ literalTokens items

/-- The tokens that spell the fields of an object. -/
def fieldTokens : List (String × Literal) → List Token
  | [] => []
  | (name, value) :: fields => .name name :: .mark .colon :: value.tokens ++ fieldTokens fields

end

/-- A literal of the sort that stands for an argument: a zero, a truth value, an empty string or list, an enum value, or
an object of such literals. -/
inductive Literal.IsPlaceholder : Literal → Prop
  | zero : IsPlaceholder (.int "0")
  | zeroPointZero : IsPlaceholder (.float "0.0")
  | bool {value : Bool} : IsPlaceholder (.bool value)
  | emptyString : IsPlaceholder (.string "")
  | enum {name : String} : Token.isName name = true → ¬ (name = "true" ∨ name = "false" ∨ name = "null") →
      IsPlaceholder (.enum name)
  | emptyList : IsPlaceholder (.list [])
  | object {fields : List (String × Literal)} : (∀ f ∈ fields, Token.isName f.1 = true) →
      (∀ f ∈ fields, IsPlaceholder f.2) → IsPlaceholder (.object fields)

namespace Literal

open Token

theorem scan_newLine (level : Nat) (cs : List Char) : scan (newLine level ++ cs) = scan cs := by
  have hspaces : ∀ n, scan (List.replicate n ' ' ++ cs) = scan cs := by
    intro n
    induction n with
    | zero => rfl
    | succ n ih =>
      rw [List.replicate_succ, List.cons_append, scan_of_isIgnored (by decide), ih]
  rw [newLine, List.cons_append, scan_of_isIgnored (by decide), hspaces]

theorem scan_comma (cs : List Char) : scan (',' :: cs) = scan cs := scan_of_isIgnored (by decide) cs

theorem scan_space (cs : List Char) : scan (' ' :: cs) = scan cs := scan_of_isIgnored (by decide) cs

/-- The fields of an object are scanned into their tokens, if their values are. -/
theorem scan_writeFields {level : Nat} {fields : List (String × Literal)} (hname : ∀ f ∈ fields, isName f.1 = true)
    (hvalue : ∀ f ∈ fields, ∀ cs ts, delimits cs = true → scan cs = some ts →
      scan (f.2.writeChars level ++ cs) = some (f.2.tokens ++ ts))
    {cs : List Char} {ts : List Token} (hcs : scan cs = some ts) :
    scan (writeFields level fields ++ cs) = some (fieldTokens fields ++ ts) := by
  induction fields with
  | nil => exact hcs
  | cons f fields ih =>
    obtain ⟨name, value⟩ := f
    obtain ⟨hn, hname⟩ := List.forall_mem_cons.mp hname
    obtain ⟨hv, hvalue⟩ := List.forall_mem_cons.mp hvalue
    have hrest : scan (',' :: (writeFields level fields ++ cs)) = some (fieldTokens fields ++ ts) := by
      rw [scan_comma]
      exact ih hname hvalue
    have hfield := hv _ _ rfl hrest
    simp only [writeFields, fieldTokens, List.append_assoc, List.cons_append] at hfield ⊢
    rw [scan_newLine, scan_name hn rfl, scan_mark rfl, scan_space, hfield]
    rfl

/-- A placeholder is scanned into its tokens. -/
theorem IsPlaceholder.scan {value : Literal} (h : value.IsPlaceholder) : ∀ (level : Nat) (cs : List Char)
    (ts : List Token), delimits cs = true → scan cs = some ts →
    Token.scan (value.writeChars level ++ cs) = some (value.tokens ++ ts) := by
  induction h with
  | zero =>
    intro level cs ts hd hcs
    show Token.scan ('0' :: cs) = _
    rw [scan_zero hd, hcs]
    rfl
  | zeroPointZero =>
    intro level cs ts hd hcs
    show Token.scan ('0' :: '.' :: '0' :: cs) = _
    rw [scan_zeroPointZero hd, hcs]
    rfl
  | @bool value =>
    intro level cs ts hd hcs
    cases value with
    | true =>
      rw [writeChars, scan_name (by decide) hd, hcs]
      rfl
    | false =>
      rw [writeChars, scan_name (by decide) hd, hcs]
      rfl
  | emptyString =>
    intro level cs ts hd hcs
    show Token.scan ('"' :: '"' :: cs) = _
    rw [scan_emptyString hd, hcs]
    rfl
  | enum hname _ =>
    intro level cs ts hd hcs
    rw [writeChars, scan_name hname hd, hcs]
    rfl
  | emptyList =>
    intro level cs ts _ hcs
    show Token.scan ('[' :: ']' :: cs) = _
    rw [scan_mark rfl, scan_mark rfl, hcs]
    rfl
  | @object fields hname _ ih =>
    intro level cs ts _ hcs
    have hclose : Token.scan (newLine level ++ '}' :: cs) = some (.mark .closeBrace :: ts) := by
      rw [scan_newLine, scan_mark rfl, hcs]
      rfl
    cases fields with
    | nil =>
      show Token.scan ('{' :: '}' :: cs) = _
      rw [scan_mark rfl, scan_mark rfl, hcs]
      rfl
    | cons f fields =>
      have hfields := scan_writeFields hname (fun f hf => ih f hf (level + 1)) hclose
      simp only [writeChars, tokens, List.cons_append, List.append_assoc, List.nil_append] at hfields ⊢
      rw [scan_mark rfl, hfields]
      rfl

end Literal

/-! ## Items -/

/-- The tokens that spell the arguments of a field. -/
def argumentTokens : List (String × Literal) → List Token
  | [] => []
  | argument :: rest => .mark .openParen :: fieldTokens (argument :: rest) ++ [.mark .closeParen]

mutual

/-- The tokens that spell an item. -/
def Item.tokens : Item → List Token
  | .typename => [.name Key.typename]
  | .scalar name arguments => .name name :: argumentTokens arguments
  | .composite name arguments body =>
    .name name :: argumentTokens arguments ++ .mark .openBrace :: itemTokens body ++ [.mark .closeBrace]
  | .fragment type body =>
    .mark .spread :: .name "on" :: .name type :: .mark .openBrace :: itemTokens body ++ [.mark .closeBrace]

/-- The tokens that spell items one after the other. -/
def itemTokens : List Item → List Token
  | [] => []
  | item :: items => item.tokens ++ itemTokens items

end

/-- The tokens that spell an operation. -/
def Operation.tokens (operation : Operation) : List Token :=
  .name operation.kind.keyword :: (operation.name?.map Token.name).toList ++
    .mark .openBrace :: itemTokens operation.items ++ [.mark .closeBrace]

/-- Arguments with GraphQL names and placeholders as values. -/
def ArePlaceholders (arguments : List (String × Literal)) : Prop :=
  ∀ a ∈ arguments, Token.isName a.1 = true ∧ a.2.IsPlaceholder

/-- An item that has a spelling: its names are GraphQL names, the name of the type is no field, the arguments are
placeholders, and no selection set is empty. -/
inductive Item.IsSpellable : Item → Prop
  | typename : IsSpellable .typename
  | scalar {name : String} {arguments : List (String × Literal)} : Token.isName name = true → name ≠ Key.typename →
      ArePlaceholders arguments → IsSpellable (.scalar name arguments)
  | composite {name : String} {arguments : List (String × Literal)} {body : List Item} : Token.isName name = true →
      ArePlaceholders arguments → body ≠ [] → (∀ i ∈ body, IsSpellable i) →
      IsSpellable (.composite name arguments body)
  | fragment {type : String} {body : List Item} : Token.isName type = true → body ≠ [] →
      (∀ i ∈ body, IsSpellable i) → IsSpellable (.fragment type body)

section Items

open Token Literal

theorem scan_writeMoreArguments {arguments : List (String × Literal)} (h : ArePlaceholders arguments) {cs : List Char}
    {ts : List Token} (hcs : scan cs = some ts) :
    scan (writeMoreArguments arguments ++ ')' :: cs) = some (fieldTokens arguments ++ .mark .closeParen :: ts) := by
  induction arguments with
  | nil =>
    show scan (')' :: cs) = _
    rw [scan_mark rfl, hcs]
    rfl
  | cons a arguments ih =>
    obtain ⟨name, value⟩ := a
    obtain ⟨⟨hname, hvalue⟩, h⟩ := List.forall_mem_cons.mp h
    have hd : delimits (writeMoreArguments arguments ++ ')' :: cs) = true := by
      cases arguments <;> rfl
    have hrest := hvalue.scan 0 _ _ hd (ih h)
    simp only [writeMoreArguments, writeArgument, fieldTokens, List.append_assoc, List.cons_append] at hrest ⊢
    rw [scan_comma, scan_space, scan_name hname rfl, scan_mark rfl, scan_space, hrest]
    rfl

theorem scan_writeArguments {arguments : List (String × Literal)} (h : ArePlaceholders arguments) {cs : List Char}
    {ts : List Token} (hcs : scan cs = some ts) :
    scan (writeArguments arguments ++ cs) = some (argumentTokens arguments ++ ts) := by
  cases arguments with
  | nil => exact hcs
  | cons a arguments =>
    obtain ⟨name, value⟩ := a
    obtain ⟨⟨hname, hvalue⟩, h⟩ := List.forall_mem_cons.mp h
    have hd : delimits (writeMoreArguments arguments ++ ')' :: cs) = true := by
      cases arguments <;> rfl
    have hrest := hvalue.scan 0 _ _ hd (scan_writeMoreArguments h hcs)
    simp only [writeArguments, writeArgument, argumentTokens, fieldTokens, List.append_assoc, List.cons_append,
      List.nil_append] at hrest ⊢
    rw [scan_mark rfl, scan_name hname rfl, scan_mark rfl, scan_space, hrest]
    rfl

theorem delimits_writeArguments (arguments : List (String × Literal)) {cs : List Char} (h : delimits cs = true) :
    delimits (writeArguments arguments ++ cs) = true := by
  cases arguments with
  | nil => exact h
  | cons _ _ => rfl

/-- Items with a space behind each are scanned into their tokens, if each of them is. -/
theorem scan_writeItems {items : List Item} (h : ∀ i ∈ items, ∀ cs ts, delimits cs = true → scan cs = some ts →
    scan (i.writeChars ++ cs) = some (i.tokens ++ ts)) {cs : List Char} {ts : List Token} (hcs : scan cs = some ts) :
    scan (writeItems items ++ '}' :: cs) = some (itemTokens items ++ .mark .closeBrace :: ts) := by
  induction items with
  | nil =>
    show scan ('}' :: cs) = _
    rw [scan_mark rfl, hcs]
    rfl
  | cons i items ih =>
    obtain ⟨hi, h⟩ := List.forall_mem_cons.mp h
    have hrest : scan (' ' :: (writeItems items ++ '}' :: cs)) =
        some (itemTokens items ++ .mark .closeBrace :: ts) := by
      rw [scan_space]
      exact ih h
    have hitem := hi _ _ rfl hrest
    simp only [writeItems, itemTokens, List.append_assoc, List.cons_append] at hitem ⊢
    exact hitem

/-- A selection set that is not empty is scanned into its tokens, if its items are. -/
theorem scan_writeSet {items : List Item} (hne : items ≠ []) (h : ∀ i ∈ items, ∀ cs ts, delimits cs = true →
    scan cs = some ts → scan (i.writeChars ++ cs) = some (i.tokens ++ ts)) {cs : List Char} {ts : List Token}
    (hcs : scan cs = some ts) :
    scan (writeSet items ++ cs) = some (.mark .openBrace :: itemTokens items ++ .mark .closeBrace :: ts) := by
  cases items with
  | nil => exact absurd rfl hne
  | cons i items =>
    have hitems := scan_writeItems h hcs
    simp only [writeItems, writeSet, List.append_assoc, List.cons_append, List.nil_append] at hitems ⊢
    rw [scan_mark rfl, scan_space, hitems]
    rfl

/-- An item with a spelling is scanned into its tokens. -/
theorem Item.IsSpellable.scan {i : Item} (h : i.IsSpellable) : ∀ (cs : List Char) (ts : List Token),
    delimits cs = true → Token.scan cs = some ts → Token.scan (i.writeChars ++ cs) = some (i.tokens ++ ts) := by
  induction h with
  | typename =>
    intro cs ts hd hcs
    have hname : isName Key.typename = true := by decide
    show Token.scan (Key.typename.toList ++ cs) = some (.name Key.typename :: ts)
    rw [scan_name hname hd, hcs]
    rfl
  | @scalar name arguments hname _ harguments =>
    intro cs ts hd hcs
    have hrest := scan_writeArguments harguments hcs
    show Token.scan (name.toList ++ writeArguments arguments ++ cs) = _
    rw [List.append_assoc, scan_name hname (delimits_writeArguments arguments hd), hrest]
    rfl
  | @composite name arguments body hname harguments hne _ ih =>
    intro cs ts _ hcs
    have hset : Token.scan (' ' :: (writeSet body ++ cs)) = _ := (scan_space _).trans (scan_writeSet hne ih hcs)
    have hrest := scan_writeArguments harguments hset
    show Token.scan (name.toList ++ writeArguments arguments ++ ' ' :: writeSet body ++ cs) = _
    simp only [Item.tokens, List.append_assoc, List.cons_append, List.nil_append] at hrest ⊢
    rw [scan_name hname (delimits_writeArguments arguments rfl), hrest]
    rfl
  | @fragment type body htype hne _ ih =>
    intro cs ts _ hcs
    have hset := scan_writeSet hne ih hcs
    have hon : "... on ".toList = ['.', '.', '.', ' '] ++ "on".toList ++ [' '] := by decide
    show Token.scan ("... on ".toList ++ type.toList ++ ' ' :: writeSet body ++ cs) = _
    simp only [Item.tokens, hon, List.append_assoc, List.cons_append, List.nil_append] at hset ⊢
    rw [scan_spread, scan_space, scan_name (by decide) rfl, scan_space, scan_name htype rfl, scan_space, hset]
    rfl

/-- The text of an operation that is not empty is scanned into its tokens. -/
theorem scan_operation {op : Operation} (hname : ∀ text ∈ op.name?, isName text = true) (hne : op.items ≠ [])
    (hitems : ∀ i ∈ op.items, i.IsSpellable) : scan op.writeChars = some op.tokens := by
  have hend : scan [] = some [] := by rw [scan]
  have hset := scan_writeSet hne (fun i hi => (hitems i hi).scan) hend
  have hkeyword : isName op.kind.keyword = true := by
    cases op.kind <;> decide
  simp only [List.append_nil] at hset
  unfold Operation.writeChars Operation.tokens
  cases h : op.name? with
  | none =>
    simp only [Operation.writeName, List.append_assoc, List.nil_append, Option.map_none, Option.toList_none]
    rw [scan_name hkeyword rfl, scan_space, hset]
    rfl
  | some text =>
    have htext := hname text h
    simp only [Operation.writeName, List.append_assoc, List.cons_append, Option.map_some, Option.toList_some]
    rw [scan_name hkeyword rfl, scan_space, scan_name htext rfl, scan_space, hset]
    rfl

end Items

end GraphSelect
