import GraphSelect.Text.Hexadecimal

/-!
# Tokens of GraphQL text

`scan` cuts GraphQL text into its tokens: punctuators, names, numbers and strings. Spaces, tabs, line ends, commas,
byte order marks and comments stand between tokens and are dropped. Text that holds anything else outside strings and
comments has no tokens.
-/

namespace GraphSelect

/-- The marks of the GraphQL grammar. -/
inductive Punctuator where
  | bang
  | dollar
  | ampersand
  | openParen
  | closeParen
  | spread
  | colon
  | equals
  | at
  | openBracket
  | closeBracket
  | openBrace
  | pipe
  | closeBrace
deriving DecidableEq, Repr, Inhabited

/-- A token of GraphQL text. -/
inductive Token where
  | mark (mark : Punctuator)
  | name (text : String)
  | int (text : String)
  | float (text : String)
  | string (text : String)
deriving DecidableEq, Repr, Inhabited

namespace Token

/-! ## Classes of characters -/

/-- A character between tokens. -/
def isIgnored (c : Char) : Bool :=
  c = ' ' || c = '\t' || c = '\n' || c = '\r' || c = ',' || c = '\uFEFF'

/-- The end of a line. -/
def isLineEnd (c : Char) : Bool := c = '\n' || c = '\r'

/-- A character that a name starts with. -/
def isNameStart (c : Char) : Bool := c.isAlpha || c = '_'

/-- A character of a name. -/
def isNamePart (c : Char) : Bool := c.isAlphanum || c = '_'

/-- Whether a text is a GraphQL name. -/
def isName (text : String) : Bool :=
  match text.toList with
  | c :: rest => isNameStart c && rest.all isNamePart
  | [] => false

/-- The mark that a single character is. -/
def mark? (c : Char) : Option Punctuator :=
  match c with
  | '!' => some .bang
  | '$' => some .dollar
  | '&' => some .ampersand
  | '(' => some .openParen
  | ')' => some .closeParen
  | ':' => some .colon
  | '=' => some .equals
  | '@' => some .at
  | '[' => some .openBracket
  | ']' => some .closeBracket
  | '{' => some .openBrace
  | '|' => some .pipe
  | '}' => some .closeBrace
  | _ => none

/-! ## Numbers -/

/-- A run of digits with at least one, and what follows it. -/
def scanDigits? (cs : List Char) : Option (List Char × List Char) :=
  match cs.takeWhile Char.isDigit with
  | [] => none
  | digits => some (digits, cs.dropWhile Char.isDigit)

/-- The fraction that a number goes on with; empty if it does not. -/
def scanFraction? : List Char → Option (List Char × List Char)
  | '.' :: cs => (scanDigits? cs).map fun (digits, rest) => ('.' :: digits, rest)
  | cs => some ([], cs)

/-- The exponent that a number goes on with; empty if it does not. -/
def scanExponent? : List Char → Option (List Char × List Char)
  | e :: s :: cs =>
    if e = 'e' ∨ e = 'E' then
      if s = '+' ∨ s = '-' then (scanDigits? cs).map fun (digits, rest) => (e :: s :: digits, rest)
      else (scanDigits? (s :: cs)).map fun (digits, rest) => (e :: digits, rest)
    else some ([], e :: s :: cs)
  | [e] => if e = 'e' ∨ e = 'E' then none else some ([], [e])
  | [] => some ([], [])

/-- Whether a number may end before `cs`: no letter, digit, underscore or point follows it. -/
def endsNumber : List Char → Bool
  | [] => true
  | c :: _ => !(isNamePart c || c = '.')

/-- A number after its sign: it has no leading zero that another digit follows. -/
def scanUnsigned? (cs : List Char) : Option (Token × List Char) :=
  match scanDigits? cs with
  | none => none
  | some (whole, rest) =>
    if whole.head? = some '0' ∧ 1 < whole.length then none
    else
      match scanFraction? rest with
      | none => none
      | some (fraction, rest) =>
        match scanExponent? rest with
        | none => none
        | some (exponent, rest) =>
          if endsNumber rest then
            let text := String.ofList (whole ++ fraction ++ exponent)
            some (if fraction.isEmpty && exponent.isEmpty then .int text else .float text, rest)
          else none

/-- The number with a minus sign in front. -/
def negate : Token → Token
  | .int text => .int ("-" ++ text)
  | .float text => .float ("-" ++ text)
  | token => token

/-! ## Strings -/

/-- The character for a short escape. -/
def shortEscape? (c : Char) : Option Char :=
  match c with
  | '"' => some '"'
  | '\\' => some '\\'
  | '/' => some '/'
  | 'b' => some '\x08'
  | 'f' => some '\x0c'
  | 'n' => some '\n'
  | 'r' => some '\r'
  | 't' => some '\t'
  | _ => none

/-- The inside of a quoted string, which stays on its line, and what follows its closing quote. -/
def scanQuoted? : List Char → Option (List Char × List Char)
  | '\\' :: 'u' :: a :: b :: c :: d :: rest =>
    match Text.hexValue4? a b c d with
    | some code => (scanQuoted? rest).map fun (text, rest) => (Char.ofNat code :: text, rest)
    | none => none
  | '\\' :: c :: rest =>
    match shortEscape? c with
    | some c => (scanQuoted? rest).map fun (text, rest) => (c :: text, rest)
    | none => none
  | c :: rest =>
    if c = '"' then some ([], rest)
    else if c = '\\' ∨ isLineEnd c then none
    else (scanQuoted? rest).map fun (text, rest) => (c :: text, rest)
  | [] => none

/-- The inside of a block string as written, and what follows its closing quotes. -/
def scanBlock? : List Char → Option (List Char × List Char)
  | '\\' :: '"' :: '"' :: '"' :: rest =>
    (scanBlock? rest).map fun (text, rest) => ('"' :: '"' :: '"' :: text, rest)
  | '"' :: '"' :: '"' :: rest => some ([], rest)
  | c :: rest => (scanBlock? rest).map fun (text, rest) => (c :: text, rest)
  | [] => none

/-- The lines of a block string, which a line feed, a carriage return or both separate. -/
def blockLines : List Char → List (List Char)
  | [] => [[]]
  | '\r' :: '\n' :: cs => [] :: blockLines cs
  | c :: cs =>
    if isLineEnd c then [] :: blockLines cs
    else
      match blockLines cs with
      | [] => [[c]]
      | first :: rest => (c :: first) :: rest

/-- A space or a tab. -/
def isSpacing (c : Char) : Bool := c = ' ' || c = '\t'

/-- The least number of spacing characters in front of the lines that are not blank. -/
def commonIndent? (lines : List (List Char)) : Option Nat :=
  ((lines.filter fun line => !line.all isSpacing).map fun line => (line.takeWhile isSpacing).length).min?

/-- The value of a block string: its lines without the common indentation of all but the first, and without the blank
lines at both ends. -/
def blockValue (raw : List Char) : List Char :=
  let lines :=
    match blockLines raw with
    | [] => []
    | first :: rest => first :: rest.map (List.drop ((commonIndent? rest).getD 0))
  let lines := (lines.dropWhile (·.all isSpacing)).reverse.dropWhile (·.all isSpacing)
  ['\n'].intercalate lines.reverse

/-! ## Lengths -/

theorem length_of_scanDigits? {cs digits rest : List Char} (h : scanDigits? cs = some (digits, rest)) :
    rest.length < cs.length := by
  unfold scanDigits? at h
  split at h
  · simp at h
  · rename_i hne
    obtain ⟨rfl, rfl⟩ := Prod.mk.inj (Option.some.inj h)
    have hl := congrArg List.length (List.takeWhile_append_dropWhile (p := Char.isDigit) (l := cs))
    have hp : 0 < (cs.takeWhile Char.isDigit).length := List.length_pos_iff.mpr fun he => hne he
    simp only [List.length_append] at hl
    omega

theorem length_of_scanFraction? {cs fraction rest : List Char} (h : scanFraction? cs = some (fraction, rest)) :
    rest.length ≤ cs.length := by
  unfold scanFraction? at h
  split at h
  · obtain ⟨p, hp, he⟩ := Option.map_eq_some_iff.mp h
    obtain ⟨_, rfl⟩ := Prod.mk.inj he
    have := length_of_scanDigits? hp
    simp; omega
  · obtain ⟨_, rfl⟩ := Prod.mk.inj (Option.some.inj h)
    exact Nat.le_refl _

theorem length_of_scanExponent? {cs exponent rest : List Char} (h : scanExponent? cs = some (exponent, rest)) :
    rest.length ≤ cs.length := by
  unfold scanExponent? at h
  split at h
  · split at h
    · split at h
      · obtain ⟨p, hp, he⟩ := Option.map_eq_some_iff.mp h
        obtain ⟨_, rfl⟩ := Prod.mk.inj he
        have := length_of_scanDigits? hp
        simp; omega
      · obtain ⟨p, hp, he⟩ := Option.map_eq_some_iff.mp h
        obtain ⟨_, rfl⟩ := Prod.mk.inj he
        have := length_of_scanDigits? hp
        simp only [List.length_cons] at this ⊢; omega
    · obtain ⟨_, rfl⟩ := Prod.mk.inj (Option.some.inj h)
      exact Nat.le_refl _
  · split at h
    · simp at h
    · obtain ⟨_, rfl⟩ := Prod.mk.inj (Option.some.inj h)
      exact Nat.le_refl _
  · obtain ⟨_, rfl⟩ := Prod.mk.inj (Option.some.inj h)
    exact Nat.le_refl _

theorem length_of_scanUnsigned? {cs rest : List Char} {token : Token} (h : scanUnsigned? cs = some (token, rest)) :
    rest.length < cs.length := by
  unfold scanUnsigned? at h
  split at h
  · simp at h
  · rename_i hd
    split at h
    · simp at h
    · split at h
      · simp at h
      · rename_i hf
        split at h
        · simp at h
        · rename_i he
          split at h
          · obtain ⟨_, rfl⟩ := Prod.mk.inj (Option.some.inj h)
            exact Nat.lt_of_le_of_lt (length_of_scanExponent? he)
              (Nat.lt_of_le_of_lt (length_of_scanFraction? hf) (length_of_scanDigits? hd))
          · simp at h

theorem length_of_scanQuoted? {cs text rest : List Char} (h : scanQuoted? cs = some (text, rest)) :
    rest.length < cs.length := by
  fun_induction scanQuoted? cs generalizing text rest with
  | case1 a b c d tail code _ ih =>
    obtain ⟨p, hp, he⟩ := Option.map_eq_some_iff.mp h
    obtain ⟨_, rfl⟩ := Prod.mk.inj he
    have := ih hp
    simp; omega
  | case2 => simp at h
  | case3 c tail _ c' _ ih =>
    obtain ⟨p, hp, he⟩ := Option.map_eq_some_iff.mp h
    obtain ⟨_, rfl⟩ := Prod.mk.inj he
    have := ih hp
    simp; omega
  | case4 => simp at h
  | case5 => simp_all
  | case6 => simp at h
  | case7 c tail _ _ _ _ ih =>
    obtain ⟨p, hp, he⟩ := Option.map_eq_some_iff.mp h
    obtain ⟨_, rfl⟩ := Prod.mk.inj he
    have := ih hp
    simp; omega
  | case8 => simp at h

theorem length_of_scanBlock? {cs text rest : List Char} (h : scanBlock? cs = some (text, rest)) :
    rest.length < cs.length := by
  fun_induction scanBlock? cs generalizing text rest with
  | case1 tail ih =>
    obtain ⟨p, hp, he⟩ := Option.map_eq_some_iff.mp h
    obtain ⟨_, rfl⟩ := Prod.mk.inj he
    have := ih hp
    simp; omega
  | case2 tail =>
    obtain ⟨_, rfl⟩ := Prod.mk.inj (Option.some.inj h)
    simp; omega
  | case3 c tail _ _ ih =>
    obtain ⟨p, hp, he⟩ := Option.map_eq_some_iff.mp h
    obtain ⟨_, rfl⟩ := Prod.mk.inj he
    have := ih hp
    simp; omega
  | case4 => simp at h

/-! ## Texts -/

/-- The string that starts with a quote before `cs`. -/
def scanString? (cs : List Char) : Option (Token × List Char) :=
  match cs with
  | '"' :: '"' :: cs => (scanBlock? cs).map fun (raw, rest) => (.string (String.ofList (blockValue raw)), rest)
  | cs => (scanQuoted? cs).map fun (text, rest) => (.string (String.ofList text), rest)

/-- The token that starts with `c`, and what follows it. -/
def scanToken? (c : Char) (cs : List Char) : Option (Token × List Char) :=
  if isNameStart c then some (.name (String.ofList (c :: cs.takeWhile isNamePart)), cs.dropWhile isNamePart)
  else if c.isDigit then scanUnsigned? (c :: cs)
  else if c = '-' then (scanUnsigned? cs).map fun (token, rest) => (negate token, rest)
  else if c = '"' then scanString? cs
  else if c = '.' then
    match cs with
    | '.' :: '.' :: rest => some (.mark .spread, rest)
    | _ => none
  else (mark? c).map fun m => (.mark m, cs)

theorem length_of_scanString? {cs rest : List Char} {token : Token} (h : scanString? cs = some (token, rest)) :
    rest.length ≤ cs.length := by
  unfold scanString? at h
  split at h
  · obtain ⟨p, hp, he⟩ := Option.map_eq_some_iff.mp h
    obtain ⟨_, rfl⟩ := Prod.mk.inj he
    have := length_of_scanBlock? hp
    simp; omega
  · obtain ⟨p, hp, he⟩ := Option.map_eq_some_iff.mp h
    obtain ⟨_, rfl⟩ := Prod.mk.inj he
    exact Nat.le_of_lt (length_of_scanQuoted? hp)

/-- What follows a token is shorter than what was read. -/
theorem length_of_scanToken? {c : Char} {cs rest : List Char} {token : Token}
    (h : scanToken? c cs = some (token, rest)) : rest.length < (c :: cs).length := by
  unfold scanToken? at h
  split at h
  · obtain ⟨_, rfl⟩ := Prod.mk.inj (Option.some.inj h)
    exact Nat.lt_succ_of_le (List.dropWhile_suffix _).sublist.length_le
  split at h
  · exact length_of_scanUnsigned? h
  split at h
  · obtain ⟨p, hp, he⟩ := Option.map_eq_some_iff.mp h
    obtain ⟨_, rfl⟩ := Prod.mk.inj he
    exact Nat.lt_succ_of_lt (length_of_scanUnsigned? hp)
  split at h
  · exact Nat.lt_succ_of_le (length_of_scanString? h)
  split at h
  · split at h
    · obtain ⟨_, rfl⟩ := Prod.mk.inj (Option.some.inj h)
      simp; omega
    · simp at h
  · obtain ⟨p, hp, he⟩ := Option.map_eq_some_iff.mp h
    obtain ⟨_, rfl⟩ := Prod.mk.inj he
    exact Nat.lt_succ_self _

/-- The tokens of a text, if it has any reading as tokens. -/
def scan : List Char → Option (List Token)
  | [] => some []
  | c :: cs =>
    if isIgnored c then scan cs
    else if c = '#' then scan (cs.dropWhile fun c => !isLineEnd c)
    else
      match h : scanToken? c cs with
      | none => none
      | some (token, rest) =>
        have := length_of_scanToken? h
        (scan rest).map (token :: ·)
termination_by cs => cs.length
decreasing_by
  · exact Nat.lt_succ_self _
  · exact Nat.lt_succ_of_le (List.dropWhile_suffix _).sublist.length_le
  · assumption

end Token

end GraphSelect
