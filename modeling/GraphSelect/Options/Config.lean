import GraphSelect.Options.Reading
import GraphSelect.Text.Separated

/-!
# Options from configuration files

A configuration file is either JSON text or a flat mapping, a line `key: value` for each choice. A value is plain or
stands between quotes; blank lines and comments are skipped. The name of an operation may be any plain value and is
taken as it is spelled. What is wrong with a file is not told.
-/

namespace GraphSelect

/-- A value of a flat mapping. -/
inductive ConfigScalar where
  | plain (text : String)
  | quoted (text : String)
deriving DecidableEq, Repr, Inhabited

namespace Config

/-! ## Scalars -/

/-- A space or a tab. -/
def isSpacing (c : Char) : Bool := c = ' ' || c = '\t'

/-- A text without the spacing at its end. -/
def trimEnd (cs : List Char) : List Char := (cs.reverse.dropWhile isSpacing).reverse

/-- Whether nothing but spacing and a comment follows a value. -/
def endsLine (cs : List Char) : Bool :=
  match cs with
  | [] => true
  | c :: _ =>
    if isSpacing c then
      match cs.dropWhile isSpacing with
      | [] => true
      | c :: _ => c = '#'
    else false

/-- The inside of a text in single quotes, of which one is written twice, and what follows it. -/
def singleQuoted? : List Char → Option (List Char × List Char)
  | '\'' :: '\'' :: rest => (singleQuoted? rest).map fun (text, rest) => ('\'' :: text, rest)
  | '\'' :: rest => some ([], rest)
  | c :: rest => (singleQuoted? rest).map fun (text, rest) => (c :: text, rest)
  | [] => none

/-- The inside of a text in double quotes, with the escapes of JSON, and what follows it. -/
def doubleQuoted? (cs : List Char) : Option (List Char × List Char) := (Json.scanString none cs).toOption

/-- A plain text up to a comment or the end of the line; it has no colon that a space or the end follows. -/
def plain? : List Char → Option (List Char)
  | [] => some []
  | [':'] => none
  | ':' :: ' ' :: _ => none
  | ' ' :: '#' :: _ => some []
  | '\t' :: '#' :: _ => some []
  | c :: cs => (plain? cs).map (c :: ·)

/-- The characters that no plain text starts with. -/
def indicators : List Char := ['-', '?', ':', ',', '[', ']', '{', '}', '#', '&', '*', '!', '|', '>', '%', '@', '`']

/-- Whether a text starts as no plain text does; three of the marks are allowed before another character. -/
def startsForm : List Char → Bool
  | [] => false
  | [c] => c ∈ indicators
  | c :: d :: _ => c ∈ indicators && !((c = '-' || c = '?' || c = ':') && !isSpacing d)

/-- The value that the rest of a line spells; nothing spells the plain empty text. -/
def scalar? (cs : List Char) : Option ConfigScalar :=
  match cs.dropWhile isSpacing with
  | '\'' :: rest => closed? (singleQuoted? rest)
  | '"' :: rest => closed? (doubleQuoted? rest)
  | '#' :: rest => if rest.length + 1 < cs.length then some (.plain "") else none
  | rest => if startsForm rest then none else (plain? rest).map fun text => .plain (String.ofList (trimEnd text))
where
  /-- A quoted text that ends its line. -/
  closed? : Option (List Char × List Char) → Option ConfigScalar
    | some (text, rest) => if endsLine rest then some (.quoted (String.ofList text)) else none
    | none => none

/-! ## Lines -/

/-- The key of a line and what follows its colon. -/
def splitKey? : List Char → Option (List Char × List Char)
  | [] => none
  | [':'] => some ([], [])
  | ':' :: c :: rest =>
    if isSpacing c then some ([], c :: rest)
    else (splitKey? (c :: rest)).map fun (key, rest) => (':' :: key, rest)
  | c :: rest => (splitKey? rest).map fun (key, rest) => (c :: key, rest)

/-- The text of a key. -/
def keyText? (cs : List Char) : Option String :=
  match scalar? cs with
  | some (.plain text) => some text
  | some (.quoted text) => some text
  | none => none

/-- The entry that a line spells after its indentation. -/
def entry? (line : List Char) : Option (String × ConfigScalar) := do
  let (key, rest) ← splitKey? line
  let key ← keyText? key
  let value ← scalar? rest
  pure (key, value)

/-- Whether a line holds nothing but a comment. -/
def isEmptyLine (line : List Char) : Bool :=
  match line.dropWhile isSpacing with
  | [] => true
  | c :: _ => c = '#'

/-- A line without a carriage return at its end. -/
def withoutReturn (line : List Char) : List Char := if line.getLast? = some '\r' then line.dropLast else line

/-- The lines that hold entries; a mark for the start of the document may stand before them. -/
def contentLines (text : List Char) : List (List Char) :=
  match ((Text.split '\n' text).map withoutReturn).filter fun line => !isEmptyLine line with
  | [] => []
  | first :: rest => if trimEnd first = ['-', '-', '-'] then rest else first :: rest

/-- The spaces in front of a line. -/
def indentation (line : List Char) : Nat := (line.takeWhile (· = ' ')).length

/-- The entries of a flat mapping, which has at least one, each with the same indentation. -/
def entries? (text : List Char) : Option (List (String × ConfigScalar)) :=
  match contentLines text with
  | [] => none
  | first :: rest =>
    (first :: rest).mapM fun line =>
      if indentation line = indentation first then entry? (line.drop (indentation first)) else none

/-! ## Options -/

/-- The text of a value. -/
def scalarText : ConfigScalar → String
  | .plain text => text
  | .quoted text => text

/-- The options with the choice of one entry made. -/
def choose? (o : Options) (value : ConfigScalar) : OptionKey → Option Options
  | .includeTypename =>
    match value with
    | .plain "true" => some { o with includeTypename := true }
    | .plain "false" => some { o with includeTypename := false }
    | _ => none
  | .operationType => (OperationKind.ofKeyword? (scalarText value)).map fun kind => { o with kind }
  | .operationName =>
    match value with
    | .plain text => some { o with name? := if text ∈ ["", "~", "null"] then none else some text }
    | .quoted text => some { o with name? := some text }
  | .requiredArguments =>
    (RequiredArguments.ofWord? (scalarText value)).map fun requiredArguments => { o with requiredArguments }

/-- The options with the choices of some entries made, each of them once. -/
def chooseAll? (o : Options) (seen : List OptionKey) : List (String × ConfigScalar) → Option Options
  | [] => some o
  | (name, value) :: entries => do
    let key ← OptionKey.ofName? name
    if key ∈ seen then none
    let o ← choose? o value key
    chooseAll? o (key :: seen) entries

/-- Whether a text is written as JSON. -/
def isJson (text : List Char) : Bool :=
  match text.dropWhile Json.isBlank with
  | c :: _ => c = '{' || c = '['
  | [] => false

/-- The tokens of JSON text with the name of the operation as a text, whatever plain value it is. -/
def nameAsText : List Json.Token → List Json.Token
  | [] => []
  | .string key :: .colon :: .number n :: rest =>
    .string key :: .colon :: (if key = OptionKey.operationName.name then .string (String.ofList n.write) else .number n)
      :: nameAsText rest
  | .string key :: .colon :: .bool b :: rest =>
    .string key :: .colon :: (if key = OptionKey.operationName.name then .string (toString b) else .bool b)
      :: nameAsText rest
  | token :: rest => token :: nameAsText rest

/-- The options that a configuration file stands for. -/
def read? (text : String) : Option Options :=
  if isJson text.toList then (Options.readTokens (nameAsText (Json.scan text.toList))).toOption
  else (entries? text.toList).bind (chooseAll? {} [])

end Config

end GraphSelect
