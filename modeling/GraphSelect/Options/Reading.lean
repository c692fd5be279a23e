import GraphSelect.Json.Reader
import GraphSelect.Options.Decoding

/-!
# Options from JSON text

A text is read from left to right, and its first fault is the answer, be it a fault of the text or of what the text
says: a key that is unknown or comes again is one as soon as it is read, before its value is.
-/

namespace GraphSelect

/-- Why a text of options is refused. -/
inductive OptionsTextFault where
  | text (fault : Json.TextFault)
  | content (fault : OptionsFault)
deriving Repr

namespace Options

/-- What reading gives: a value, often with the tokens after it, or a fault. -/
abbrev Reading := Except OptionsTextFault

/-- The text ends where more should follow. -/
def endsEarly {α : Type} : Reading α := .error (.text .endsEarly)

/-- The text goes on in a way that no text does. -/
def malformed {α : Type} : Reading α := .error (.text .malformed)

/-- The fault of a token that starts a value of another sort than is expected. -/
def otherSort {α : Type} (expected : String) : Json.Token → Reading α
  | .null => .error (.content (.wrongSort .null expected))
  | .bool b => .error (.content (.wrongSort (.bool b) expected))
  | .number n => .error (.content (.wrongSort (.number n) expected))
  | .string s => .error (.content (.wrongSort (.string s) expected))
  | .openBracket => .error (.content (.wrongSort (.array []) expected))
  | .openBrace => .error (.content (.wrongSort (.object []) expected))
  | .brokenString fault => .error (.text fault)
  | .brokenWord fault => .error (.text fault)
  | _ => malformed

/-- Passes a fault of the content on. -/
def content {α : Type} : Except OptionsFault α → Reading α
  | .ok value => .ok value
  | .error fault => .error (.content fault)

/-! ## Values -/

/-- Reads a truth value. -/
def readBool : List Json.Token → Reading (Bool × List Json.Token)
  | [] => endsEarly
  | .bool b :: rest => .ok (b, rest)
  | token :: _ => otherSort "a boolean" token

/-- Reads a text, or null for none. -/
def readText? : List Json.Token → Reading (Option String × List Json.Token)
  | [] => endsEarly
  | .null :: rest => .ok (none, rest)
  | .string text :: rest => .ok (some text, rest)
  | token :: _ => otherSort "a string" token

/-- Reads a colon. -/
def readColon : List Json.Token → Reading (List Json.Token)
  | [] => endsEarly
  | .colon :: rest => .ok rest
  | _ :: _ => malformed

/-- Reads the null that a word is the key of, and the end of the object. -/
def readUnit : List Json.Token → Reading (List Json.Token)
  | [] => endsEarly
  | [.null] => endsEarly
  | .null :: .closeBrace :: rest => .ok rest
  | .null :: _ :: _ => malformed
  | token :: _ => otherSort "unit" token

/-- Reads a word, alone or as the key of null. -/
def readWord {α : Type} (ofWord : String → Except OptionsFault α) : List Json.Token → Reading (α × List Json.Token)
  | [] => endsEarly
  | .string word :: rest => do
    let choice ← content (ofWord word)
    pure (choice, rest)
  | [.openBrace] => endsEarly
  | .openBrace :: .string word :: rest => do
    let choice ← content (ofWord word)
    let rest ← readColon rest
    let rest ← readUnit rest
    pure (choice, rest)
  | .openBrace :: token :: _ => otherSort "variant identifier" token
  | .brokenString fault :: _ => .error (.text fault)
  | _ :: _ => malformed

/-- Reads the value of a choice: the options with it made. -/
def readChoice (o : Options) (key : OptionKey) (tokens : List Json.Token) : Reading (Options × List Json.Token) :=
  match key with
  | .includeTypename => do
    let (b, rest) ← readBool tokens
    pure ({ o with includeTypename := b }, rest)
  | .operationType => do
    let (kind, rest) ← readWord kindOfWord tokens
    pure ({ o with kind }, rest)
  | .operationName => do
    let (name?, rest) ← readText? tokens
    pure ({ o with name? }, rest)
  | .requiredArguments => do
    let (requiredArguments, rest) ← readWord requiredOfWord tokens
    pure ({ o with requiredArguments }, rest)

/-! ## Objects and arrays -/

/-- The choice that a key names, which must be known and new. -/
def freshKey (seen : List OptionKey) (name : String) : Reading OptionKey :=
  match OptionKey.ofName? name with
  | none => .error (.content (.unknownKey name))
  | some key => if key ∈ seen then .error (.content (.repeatedKey key)) else .ok key

/-- Reads members from a key on, of which at most `more` can be new. -/
def readMembers (o : Options) (seen : List OptionKey) : Nat → List Json.Token → Reading (Options × List Json.Token)
  | _, [] => endsEarly
  | 0, .string name :: _ => do
    let _ ← freshKey seen name
    malformed
  | more + 1, .string name :: rest => do
    let key ← freshKey seen name
    let rest ← readColon rest
    let (o, rest) ← readChoice o key rest
    match rest with
    | [] => endsEarly
    | .closeBrace :: rest => pure (o, rest)
    | .comma :: rest => readMembers o (key :: seen) more rest
    | _ :: _ => malformed
  | _, .brokenString fault :: _ => .error (.text fault)
  | _, _ :: _ => malformed

/-- Reads the items of an array for a choice and those after it; there can be no more items than choices. -/
def readItems (o : Options) (key : OptionKey) : List OptionKey → List Json.Token → Reading (Options × List Json.Token)
  | keys, tokens => do
    let (o, rest) ← readChoice o key tokens
    match rest, keys with
    | [], _ => endsEarly
    | .closeBracket :: rest, _ => pure (o, rest)
    | [.comma], _ :: _ => endsEarly
    | .comma :: .closeBracket :: _, _ => malformed
    | .comma :: rest, next :: others => readItems o next others rest
    | _ :: _, _ => malformed

/-- Reads options. -/
def readOptions : List Json.Token → Reading (Options × List Json.Token)
  | [] => endsEarly
  | .openBrace :: .closeBrace :: rest => .ok ({}, rest)
  | .openBrace :: rest => readMembers {} [] OptionKey.all.length rest
  | .openBracket :: .closeBracket :: rest => .ok ({}, rest)
  | .openBracket :: rest => readItems {} .includeTypename (OptionKey.all.drop 1) rest
  | token :: _ => otherSort "struct Options" token

/-- The options that the tokens of a whole text stand for. -/
def readTokens (tokens : List Json.Token) : Reading Options :=
  match readOptions tokens with
  | .error fault => .error fault
  | .ok (o, []) => .ok o
  | .ok (_, _ :: _) => malformed

/-- The options that a JSON text stands for. -/
def read (text : String) : Reading Options := readTokens (Json.scan text.toList)

end Options

end GraphSelect
