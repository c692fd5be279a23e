import GraphSelect.Json.Writer
import GraphSelect.Options.Basic
import GraphSelect.Text.Quoted

/-!
# Options from JSON values

Options are an object with a member for each choice that is made, or an array of the choices in their order; what is
left out keeps its default. The first fault in the order of the value is reported.
-/

namespace GraphSelect

/-- The choices that a document can make. -/
inductive OptionKey where
  | includeTypename
  | operationType
  | operationName
  | requiredArguments
deriving DecidableEq, Repr, Inhabited

namespace OptionKey

/-- The choices in order. -/
def all : List OptionKey := [.includeTypename, .operationType, .operationName, .requiredArguments]

/-- The name of a choice. -/
def name : OptionKey → String
  | .includeTypename => "includeTypename"
  | .operationType => "operationType"
  | .operationName => "operationName"
  | .requiredArguments => "requiredArguments"

/-- The choice with a name. -/
def ofName? (text : String) : Option OptionKey := all.find? (·.name = text)

end OptionKey

/-- What is wrong with a document of options. -/
inductive OptionsFault where
  | wrongSort (found : Json) (expected : String)
  | unknownKey (name : String)
  | repeatedKey (key : OptionKey)
  | unknownWord (word : String) (known : List String)
  | notOneKey
  | tooLong (length : Nat)
deriving Repr

/-- A value as a message describes it. -/
def Json.description : Json → String
  | .null => "null"
  | .bool b => "boolean `" ++ toString b ++ "`"
  | .number (.integer n) => "integer `" ++ toString n ++ "`"
  | .number (.floating x) => "floating point `" ++ String.ofList (x.write Json.floatLayout) ++ "`"
  | .string s => "string " ++ Text.quote s
  | .array _ => "sequence"
  | .object _ => "map"

/-- Some words as the alternatives of a message. -/
def alternatives (words : List String) : String :=
  let quoted := words.map fun word => "`" ++ word ++ "`"
  match quoted with
  | [one] => one
  | [one, other] => one ++ " or " ++ other
  | words => "one of " ++ String.intercalate ", " words

/-- The message for a fault. -/
def OptionsFault.message : OptionsFault → String
  | .wrongSort found expected => "invalid type: " ++ found.description ++ ", expected " ++ expected
  | .unknownKey name =>
    "unknown field `" ++ name ++ "`, expected " ++ alternatives (OptionKey.all.map OptionKey.name)
  | .repeatedKey key => "duplicate field `" ++ key.name ++ "`"
  | .unknownWord word known => "unknown variant `" ++ word ++ "`, expected " ++ alternatives known
  | .notOneKey => "invalid value: map, expected map with a single key"
  | .tooLong length => "invalid length " ++ toString length ++ ", expected fewer elements in array"

namespace Options

/-! ## Words -/

/-- The kind of operation that a word names. -/
def kindOfWord (word : String) : Except OptionsFault OperationKind :=
  match OperationKind.ofKeyword? word with
  | some kind => .ok kind
  | none => .error (.unknownWord word (OperationKind.all.map OperationKind.keyword))

/-- The choice of required arguments that a word names. -/
def requiredOfWord (word : String) : Except OptionsFault RequiredArguments :=
  match RequiredArguments.ofWord? word with
  | some choice => .ok choice
  | none => .error (.unknownWord word (RequiredArguments.all.map RequiredArguments.word))

/-! ## Values -/

/-- A truth value. -/
def decodeBool : Json → Except OptionsFault Bool
  | .bool b => .ok b
  | value => .error (.wrongSort value "a boolean")

/-- A text, or null for none. -/
def decodeText? : Json → Except OptionsFault (Option String)
  | .null => .ok none
  | .string text => .ok (some text)
  | value => .error (.wrongSort value "a string")

/-- A word, alone or as the key of null. -/
def decodeWord {α : Type} (ofWord : String → Except OptionsFault α) : Json → Except OptionsFault α
  | .string word => ofWord word
  | .object [(word, value)] =>
    match ofWord word, value with
    | .ok choice, .null => .ok choice
    | .ok _, value => .error (.wrongSort value "unit")
    | .error fault, _ => .error fault
  | .object _ => .error .notOneKey
  | value => .error (.wrongSort value "string or map")

/-- The options with one choice made. -/
def choose (o : Options) (value : Json) : OptionKey → Except OptionsFault Options
  | .includeTypename => (decodeBool value).map fun b => { o with includeTypename := b }
  | .operationType => (decodeWord kindOfWord value).map fun kind => { o with kind }
  | .operationName => (decodeText? value).map fun name? => { o with name? }
  | .requiredArguments =>
    (decodeWord requiredOfWord value).map fun requiredArguments => { o with requiredArguments }

/-- The options with the choices of an object made. -/
def chooseMembers (o : Options) : List (String × Json) → Except OptionsFault Options
  | [] => .ok o
  | (name, value) :: members =>
    match OptionKey.ofName? name with
    | none => .error (.unknownKey name)
    | some key =>
      match o.choose value key with
      | .ok o => chooseMembers o members
      | .error fault => .error fault

/-- The options with the choices of an array made, in their order. -/
def chooseItems (o : Options) : List (OptionKey × Json) → Except OptionsFault Options
  | [] => .ok o
  | (key, value) :: items =>
    match o.choose value key with
    | .ok o => chooseItems o items
    | .error fault => .error fault

/-- The options that a JSON value stands for. -/
def ofJson : Json → Except OptionsFault Options
  | .object members => chooseMembers {} members
  | .array items =>
    match chooseItems {} (OptionKey.all.zip items) with
    | .error fault => .error fault
    | .ok o => if OptionKey.all.length < items.length then .error (.tooLong items.length) else .ok o
  | value => .error (.wrongSort value "struct Options")

end Options

end GraphSelect
