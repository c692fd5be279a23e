import GraphSelect.Options.Basic

/-!
# Command lines

What a command line asks for. It names one of three commands, the files it reads, and options in any order; an option
takes its value as the next argument or after an equals sign, and after two dashes alone every argument names a file.
In front of the command may stand a filter that says what is written to the log.
-/

namespace GraphSelect

/-- The options that every command has. -/
structure CommandOptions where
  config? : Option String := none
  kind? : Option OperationKind := none
  name? : Option String := none
  typename : Bool := false
  placeholders : Bool := false
deriving Repr, Inhabited

/-- A command with the files that it reads. -/
inductive Command where
  | generate (schema : String) (options : CommandOptions)
  | serialize (schema selection : String) (options : CommandOptions)
  | build (schema : String) (paths : List String) (options : CommandOptions)
deriving Repr

/-- What a command line asks for: a command, and a filter for the log. -/
structure CommandLine where
  filter : String := "warn"
  command : Command
deriving Repr

/-- Why a command line names no command: it asks for help, or it is wrong. -/
inductive UsageFault where
  | help
  | wrong
deriving DecidableEq, Repr

namespace Command

/-! ## Single arguments -/

/-- An option that takes a value. -/
inductive ValuedOption where
  | config
  | operationType
  | operationName
  | select
deriving DecidableEq, Repr

/-- An option without a value. -/
inductive Switch where
  | typename
  | placeholders
deriving DecidableEq, Repr

/-- What one argument is, with the value that it carries itself. -/
inductive Form where
  | file (path : String)
  | valued (option : ValuedOption) (value? : Option String)
  | switch (switch : Switch)
  | separator
  | help
  | unknown

/-- The part of an argument before its first equals sign and, if it has one, the part after it. -/
def splitValue : List Char → List Char × Option (List Char)
  | [] => ([], none)
  | c :: cs =>
    if c = '=' then ([], some cs)
    else
      let (name, value?) := splitValue cs
      (c :: name, value?)

/-- What an argument after two dashes is. -/
def longForm (cs : List Char) : Form :=
  let (name, value?) := splitValue cs
  let value? := value?.map String.ofList
  match String.ofList name with
  | "config" => .valued .config value?
  | "operation-type" => .valued .operationType value?
  | "operation-name" => .valued .operationName value?
  | "select" => .valued .select value?
  | "typename" => if value?.isNone then .switch .typename else .unknown
  | "placeholder-arguments" => if value?.isNone then .switch .placeholders else .unknown
  | "help" => if value?.isNone then .help else .unknown
  | _ => .unknown

/-- What an argument is. A dash alone names a file. -/
def form (argument : String) : Form :=
  match argument.toList with
  | ['-'] => .file argument
  | ['-', '-'] => .separator
  | '-' :: '-' :: cs => longForm cs
  | ['-', 's'] => .valued .select none
  | '-' :: 's' :: '=' :: cs => .valued .select (some (String.ofList cs))
  | '-' :: 's' :: cs => .valued .select (some (String.ofList cs))
  | '-' :: 'h' :: _ => .help
  | '-' :: _ => .unknown
  | _ => .file argument

/-- Whether an argument cannot be the value of the option before it. -/
def isOptionLike (argument : String) : Bool :=
  match argument.toList with
  | '-' :: _ :: _ => true
  | _ => false

/-! ## All arguments -/

/-- What the arguments of a command say. -/
structure Collected where
  files : List String := []
  paths : List String := []
  options : CommandOptions := {}

/-- A value that is given only once. -/
def once {α : Type} (old : Option α) (new : α) : Except UsageFault (Option α) :=
  if old.isSome then .error .wrong else .ok (some new)

/-- What is collected with the value of an option. -/
def Collected.addValue (c : Collected) (value : String) : ValuedOption → Except UsageFault Collected
  | .config => do
    if value.isEmpty then .error .wrong
    pure { c with options := { c.options with config? := ← once c.options.config? value } }
  | .operationType => do
    match OperationKind.ofKeyword? value with
    | some kind => pure { c with options := { c.options with kind? := ← once c.options.kind? kind } }
    | none => .error .wrong
  | .operationName => do
    pure { c with options := { c.options with name? := ← once c.options.name? value } }
  | .select => pure { c with paths := c.paths ++ [value] }

/-- What is collected with an option that takes no value. -/
def Collected.addSwitch (c : Collected) : Switch → Except UsageFault Collected
  | .typename =>
    if c.options.typename then .error .wrong else .ok { c with options := { c.options with typename := true } }
  | .placeholders =>
    if c.options.placeholders then .error .wrong
    else .ok { c with options := { c.options with placeholders := true } }

/-- Collects the arguments of a command. -/
def collect (c : Collected) : List String → Except UsageFault Collected
  | [] => .ok c
  | argument :: rest =>
    match form argument with
    | .file path => collect { c with files := c.files ++ [path] } rest
    | .separator => .ok { c with files := c.files ++ rest }
    | .switch switch => do collect (← c.addSwitch switch) rest
    | .valued option (some value) => do collect (← c.addValue value option) rest
    | .valued option none =>
      match rest with
      | value :: rest => do
        if isOptionLike value then .error .wrong
        collect (← c.addValue value option) rest
      | [] => .error .wrong
    | .help => .error .help
    | .unknown => .error .wrong

/-! ## Commands -/

/-- The command of a name for what its arguments say. -/
def ofCollected (name : String) (c : Collected) : Except UsageFault Command :=
  if c.files.any String.isEmpty then .error .wrong
  else
    match name, c.files, c.paths with
    | "generate", [schema], [] => .ok (.generate schema c.options)
    | "serialize", [schema, selection], [] => .ok (.serialize schema selection c.options)
    | "build", [schema], path :: paths => .ok (.build schema (path :: paths) c.options)
    | _, _, _ => .error .wrong

/-- The command that a line asks for after the options that stand before it. -/
def ofName : List String → Except UsageFault Command
  | [] => .error .wrong
  | name :: arguments =>
    if name = "help" ∨ name = "--help" ∨ name = "-h" then .error .help
    else if name ∈ ["generate", "serialize", "build"] then do ofCollected name (← collect {} arguments)
    else .error .wrong

/-- The filter of the log, if an argument gives it together with its name. -/
def logFilter? (argument : String) : Option String :=
  match splitValue argument.toList with
  | (name, some value) => if name = "--log".toList then some (String.ofList value) else none
  | _ => none

/-- What a line asks for. The filter of the log may stand before the command. -/
def parse : List String → Except UsageFault CommandLine
  | [] => .error .wrong
  | "--log" :: filter :: rest => do
    if isOptionLike filter then .error .wrong
    pure { filter, command := ← ofName rest }
  | argument :: rest => do
    match logFilter? argument with
    | some filter => pure { filter, command := ← ofName rest }
    | none => pure { command := ← ofName (argument :: rest) }

/-- How commands are written. -/
def usage : String :=
  "Usage: query-builder [--log LEVEL] generate SCHEMA [OPTIONS]\n"
    ++ "       query-builder [--log LEVEL] serialize SCHEMA SELECTION [OPTIONS]\n"
    ++ "       query-builder [--log LEVEL] build SCHEMA (-s|--select PATH)... [OPTIONS]\n"
    ++ "Options: --config FILE, --operation-type TYPE, --operation-name NAME, --typename, --placeholder-arguments\n"

end Command

end GraphSelect
