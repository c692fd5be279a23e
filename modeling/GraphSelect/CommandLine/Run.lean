import GraphSelect.Builder
import GraphSelect.CommandLine.Usage
import GraphSelect.Options.Config

/-!
# Running commands

A command as a function of the files it can read: what it prints and the code it exits with. Files are read one after
the other, and the first that cannot be read or understood ends the command. A filter of the log that is none ends it
before anything is read.
-/

namespace GraphSelect

/-- What a command finds around it: the files that can be read and the text on standard input, none of what cannot be
read, the filter of the log that is set for all commands, if there is one, and which texts are filters. -/
structure Inputs where
  file? : String → Option String
  stdin? : Option String
  filter? : Option String := none
  isFilter : String → Bool := fun _ => true

/-- Whether a path leads to standard input: it is a dash, which nothing follows that leads to another place. -/
def isStdin (path : String) : Bool :=
  match Text.split '/' path.toList with
  | ['-'] :: parts => parts.all fun part => part.isEmpty || part = ['.']
  | _ => false

example : isStdin "-/." = true ∧ isStdin "./-" = false := by decide

/-- Why a command fails. -/
inductive CommandError where
  | notAFilter
  | sharedInput (first second : String)
  | unreadable (path : String)
  | notOptions (path : String)
  | notJson
  | request (error : Error)
  | unknownLeaves (texts : List String)
deriving Repr

/-- The message for a command that fails. -/
def CommandError.message : CommandError → String
  | .notAFilter => "could not parse log"
  | .sharedInput first second => first ++ " and " ++ second ++ " cannot both be read from stdin"
  | .unreadable path => if isStdin path then "could not read stdin" else "could not read " ++ path
  | .notOptions path => "could not parse options in " ++ path
  | .notJson => "selection tree is not valid JSON"
  | .request error => error.message
  | .unknownLeaves texts => "no such leaf: " ++ String.intercalate ", " texts

/-- What a command leaves behind. -/
structure Outcome where
  exit : Nat
  stdout : String
  stderr : String
deriving DecidableEq, Repr, Inhabited

namespace Command

/-- Checks that at most one of some named files is standard input. -/
def checkStdin (files : List (String × String)) : Except CommandError Unit :=
  match (files.filter fun f => isStdin f.2).map Prod.fst with
  | first :: second :: _ => .error (.sharedInput first second)
  | _ => .ok ()

/-- The text of a file. -/
def readFile (inputs : Inputs) (path : String) : Except CommandError String :=
  match if isStdin path then inputs.stdin? else inputs.file? path with
  | some text => .ok text
  | none => .error (.unreadable path)

/-- The options of a command: those of its configuration file, if it has one, and over them those of the line. -/
def readOptions (inputs : Inputs) (options : CommandOptions) : Except CommandError Options := do
  let base ←
    match options.config? with
    | none => pure {}
    | some path =>
      match Config.read? (← readFile inputs path) with
      | some o => pure o
      | none => .error (.notOptions path)
  pure { base with
    kind := options.kind?.getD base.kind
    name? := options.name?.or base.name?
    includeTypename := options.typename || base.includeTypename
    requiredArguments := if options.placeholders then .placeholder else base.requiredArguments }

/-- The named files of a command that can be standard input. -/
def namedFiles : Command → List (String × String)
  | .generate schema options => [("schema", schema)] ++ configFile options
  | .serialize schema selection options => [("schema", schema), ("selection", selection)] ++ configFile options
  | .build schema _ options => [("schema", schema)] ++ configFile options
where
  /-- The configuration file, if there is one. -/
  configFile (options : CommandOptions) : List (String × String) :=
    (options.config?.map fun path => ("config", path)).toList

/-- A fault of a request as one of a command. -/
def request {α : Type} : Except Error α → Except CommandError α
  | .ok value => .ok value
  | .error error => .error (.request error)

/-- What a command prints, without the end of its last line. -/
def answer (inputs : Inputs) (command : Command) : Except CommandError String := do
  checkStdin command.namedFiles
  let builder := Builder.empty Cache.usualCapacity
  match command with
  | .generate schema options =>
    let text ← readFile inputs schema
    let o ← readOptions inputs options
    let tree ← request (builder.generate text o).1
    pure tree.toJson.writeIndented
  | .serialize schema selection options =>
    let text ← readFile inputs schema
    match Json.read (← readFile inputs selection) with
    | .error _ => .error .notJson
    | .ok value =>
      let o ← readOptions inputs options
      request (builder.serializeJson text value o).1
  | .build schema paths options =>
    let text ← readFile inputs schema
    let o ← readOptions inputs options
    let (query, unknown) ← request (builder.build text (·.selectTexts paths) o).1
    match unknown with
    | [] => pure query
    | _ :: _ => .error (.unknownLeaves unknown)

/-- Checks the filter of the log: that which is set for all commands, and else that of the line. -/
def checkFilter (inputs : Inputs) (filter : String) : Except CommandError Unit :=
  if inputs.isFilter (inputs.filter?.getD filter) then .ok () else .error .notAFilter

/-- What the command of a line prints, without the end of its last line. -/
def answerLine (inputs : Inputs) (line : CommandLine) : Except CommandError String := do
  checkFilter inputs line.filter
  line.command.answer inputs

/-- What the command of a line leaves behind. -/
def run (inputs : Inputs) (line : CommandLine) : Outcome :=
  match answerLine inputs line with
  | .ok text => ⟨0, text ++ "\n", ""⟩
  | .error error => ⟨1, "", "Error: " ++ error.message ++ "\n"⟩

/-- What a command line leaves behind. -/
def runLine (inputs : Inputs) (arguments : List String) : Outcome :=
  match parse arguments with
  | .ok line => run inputs line
  | .error .help => ⟨0, usage, ""⟩
  | .error .wrong => ⟨2, "", usage⟩

end Command

end GraphSelect
