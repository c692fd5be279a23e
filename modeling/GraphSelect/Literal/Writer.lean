import GraphSelect.Literal.Basic
import GraphSelect.Text.Hexadecimal
import GraphSelect.Text.Separated

/-!
# Writing literals

A list or object with something in it stands over several lines, each item or field on its own line and followed by a
comma. A string with a line break is a block string where that can spell it (`fitsBlock`), and is quoted otherwise.
-/

namespace GraphSelect.Literal

/-! ## Strings -/

/-- A space or a tab. -/
def isSpacing (c : Char) : Bool := c = ' ' || c = '\t'

/-- Whether a line has nothing but spacing. -/
def isBlankLine (line : List Char) : Bool := line.all isSpacing

/-- Whether a text reads back from a block string: it has no carriage return, its first and last lines are not blank,
and some line that is not blank has no spacing in front, so that no common indentation is taken away. -/
def fitsBlock (text : List Char) : Bool :=
  let lines := Text.split '\n' text
  !text.contains '\r'
    && !(lines.head?.any isBlankLine) && !(lines.getLast?.any isBlankLine)
    && lines.any fun line => !isBlankLine line && !(line.head?.any isSpacing)

/-- How one character stands in a quoted string. -/
def escapeChar (c : Char) : List Char :=
  if c = '"' then ['\\', '"']
  else if c = '\\' then ['\\', '\\']
  else if c = '\x08' then ['\\', 'b']
  else if c = '\x0c' then ['\\', 'f']
  else if c = '\n' then ['\\', 'n']
  else if c = '\r' then ['\\', 'r']
  else if c = '\t' then ['\t']
  else if c.toNat < 0x20 then
    ['\\', 'u', '0', '0', Text.upperHexDigit (c.toNat / 16), Text.upperHexDigit (c.toNat % 16)]
  else [c]

/-- A quoted string. -/
def writeQuoted (text : List Char) : List Char := '"' :: text.flatMap escapeChar ++ ['"']

/-- One line of a block string, with every three quotes marked as not its end. -/
def escapeQuotes : List Char → List Char
  | '"' :: '"' :: '"' :: rest => '\\' :: '"' :: '"' :: '"' :: escapeQuotes rest
  | c :: rest => c :: escapeQuotes rest
  | [] => []

/-- A new line indented to a level, two spaces a level. -/
def newLine (level : Nat) : List Char := '\n' :: List.replicate (2 * level) ' '

/-- Three quotes. -/
def blockMark : List Char := ['"', '"', '"']

/-- A line of a block string on a new line; an empty one is not indented. -/
def writeBlockLine (level : Nat) (line : List Char) : List Char :=
  if line.isEmpty then ['\n'] else newLine level ++ escapeQuotes line

/-- A block string, its lines indented to a level. -/
def writeBlock (level : Nat) (text : List Char) : List Char :=
  blockMark ++ (Text.split '\n' text).flatMap (writeBlockLine level) ++ newLine level ++ blockMark

/-- A string, as a block string if it has a line break and can be one. -/
def writeString (level : Nat) (text : List Char) : List Char :=
  if text.contains '\n' && fitsBlock text then writeBlock level text else writeQuoted text

/-! ## Values -/

mutual

/-- The text of a literal inside `level` lists and objects. -/
def writeChars (level : Nat) : Literal → List Char
  | .null => "null".toList
  | .bool true => "true".toList
  | .bool false => "false".toList
  | .int text => text.toList
  | .float text => text.toList
  | .string text => writeString level text.toList
  | .enum name => name.toList
  | .variable name => '$' :: name.toList
  | .list [] => ['[', ']']
  | .list (item :: items) => '[' :: writeItems (level + 1) (item :: items) ++ newLine level ++ [']']
  | .object [] => ['{', '}']
  | .object (field :: fields) => '{' :: writeFields (level + 1) (field :: fields) ++ newLine level ++ ['}']

/-- Items, each on a new line and followed by a comma. -/
def writeItems (level : Nat) : List Literal → List Char
  | [] => []
  | item :: items => newLine level ++ writeChars level item ++ ',' :: writeItems level items

/-- Fields, each on a new line and followed by a comma. -/
def writeFields (level : Nat) : List (String × Literal) → List Char
  | [] => []
  | (name, value) :: fields =>
    newLine level ++ name.toList ++ ':' :: ' ' :: writeChars level value ++ ',' :: writeFields level fields

end

/-- The text of a literal that stands in no other. -/
def write (value : Literal) : String := String.ofList (writeChars 0 value)

end GraphSelect.Literal
