import GraphSelect.Json.Basic
import GraphSelect.Decimal.Shortest
import GraphSelect.Text.Hexadecimal

/-!
# Writing JSON

Two forms of text: `write` puts everything on one line without spaces, `writeIndented` puts each item and member on a
line of its own. In both an empty array or object is closed at once.
-/

namespace GraphSelect.Json

/-- Floating-point numbers stand positionally from `0.00001` up to sixteen digits before the point, and every exponent
has a sign. -/
def floatLayout : Decimal.Layout := ⟨-5, 16, ['+']⟩

/-- The text of a number. -/
def Number.write : Number → List Char
  | .integer n => (toString n).toList
  | .floating x => x.write floatLayout

/-- How one character stands inside a string. -/
def escapeChar (c : Char) : List Char :=
  if c = '"' then ['\\', '"']
  else if c = '\\' then ['\\', '\\']
  else if c = '\x08' then ['\\', 'b']
  else if c = '\x0c' then ['\\', 'f']
  else if c = '\n' then ['\\', 'n']
  else if c = '\r' then ['\\', 'r']
  else if c = '\t' then ['\\', 't']
  else if c.toNat < 0x20 then
    ['\\', 'u', '0', '0', Text.lowerHexDigit (c.toNat / 16), Text.lowerHexDigit (c.toNat % 16)]
  else [c]

/-- A string between quotes. -/
def writeString (text : String) : List Char := '"' :: text.toList.flatMap escapeChar ++ ['"']

mutual

/-- The text of a value on one line. -/
def writeChars : Json → List Char
  | .null => "null".toList
  | .bool true => "true".toList
  | .bool false => "false".toList
  | .number n => n.write
  | .string s => writeString s
  | .array [] => ['[', ']']
  | .array (v :: items) => '[' :: writeChars v ++ writeItems items ++ [']']
  | .object [] => ['{', '}']
  | .object ((k, v) :: members) => '{' :: writeString k ++ ':' :: writeChars v ++ writeMembers members ++ ['}']

/-- The items after the first, each after a comma. -/
def writeItems : List Json → List Char
  | [] => []
  | v :: items => ',' :: writeChars v ++ writeItems items

/-- The members after the first, each after a comma. -/
def writeMembers : List (String × Json) → List Char
  | [] => []
  | (k, v) :: members => ',' :: writeString k ++ ':' :: writeChars v ++ writeMembers members

end

/-- The text of a value on one line. -/
def write (value : Json) : String := String.ofList (writeChars value)

/-- A new line indented to a level, two spaces a level. -/
def newLine (level : Nat) : List Char := '\n' :: List.replicate (2 * level) ' '

mutual

/-- The text of a value over several lines, inside `level` open values. -/
def writeLines (level : Nat) : Json → List Char
  | .array [] => ['[', ']']
  | .array (v :: items) =>
    '[' :: newLine (level + 1) ++ writeLines (level + 1) v ++ writeItemLines level items ++ newLine level ++ [']']
  | .object [] => ['{', '}']
  | .object ((k, v) :: members) =>
    '{' :: newLine (level + 1) ++ writeString k ++ [':', ' '] ++ writeLines (level + 1) v
      ++ writeMemberLines level members ++ newLine level ++ ['}']
  | .null => "null".toList
  | .bool true => "true".toList
  | .bool false => "false".toList
  | .number n => n.write
  | .string s => writeString s

/-- The items after the first, each on its own line after a comma. -/
def writeItemLines (level : Nat) : List Json → List Char
  | [] => []
  | v :: items => ',' :: newLine (level + 1) ++ writeLines (level + 1) v ++ writeItemLines level items

/-- The members after the first, each on its own line after a comma. -/
def writeMemberLines (level : Nat) : List (String × Json) → List Char
  | [] => []
  | (k, v) :: members =>
    ',' :: newLine (level + 1) ++ writeString k ++ [':', ' '] ++ writeLines (level + 1) v
      ++ writeMemberLines level members

end

/-- The text of a value with each item and member on its own line. -/
def writeIndented (value : Json) : String := String.ofList (writeLines 0 value)

end GraphSelect.Json
