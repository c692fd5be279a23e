import GraphSelect.Literal.Writer
import GraphSelect.Operation.Basic
import GraphSelect.Tree.Key

/-!
# Writing operations

An operation is written on one line with single spaces, apart from argument values, which may take several lines. An
empty selection set is written as two braces.
-/

namespace GraphSelect

/-- One argument: its name, a colon and its value. -/
def writeArgument (name : String) (value : Literal) : List Char :=
  name.toList ++ ':' :: ' ' :: value.writeChars 0

/-- The arguments after the first, each after a comma. -/
def writeMoreArguments : List (String × Literal) → List Char
  | [] => []
  | (name, value) :: rest => ',' :: ' ' :: writeArgument name value ++ writeMoreArguments rest

/-- The arguments of a field in parentheses, or nothing if there are none. -/
def writeArguments : List (String × Literal) → List Char
  | [] => []
  | (name, value) :: rest => '(' :: writeArgument name value ++ writeMoreArguments rest ++ [')']

mutual

/-- The text of an item. -/
def Item.writeChars : Item → List Char
  | .typename => Key.typename.toList
  | .scalar name arguments => name.toList ++ writeArguments arguments
  | .composite name arguments body => name.toList ++ writeArguments arguments ++ ' ' :: writeSet body
  | .fragment type body => "... on ".toList ++ type.toList ++ ' ' :: writeSet body

/-- The text of a selection set. -/
def writeSet : List Item → List Char
  | [] => ['{', '}']
  | item :: items => '{' :: ' ' :: item.writeChars ++ ' ' :: writeItems items ++ ['}']

/-- The text of the items after the first, each followed by a space. -/
def writeItems : List Item → List Char
  | [] => []
  | item :: items => item.writeChars ++ ' ' :: writeItems items

end

namespace Operation

/-- The name of an operation after a space, or nothing if it has none. -/
def writeName : Option String → List Char
  | none => []
  | some name => ' ' :: name.toList

/-- The characters of an operation. -/
def writeChars (operation : Operation) : List Char :=
  operation.kind.keyword.toList ++ writeName operation.name? ++ ' ' :: writeSet operation.items

/-- The text of an operation. -/
def write (operation : Operation) : String := String.ofList operation.writeChars

end Operation

end GraphSelect
