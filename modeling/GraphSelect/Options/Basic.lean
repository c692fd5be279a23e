import GraphSelect.Arguments

/-!
# Options

What can be chosen when a tree is generated and when an operation is written from it.
-/

namespace GraphSelect

/-- How required arguments are written when no provider is given. -/
inductive RequiredArguments where
  | omit
  | placeholder
deriving DecidableEq, Repr, Inhabited

namespace RequiredArguments

/-- The word for a choice. -/
def word : RequiredArguments → String
  | .omit => "omit"
  | .placeholder => "placeholder"

/-- Every choice. -/
def all : List RequiredArguments := [.omit, .placeholder]

/-- The choice with a word. -/
def ofWord? (text : String) : Option RequiredArguments := all.find? (·.word = text)

end RequiredArguments

/-- The choices for generating trees and writing operations. A provider takes precedence over the choice of required
arguments. -/
structure Options where
  includeTypename : Bool := false
  kind : OperationKind := .query
  name? : Option String := none
  requiredArguments : RequiredArguments := .omit
  provider? : Option ArgumentProvider := none

instance : Inhabited Options := ⟨{}⟩

/-- The provider that the options ask for. -/
def Options.provider (o : Options) : ArgumentProvider :=
  match o.provider?, o.requiredArguments with
  | some provider, _ => provider
  | none, .omit => noArguments
  | none, .placeholder => placeholderArguments

end GraphSelect
