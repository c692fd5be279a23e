import GraphSelect.Schema.Parse

/-!
# Caches of schemas

A cache keeps the schemas of the texts that were used last, up to its capacity. `lookup` finds one and marks it as used
last; `offer` puts one in unless its text has one by now, and lets go of the one that was unused for longest.
`getOrParse` is a look-up and, if that finds nothing, an offer of the schema parsed from the text.

Each schema that is parsed gets a number of its own (`Instance`), so that it can be told whether two answers are one
schema or two that were parsed from the same text.
-/

namespace GraphSelect

/-- A schema that was parsed once, with its number. -/
structure Instance where
  number : Nat
  schema : Schema
deriving Repr, Inhabited

/-- A cache: at most `capacity` texts with their schemas, the last used first, and how many schemas were parsed. -/
structure Cache where
  capacity : Nat
  entries : List (String × Instance) := []
  parsed : Nat := 0
deriving Repr, Inhabited

namespace Cache

/-- The capacity of a cache that is not given one. -/
def usualCapacity : Nat := 32

/-- A cache without schemas. -/
def empty (capacity : Nat) : Cache := { capacity }

/-- How many schemas a cache holds. -/
def size (c : Cache) : Nat := c.entries.length

/-- The texts whose schemas a cache holds, the last used first. -/
def texts (c : Cache) : List String := c.entries.map Prod.fst

/-- The entries with the one of a text in front. -/
def toFront (text : String) (i : Instance) (entries : List (String × Instance)) : List (String × Instance) :=
  (text, i) :: entries.filter fun e => e.1 ≠ text

/-- The schema held for a text, and the cache after the look-up. -/
def lookup (c : Cache) (text : String) : Option (Instance × Cache) :=
  match c.entries.lookup text with
  | some i => some (i, { c with entries := toFront text i c.entries })
  | none => none

/-- The schema held for a text after `i` is offered for it, and the cache then: the first to be accepted stays. -/
def offer (c : Cache) (text : String) (i : Instance) : Instance × Cache :=
  match c.lookup text with
  | some found => found
  | none => (i, { c with entries := ((text, i) :: c.entries).take c.capacity })

/-- A new instance of a schema, and the cache that has counted it. -/
def number (c : Cache) (s : Schema) : Instance × Cache := (⟨c.parsed, s⟩, { c with parsed := c.parsed + 1 })

/-- The schema of a text, from the cache or parsed, and the cache then. A text without a schema leaves no trace. -/
def getOrParse (c : Cache) (text : String) : Except (List Diagnostic) Instance × Cache :=
  match c.lookup text with
  | some (i, c) => (.ok i, c)
  | none =>
    match Schema.parse text with
    | .error problems => (.error problems, c)
    | .ok s =>
      let (i, c) := c.number s
      let (i, c) := c.offer text i
      (.ok i, c)

/-- A cache on one line: its size and capacity. -/
def describe (c : Cache) : String :=
  "SchemaCache \x7b len: " ++ toString c.size ++ ", cap: " ++ toString c.capacity ++ " \x7d"

end Cache

end GraphSelect
