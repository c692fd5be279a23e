import GraphSelect.Document.Token

/-!
# Readers

A reader takes tokens from the front of those that are left and gives a value, or fails. Loops and nested forms count
down a number that the tokens left bound, as every step of a loop takes at least one token.
-/

namespace GraphSelect

/-- The tokens that are left, and how many were taken. -/
structure Cursor where
  tokens : List Token
  position : Nat := 0

/-- A step that takes tokens, or fails. -/
abbrev Reader := StateT Cursor Option

namespace Reader

/-- The next token, which stays. -/
def peek? : Reader (Option Token) := do
  pure (← get).tokens.head?

/-- How many tokens were taken. -/
def position : Reader Nat := do
  pure (← get).position

/-- A bound on the steps that are left: the number of tokens. -/
def left : Reader Nat := do
  pure (← get).tokens.length

/-- Takes the next token. -/
def next : Reader Token := do
  match ← get with
  | ⟨token :: rest, n⟩ =>
    set (Cursor.mk rest (n + 1))
    pure token
  | ⟨[], _⟩ => failure

/-- Takes the next token if it is `token`: whether it was. -/
def accept (token : Token) : Reader Bool := do
  if (← peek?) = some token then
    let _ ← next
    pure true
  else pure false

/-- Takes the next token, which must be `token`. -/
def expect (token : Token) : Reader Unit := do
  unless ← accept token do failure

/-- Takes a name. -/
def name : Reader String := do
  match ← next with
  | .name text => pure text
  | _ => failure

/-- Takes a string, if one is next: whether one was. -/
def skipString : Reader Bool := do
  match ← peek? with
  | some (.string _) =>
    let _ ← next
    pure true
  | _ => pure false

/-- Reads items up to a closing mark, which is taken too, in at most `n` steps. -/
def untilMark {α : Type} (close : Punctuator) (item : Reader α) : Nat → Reader (List α)
  | 0 => failure
  | n + 1 => do
    if ← accept (.mark close) then pure []
    else
      let x ← item
      let xs ← untilMark close item n
      pure (x :: xs)

/-- Reads at least one item between two marks. -/
def between {α : Type} (first last : Punctuator) (item : Reader α) : Reader (List α) := do
  expect (.mark first)
  let x ← item
  let xs ← untilMark last item ((← left) + 1)
  pure (x :: xs)

/-- Reads items between two marks, at least one, if the first mark is next. -/
def optionalBetween {α : Type} (first last : Punctuator) (item : Reader α) : Reader (List α) := do
  if (← peek?) = some (.mark first) then between first last item else pure []

/-- Reads an item, and another one after each separating mark, in at most `n` steps. -/
def separated {α : Type} (mark : Punctuator) (item : Reader α) : Nat → Reader (List α)
  | 0 => failure
  | n + 1 => do
    let x ← item
    if ← accept (.mark mark) then
      let xs ← separated mark item n
      pure (x :: xs)
    else pure [x]

/-- Reads items with a mark between two of them and, if the text has it, one in front. -/
def list {α : Type} (mark : Punctuator) (item : Reader α) : Reader (List α) := do
  let _ ← accept (.mark mark)
  separated mark item ((← left) + 1)

end Reader

end GraphSelect
