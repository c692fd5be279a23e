import GraphSelect.Json.Token

/-!
# Reading JSON

A text is read by a machine that takes one token at a time. Its state is what must come next (`Place`) and the arrays
and objects that are open around it (`Frame`), so reading is structural recursion on the tokens and the depth of a
value is the height of the stack.
-/

namespace GraphSelect.Json

/-- An array or object whose end is not yet read: the items so far in reverse, or the members so far and the key whose
value is awaited. -/
inductive Frame where
  | array (items : List Json)
  | object (members : List (String × Json)) (key : String)

/-- What may come next. -/
inductive Place where
  | value
  | firstItem
  | firstKey
  | key (members : List (String × Json))
  | colon (members : List (String × Json)) (key : String)
  | done (value : Json)

/-- A place in a text and the open values around it, the innermost first. -/
structure State where
  place : Place
  stack : List Frame

/-- The value that a text starts with is still to come. -/
def State.start : State := ⟨.value, []⟩

/-- The state after a token that starts a value; `limit` is the depth to which values may nest. -/
def startValue (limit : Nat) (stack : List Frame) : Token → Except TextFault State
  | .null => .ok ⟨.done .null, stack⟩
  | .bool b => .ok ⟨.done (.bool b), stack⟩
  | .number n => .ok ⟨.done (.number n), stack⟩
  | .string s => .ok ⟨.done (.string s), stack⟩
  | .openBracket => if stack.length < limit then .ok ⟨.firstItem, .array [] :: stack⟩ else .error .malformed
  | .openBrace => if stack.length < limit then .ok ⟨.firstKey, stack⟩ else .error .malformed
  | .brokenString fault => .error fault
  | .brokenWord fault => .error fault
  | _ => .error .malformed

/-- The state after a token that should be a key. -/
def readKey (members : List (String × Json)) (stack : List Frame) : Token → Except TextFault State
  | .string key => .ok ⟨.colon members key, stack⟩
  | .brokenString fault => .error fault
  | _ => .error .malformed

/-- The state after a token that follows a finished value. -/
def afterValue (value : Json) : List Frame → Token → Except TextFault State
  | .array items :: stack, .comma => .ok ⟨.value, .array (value :: items) :: stack⟩
  | .array items :: stack, .closeBracket => .ok ⟨.done (.array (value :: items).reverse), stack⟩
  | .object members key :: stack, .comma => .ok ⟨.key (putMember key value members), stack⟩
  | .object members key :: stack, .closeBrace => .ok ⟨.done (.object (putMember key value members)), stack⟩
  | _, _ => .error .malformed

/-- The state after one token. -/
def step (limit : Nat) (state : State) (token : Token) : Except TextFault State :=
  match state.place with
  | .value => startValue limit state.stack token
  | .firstItem =>
    match token, state.stack with
    | .closeBracket, .array _ :: stack => .ok ⟨.done (.array []), stack⟩
    | token, stack => startValue limit stack token
  | .firstKey =>
    match token with
    | .closeBrace => .ok ⟨.done (.object []), state.stack⟩
    | token => readKey [] state.stack token
  | .key members => readKey members state.stack token
  | .colon members key =>
    match token with
    | .colon => .ok ⟨.value, .object members key :: state.stack⟩
    | _ => .error .malformed
  | .done value => afterValue value state.stack token

/-- Runs the machine until a value is finished outside every array and object: the value and the tokens after it. -/
def run (limit : Nat) (state : State) : List Token → Except TextFault (Json × List Token)
  | [] =>
    match state with
    | ⟨.done value, []⟩ => .ok (value, [])
    | _ => .error .endsEarly
  | token :: rest =>
    match state with
    | ⟨.done value, []⟩ => .ok (value, token :: rest)
    | state =>
      match step limit state token with
      | .ok state => run limit state rest
      | .error fault => .error fault

/-- The depth to which the values of a text may nest. -/
def depthLimit : Nat := 127

/-- The value that a text starts with, and the tokens after it. -/
def readFirst (limit : Nat) (text : String) : Except TextFault (Json × List Token) :=
  run limit .start (scan text.toList)

/-- The value that a whole text stands for, nested to `limit` at most. -/
def readWithin (limit : Nat) (text : String) : Except TextFault Json :=
  match readFirst limit text with
  | .ok (value, []) => .ok value
  | .ok (_, _ :: _) => .error .malformed
  | .error fault => .error fault

/-- The value that a whole text stands for. -/
def read (text : String) : Except TextFault Json := readWithin depthLimit text

end GraphSelect.Json
