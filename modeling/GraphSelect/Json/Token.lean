import GraphSelect.Json.Basic
import GraphSelect.Text.Hexadecimal

/-!
# JSON tokens

`scan` cuts a text into tokens and never fails: a faulty stretch becomes a token that carries its fault, so that a
reader that goes from left to right meets each fault at its own place. A text has two kinds of fault: it ends too
early, or it goes on in a way that no JSON text does.
-/

namespace GraphSelect.Json

/-- What is wrong with a text that is not JSON. -/
inductive TextFault where
  | endsEarly
  | malformed
deriving DecidableEq, Repr, Inhabited

/-- A token of a JSON text. -/
inductive Token where
  | openBrace
  | closeBrace
  | openBracket
  | closeBracket
  | comma
  | colon
  | null
  | bool (value : Bool)
  | number (value : Number)
  | string (value : String)
  | brokenString (fault : TextFault)
  | brokenWord (fault : TextFault)
  | stray
deriving Repr, Inhabited

/-- The characters between tokens. -/
def isBlank (c : Char) : Bool := c = ' ' || c = '\n' || c = '\t' || c = '\r'

/-! ## Strings -/

/-- The fault of a numeric escape with `rest` after its mark: the text counts as ended when fewer than four bytes of it
are left. -/
def escapeFault (rest : List Char) : TextFault :=
  if rest.foldl (fun size c => size + c.utf8Size) 0 < 4 then .endsEarly else .malformed

/-- The character for a short escape. -/
def shortEscape? (c : Char) : Option Char :=
  match c with
  | '"' => some '"'
  | '\\' => some '\\'
  | '/' => some '/'
  | 'b' => some '\x08'
  | 'f' => some '\x0c'
  | 'n' => some '\n'
  | 'r' => some '\r'
  | 't' => some '\t'
  | _ => none

/-- Whether a code unit is the first half of a pair. -/
def isLeading (unit : Nat) : Bool := 0xD800 ≤ unit && unit < 0xDC00

/-- Whether a code unit is the second half of a pair. -/
def isTrailing (unit : Nat) : Bool := 0xDC00 ≤ unit && unit < 0xE000

/-- The fault of a text that does not go on with the second half of a pair. -/
def pairFault : List Char → TextFault
  | [] => .endsEarly
  | ['\\'] => .endsEarly
  | '\\' :: 'u' :: rest => escapeFault rest
  | _ => .malformed

/-- The character that two halves of a pair spell. -/
def joinPair (first second : Nat) : Char :=
  Char.ofNat ((first - 0xD800) * 0x400 + (second - 0xDC00) + 0x10000)

/-- Puts a character before the text that was read. -/
def prepend (c : Char) : List Char × List Char → List Char × List Char
  | (text, rest) => (c :: text, rest)

/-- Reads the inside of a string up to its closing quote: the fault, or the characters and what follows. A first half
of a pair is kept in `lead` until its second half comes, which must be at once. -/
def scanString (lead : Option Nat) : List Char → Except TextFault (List Char × List Char)
  | '\\' :: 'u' :: a :: b :: c :: d :: rest =>
    match Text.hexValue4? a b c d, lead with
    | none, _ => .error .malformed
    | some unit, some first =>
      if isTrailing unit then (scanString none rest).map (prepend (joinPair first unit)) else .error .malformed
    | some unit, none =>
      if isLeading unit then scanString (some unit) rest
      else if isTrailing unit then .error .malformed
      else (scanString none rest).map (prepend (Char.ofNat unit))
  | cs@('\\' :: c :: rest) =>
    if lead.isSome then .error (pairFault cs)
    else if c = 'u' then .error (escapeFault rest)
    else
      match shortEscape? c with
      | some c => (scanString none rest).map (prepend c)
      | none => .error .malformed
  | c :: rest =>
    if lead.isSome then .error (pairFault (c :: rest))
    else if c = '"' then .ok ([], rest)
    else if c = '\\' then .error .endsEarly
    else if c.toNat < 0x20 then .error .malformed
    else (scanString none rest).map (prepend c)
  | [] => .error .endsEarly

theorem length_of_map_prepend {c : Char} {r : Except TextFault (List Char × List Char)}
    {text rest : List Char} {n : Nat} (h : r.map (prepend c) = .ok (text, rest))
    (ih : ∀ text rest, r = .ok (text, rest) → rest.length < n) : rest.length < n := by
  cases r with
  | error _ => simp [Except.map] at h
  | ok p =>
    obtain ⟨t, s⟩ := p
    simp only [Except.map, prepend, Except.ok.injEq, Prod.mk.injEq] at h
    exact h.2 ▸ ih t s rfl

/-- What follows a string is shorter than what was read. -/
theorem length_of_scanString {lead : Option Nat} {cs text rest : List Char}
    (h : scanString lead cs = .ok (text, rest)) : rest.length < cs.length := by
  fun_induction scanString lead cs generalizing text rest with
  | case1 => simp at h
  | case2 a b c d rest' unit _ first _ ih =>
    exact length_of_map_prepend h fun _ _ hr => by have := ih hr; simp; omega
  | case3 => simp at h
  | case4 a b c d rest' unit _ _ ih => have := ih h; simp; omega
  | case5 => simp at h
  | case6 a b c d rest' unit _ _ _ ih =>
    exact length_of_map_prepend h fun _ _ hr => by have := ih hr; simp; omega
  | case7 => simp at h
  | case8 => simp at h
  | case9 lead c rest' _ _ _ c' _ ih =>
    exact length_of_map_prepend h fun _ _ hr => by have := ih hr; simp; omega
  | case10 => simp at h
  | case11 => simp at h
  | case12 => simp_all
  | case13 => simp at h
  | case14 => simp at h
  | case15 lead c rest' _ _ _ _ _ _ ih =>
    exact length_of_map_prepend h fun _ _ hr => by have := ih hr; simp; omega
  | case16 => simp at h

/-! ## Numbers -/

/-- The number that a run of decimal digits spells. -/
def digitsValue (digits : List Char) : Nat :=
  digits.foldl (fun n c => n * 10 + (c.toNat - '0'.toNat)) 0

/-- The value of an integer literal: exact if it fits in 64 bits and is not a negative zero. -/
def integerValue? (negative : Bool) (digits : List Char) : Option Number :=
  let n := digitsValue digits
  if negative then
    if n ≠ 0 ∧ n ≤ 0x8000000000000000 then some (.integer (-(n : Int))) else (Binary.nearest? true n 0).map .floating
  else if n < 0x10000000000000000 then some (.integer n)
  else (Binary.nearest? false n 0).map .floating

/-- The value of a literal with a fraction or an exponent. -/
def decimalValue? (negative : Bool) (whole fraction : List Char) (exponent : Int) : Option Number :=
  (Binary.nearest? negative (digitsValue (whole ++ fraction)) (exponent - fraction.length)).map .floating

/-- A token for a number that may be out of range, and what follows it. -/
def numberToken (rest : List Char) : Option Number → Token × List Char
  | some value => (.number value, rest)
  | none => (.brokenWord .malformed, [])

/-- The fault of a number in which `rest` should go on with a digit. -/
def digitFault (rest : List Char) : TextFault := if rest.isEmpty then .endsEarly else .malformed

/-- The sign of an exponent and what follows it. -/
def splitSign : List Char → Bool × List Char
  | '+' :: rest => (false, rest)
  | '-' :: rest => (true, rest)
  | rest => (false, rest)

/-- Reads an exponent, if there is one, and closes the number. -/
def scanExponent (negative : Bool) (whole fraction : List Char) (isWhole : Bool) (cs : List Char) :
    Token × List Char :=
  match cs with
  | [] => close 0 isWhole []
  | c :: rest =>
    if c = 'e' ∨ c = 'E' then
      let (below, rest) := splitSign rest
      let digits := rest.takeWhile Char.isDigit
      if digits.isEmpty then (.brokenWord (digitFault rest), [])
      else
        let size : Int := digitsValue digits
        close (if below then -size else size) false (rest.dropWhile Char.isDigit)
    else close 0 isWhole (c :: rest)
where
  /-- The token of the finished number. -/
  close (exponent : Int) (isWhole : Bool) (rest : List Char) : Token × List Char :=
    numberToken rest
      (if isWhole then integerValue? negative whole else decimalValue? negative whole fraction exponent)

/-- Reads a fraction, if there is one, and then an exponent. -/
def scanFraction (negative : Bool) (whole : List Char) : List Char → Token × List Char
  | '.' :: rest =>
    let digits := rest.takeWhile Char.isDigit
    if digits.isEmpty then (.brokenWord (digitFault rest), [])
    else scanExponent negative whole digits false (rest.dropWhile Char.isDigit)
  | rest => scanExponent negative whole [] true rest

/-- Reads a number after its sign: no digit follows a leading zero. -/
def scanNumber (negative : Bool) (cs : List Char) : Token × List Char :=
  let digits := cs.takeWhile Char.isDigit
  if digits.isEmpty then (.brokenWord (digitFault cs), [])
  else if digits.head? = some '0' ∧ 1 < digits.length then (.brokenWord .malformed, [])
  else scanFraction negative digits (cs.dropWhile Char.isDigit)

theorem length_numberToken (rest : List Char) (v : Option Number) : (numberToken rest v).2.length ≤ rest.length := by
  cases v <;> simp [numberToken]

theorem length_splitSign (cs : List Char) : (splitSign cs).2.length ≤ cs.length := by
  unfold splitSign; split <;> simp

theorem length_scanExponent (n : Bool) (w f : List Char) (i : Bool) (cs : List Char) :
    (scanExponent n w f i cs).2.length ≤ cs.length := by
  unfold scanExponent
  split
  · exact length_numberToken _ _
  · rename_i c rest
    split
    · dsimp only
      split
      · simp
      · refine Nat.le_trans (length_numberToken _ _) (Nat.le_trans (List.dropWhile_suffix _).sublist.length_le ?_)
        exact Nat.le_trans (length_splitSign rest) (by simp)
    · exact length_numberToken _ _

theorem length_scanFraction (n : Bool) (w cs : List Char) : (scanFraction n w cs).2.length ≤ cs.length := by
  unfold scanFraction
  split
  · rename_i rest
    dsimp only
    split
    · simp
    · exact Nat.le_trans (length_scanExponent _ _ _ _ _)
        (Nat.le_trans (List.dropWhile_suffix _).sublist.length_le (by simp))
  · exact length_scanExponent _ _ _ _ _

theorem length_dropWhile_lt {α : Type} (p : α → Bool) {l : List α} (h : (l.takeWhile p).isEmpty = false) :
    (l.dropWhile p).length < l.length := by
  cases l with
  | nil => simp at h
  | cons a l =>
    cases hp : p a with
    | false => simp [hp] at h
    | true => simpa [List.dropWhile_cons, hp] using Nat.lt_succ_of_le (List.dropWhile_suffix p).sublist.length_le

/-- What follows a number is shorter than what was read. -/
theorem length_scanNumber (n : Bool) {cs : List Char} (h : cs ≠ []) : (scanNumber n cs).2.length < cs.length := by
  have hpos : 0 < cs.length := List.length_pos_iff.mpr h
  unfold scanNumber
  dsimp only
  split
  · simpa using hpos
  · rename_i hd
    split
    · simpa using hpos
    · exact Nat.lt_of_le_of_lt (length_scanFraction _ _ _) (length_dropWhile_lt _ (by simpa using hd))

/-! ## Words -/

/-- Reads the rest of a word that stands for `token`. -/
def scanWord (token : Token) : List Char → List Char → Token × List Char
  | [], rest => (token, rest)
  | _ :: _, [] => (.brokenWord .endsEarly, [])
  | w :: word, c :: rest => if w = c then scanWord token word rest else (.brokenWord .malformed, [])

theorem length_scanWord (token : Token) (word cs : List Char) : (scanWord token word cs).2.length ≤ cs.length := by
  fun_induction scanWord token word cs with
  | case1 => exact Nat.le_refl _
  | case2 => exact Nat.le_refl _
  | case3 w word rest ih => simp only [List.length_cons]; omega
  | case4 => simp

/-! ## Texts -/

/-- The token that starts with `c`, and what follows it. Nothing follows a faulty token. -/
def scanToken (c : Char) (rest : List Char) : Token × List Char :=
  match c with
  | '{' => (.openBrace, rest)
  | '}' => (.closeBrace, rest)
  | '[' => (.openBracket, rest)
  | ']' => (.closeBracket, rest)
  | ',' => (.comma, rest)
  | ':' => (.colon, rest)
  | '"' =>
    match scanString none rest with
    | .ok (text, rest) => (.string (String.ofList text), rest)
    | .error fault => (.brokenString fault, [])
  | 'n' => scanWord .null ['u', 'l', 'l'] rest
  | 't' => scanWord (.bool true) ['r', 'u', 'e'] rest
  | 'f' => scanWord (.bool false) ['a', 'l', 's', 'e'] rest
  | '-' => if rest.isEmpty then (.brokenWord .endsEarly, []) else scanNumber true rest
  | c => if c.isDigit then scanNumber false (c :: rest) else (.stray, [])

/-- What follows a token is shorter than what was read. -/
theorem length_scanToken (c : Char) (rest : List Char) : (scanToken c rest).2.length < (c :: rest).length := by
  unfold scanToken
  split
  case h_7 =>
    split
    · rename_i h; have := length_of_scanString h; simp; omega
    · simp
  case h_8 => exact Nat.lt_succ_of_le (length_scanWord _ _ _)
  case h_9 => exact Nat.lt_succ_of_le (length_scanWord _ _ _)
  case h_10 => exact Nat.lt_succ_of_le (length_scanWord _ _ _)
  case h_11 =>
    split
    · simp
    · rename_i h
      exact Nat.lt_succ_of_lt (length_scanNumber _ (by simpa using h))
  case h_12 =>
    split
    · exact length_scanNumber _ (by simp)
    · simp
  all_goals simp

/-- The tokens of a text. -/
def scan : List Char → List Token
  | [] => []
  | c :: rest => if isBlank c then scan rest else (scanToken c rest).1 :: scan (scanToken c rest).2
termination_by cs => cs.length
decreasing_by
  · exact Nat.lt_succ_self _
  · exact length_scanToken c rest

end GraphSelect.Json
