import GraphSelect.Decimal.Binary

/-!
# Shortest decimals

The decimal with the fewest digits that reads back as a given binary number, and the nearest of those. `Notation`
says how such a decimal is written: positionally between two bounds, with an exponent outside them.
-/

namespace GraphSelect

/-- The value `digits · 10 ^ scale`. -/
structure Decimal where
  digits : Nat
  scale : Int
deriving DecidableEq, Repr, Inhabited

namespace Binary

/-- Four times the ends of the interval that rounds to a nonzero number, and four times the number, as numerators over
the common denominator that comes last. Just above a power of two the interval below is half as wide. -/
def quarterInterval (x : Binary) : Nat × Nat × Nat × Nat :=
  let m := 4 * x.significand
  let below := if x.significand = leastNormal ∧ minExponent < x.exponent then m - 1 else m - 2
  if 0 ≤ x.exponent then
    let p := Nat.pow 2 x.exponent.toNat
    (below * p, m * p, (m + 2) * p, 4)
  else
    (below, m, m + 2, 4 * Nat.pow 2 (-x.exponent).toNat)

/-- Whether `c · 10 ^ scale` rounds to the number: it lies in the interval, the ends included for an even
significand. -/
def readsBack (x : Binary) (c : Nat) (scale : Int) : Bool :=
  let (low, _, high, d) := x.quarterInterval
  let (n, e) := decimalRatio c scale
  if x.significand % 2 = 0 then low * e ≤ n * d && n * d ≤ high * e
  else low * e < n * d && n * d < high * e

/-- The integer part of the number divided by `10 ^ scale`. -/
def floorAt (x : Binary) (scale : Int) : Nat :=
  let (_, m, _, d) := x.quarterInterval
  let (n, e) := decimalRatio 1 scale
  (m * e) / (d * n)

/-- Whether `c + 1` is nearer than `c` to the number divided by `10 ^ scale`, or as near and even. -/
def upperNearer (x : Binary) (c : Nat) (scale : Int) : Bool :=
  let (_, m, _, d) := x.quarterInterval
  let (n, e) := decimalRatio 1 scale
  let twice := 2 * m * e
  let middle := (2 * c + 1) * (d * n)
  middle < twice || (middle == twice && c % 2 == 1)

/-- The neighbour of the number on the grid of `10 ^ scale` that reads back, the nearer one if both do. -/
def onGrid? (x : Binary) (scale : Int) : Option Decimal :=
  let c := x.floorAt scale
  match x.readsBack c scale, x.readsBack (c + 1) scale with
  | true, true => some ⟨if x.upperNearer c scale then c + 1 else c, scale⟩
  | true, false => some ⟨c, scale⟩
  | false, true => some ⟨c + 1, scale⟩
  | false, false => none

/-- The exponent of the leading decimal digit of a nonzero number. -/
def leadingExponent (x : Binary) : Int :=
  let (_, m, _, d) := x.quarterInterval
  let guess : Int := (decimalWidth m : Int) - (decimalWidth d : Int)
  if x.floorAt guess = 0 then guess - 1 else guess

/-- The first of the grids with `width`, `width + 1`, … digits that holds a decimal which reads back. -/
def searchGrids (x : Binary) (lead : Int) : Nat → Nat → Decimal
  | 0, _ => ⟨x.floorAt (lead - 16), lead - 16⟩
  | tries + 1, width =>
    match x.onGrid? (lead - (width : Int) + 1) with
    | some found => found
    | none => searchGrids x lead tries (width + 1)

/-- The decimal with the fewest digits that reads back as the number: seventeen digits always do. -/
def shortest (x : Binary) : Decimal :=
  if x.significand = 0 then ⟨0, 0⟩ else x.searchGrids x.leadingExponent 17 1

end Binary

namespace Decimal

/-- The digits without trailing zeros, with the number of zeros that were dropped. -/
def trimDigits (digits : List Char) : List Char × Nat :=
  let zeros := (digits.reverse.takeWhile (· = '0')).length
  (digits.take (digits.length - zeros), zeros)

/-- How a decimal is written: positionally, with at least one place after the point, when the point stands within
`low < position ≤ high` of its digits; otherwise with one digit before the point and an exponent, in front of which
`plus` stands if it is not negative. -/
structure Layout where
  low : Int
  high : Int
  plus : List Char

/-- The text of an exponent. -/
def writeExponent (layout : Layout) (exponent : Int) : List Char :=
  'e' :: (if 0 ≤ exponent then layout.plus else []) ++ (toString exponent).toList

/-- The text of `digits · 10 ^ scale` for a nonzero `digits`. -/
def write (layout : Layout) (x : Decimal) : List Char :=
  let (digits, zeros) := trimDigits (Nat.toDigits 10 x.digits)
  let scale := x.scale + (zeros : Int)
  let point := (digits.length : Int) + scale
  if layout.low < point ∧ point ≤ layout.high then
    if 0 ≤ scale then digits ++ List.replicate scale.toNat '0' ++ ['.', '0']
    else if 0 < point then digits.take point.toNat ++ '.' :: digits.drop point.toNat
    else ['0', '.'] ++ List.replicate (-point).toNat '0' ++ digits
  else
    let mark := writeExponent layout (point - 1)
    match digits with
    | [d] => d :: mark
    | d :: rest => d :: '.' :: rest ++ mark
    | [] => mark

end Decimal

/-- The text of a binary number: its shortest decimal in the given layout, and `0.0` for zero. -/
def Binary.write (layout : Decimal.Layout) (x : Binary) : List Char :=
  (if x.negative then ['-'] else []) ++
    if x.significand = 0 then ['0', '.', '0'] else x.shortest.write layout

end GraphSelect
