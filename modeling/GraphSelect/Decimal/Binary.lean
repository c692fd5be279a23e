/-!
# Binary floating point

A finite number with a binary exponent and at most 53 significant bits, kept as the exact value
`± significand · 2 ^ exponent`. `Binary.nearest?` rounds a decimal to it: to the nearest such number, a tie to the
even significand, and none when the number is too large.
-/

namespace GraphSelect

/-- The exact value `± significand · 2 ^ exponent` of a binary floating-point number. -/
structure Binary where
  negative : Bool
  significand : Nat
  exponent : Int
deriving DecidableEq, Repr, Inhabited

namespace Binary

/-- The least exponent, that of the subnormal numbers. -/
def minExponent : Int := -1074

/-- The greatest exponent of a number with 53 significant bits. -/
def maxExponent : Int := 971

/-- The least significand of 53 bits, `2 ^ 52`. -/
def leastNormal : Nat := 0x10000000000000

/-- The numerator and denominator of `digits · 10 ^ scale`. -/
def decimalRatio (digits : Nat) (scale : Int) : Nat × Nat :=
  if 0 ≤ scale then (digits * Nat.pow 10 scale.toNat, 1) else (digits, Nat.pow 10 (-scale).toNat)

/-- The numerator and denominator of `n / d / 2 ^ q`. -/
def divideByPower (n d : Nat) (q : Int) : Nat × Nat :=
  if 0 ≤ q then (n, d * Nat.pow 2 q.toNat) else (n * Nat.pow 2 (-q).toNat, d)

/-- The integer nearest to `n / d`, and the even one of two that are equally near. -/
def roundHalfEven (n d : Nat) : Nat :=
  let k := n / d
  let r := n % d
  if 2 * r < d ∨ (2 * r = d ∧ k % 2 = 0) then k else k + 1

/-- The greatest `g` with `2 ^ g ≤ n / d`. -/
def floorLog (n d : Nat) : Int :=
  let guess := (n.log2 : Int) - (d.log2 : Int)
  let (a, b) := divideByPower n d guess
  if b ≤ a then guess else guess - 1

/-- The number nearest to the positive ratio `n / d`. -/
def nearestRatio? (negative : Bool) (n d : Nat) : Option Binary :=
  let exponent := max (floorLog n d - 52) minExponent
  let (a, b) := divideByPower n d exponent
  let significand := roundHalfEven a b
  let (significand, exponent) :=
    if significand = 2 * leastNormal then (leastNormal, exponent + 1) else (significand, exponent)
  if maxExponent < exponent then none else some ⟨negative, significand, exponent⟩

/-- The number of decimal digits of `n`, and zero for zero. -/
def decimalWidth (n : Nat) : Nat := if n = 0 then 0 else (Nat.toDigits 10 n).length

/-- The number nearest to `± digits · 10 ^ scale`, or none if that is out of range. The size of the decimal is looked
at first, so no power is taken of a scale that settles the answer alone. -/
def nearest? (negative : Bool) (digits : Nat) (scale : Int) : Option Binary :=
  let magnitude := scale + (decimalWidth digits : Int)
  if digits = 0 ∨ magnitude < -400 then some ⟨negative, 0, minExponent⟩
  else if 400 < magnitude then none
  else
    let (n, d) := decimalRatio digits scale
    nearestRatio? negative n d

end Binary

end GraphSelect
