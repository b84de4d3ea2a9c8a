/-!
# Magnitudes of binary64 numbers

The 63 bits below the sign of a binary64 number, read as a natural number, order
the magnitudes: zero is `0`, every step up is the next representable value, and
`infinity` stands above all finite ones. In units of `2 ^ (-1074)` every finite
magnitude is a natural number, so the nearest magnitude to a fraction is found
in exact integer arithmetic.
-/

namespace VexLang

/-- Quotient of two natural numbers, rounded to the nearest integer and, half way
between two, to the even one. -/
def roundHalfEven (num den : Nat) : Nat :=
  let floor := num / den
  let twice := 2 * (num % den)
  if twice < den then floor
  else if den < twice then floor + 1
  else floor + floor % 2

namespace Magnitude

/-- The number of mantissas that share an exponent, which is `2 ^ 52`. -/
def mantissas : Nat := 0x10000000000000

/-- The position above all finite magnitudes. -/
def infinity : Nat := 0x7FF * mantissas

/-- The number of binary places by which the mantissa of a magnitude is shifted up. -/
def shift (position : Nat) : Nat :=
  position / mantissas - 1

/-- The value of a finite magnitude in units of `2 ^ (-1074)`. -/
def units (position : Nat) : Nat :=
  (position - shift position * mantissas) * Nat.pow 2 (shift position)

def unitsPerOne : Nat := Nat.pow 2 1074

/-- The shift that leaves a quotient with at most 53 binary digits. -/
def shiftFor (num den : Nat) : Nat :=
  Nat.log2 (num / den) - 52

/-- The position of the magnitude nearest to `num / den` units; a value half way
between two goes to the one with the even mantissa, and values beyond the
largest finite magnitude by half a step or more go to `infinity`. -/
def nearest (num den : Nat) : Nat :=
  let s := shiftFor num den
  min infinity (s * mantissas + roundHalfEven num (den * Nat.pow 2 s))

end Magnitude

/-- The weight of the sign bit, which is `2 ^ 63`. -/
def signWeight : Nat := 0x8000000000000000

def ofMagnitude (negative : Bool) (position : Nat) : Float :=
  Float.ofBits (UInt64.ofNat ((if negative then signWeight else 0) + position))

def magnitude (n : Float) : Nat :=
  n.toBits.toNat % signWeight

/-- Is the sign bit set? Negative zero counts. -/
def isNegative (n : Float) : Bool :=
  signWeight ≤ n.toBits.toNat

def notANumber : Float := 0.0 / 0.0

end VexLang
