import VexLang.Number.Magnitude

/-!
# Decimals

A decimal is a natural number times a power of ten. `Decimal.toMagnitude` reads a
decimal as the nearest binary64 magnitude, and `Decimal.shortest` goes back: it
gives the decimal with the fewest digits that is read as a given magnitude.
-/

namespace VexLang

/-- The value `digits * 10 ^ exponent`. -/
structure Decimal where
  digits : Nat
  exponent : Int
  deriving DecidableEq, Repr

namespace Decimal

def fraction (d : Decimal) : Nat × Nat :=
  match d.exponent with
  | .ofNat e => (d.digits * Nat.pow 10 e, 1)
  | .negSucc e => (d.digits, Nat.pow 10 (e + 1))

/-- Every positive decimal with a larger exponent is above the finite magnitudes. -/
def exponentCeiling : Int := 310

/-- A decimal whose value is below `10` to this power is nearest to zero. -/
def valueFloor : Int := -330

/-- The position of the nearest magnitude. Decimals that are out of range by their
exponent alone are recognised before any power of ten is computed. -/
def toMagnitude (d : Decimal) : Nat :=
  if d.digits = 0 then 0
  else if exponentCeiling < d.exponent then Magnitude.infinity
  else if d.exponent + (Nat.log2 d.digits + 1) < valueFloor then 0
  else Magnitude.nearest (d.fraction.1 * Magnitude.unitsPerOne) d.fraction.2

/-- Moves zeros at the end of the digits into the exponent, at most `fuel` of them. -/
def stripZeros : Nat → Decimal → Decimal
  | 0, d => d
  | fuel + 1, d =>
    if d.digits % 10 = 0 then stripZeros fuel ⟨d.digits / 10, d.exponent + 1⟩ else d

def digitCount (n : Nat) : Nat :=
  (Nat.toDigits 10 n).length

/-- The number of decimal places that a positive value in units has before the point. Below
one it is zero, or the negative number of zeros that follow the point: a value below one
has as many of them as its inverse has digits before the point, less one. -/
def pointPosition (units : Nat) : Int :=
  if Magnitude.unitsPerOne ≤ units then digitCount (units / Magnitude.unitsPerOne)
  else 1 - digitCount (Magnitude.unitsPerOne / units)

/-- The value in units divided by `10 ^ exponent`, as a numerator and a denominator. -/
def scaled (units : Nat) (exponent : Int) : Nat × Nat :=
  match exponent with
  | .ofNat e => (units, Magnitude.unitsPerOne * Nat.pow 10 e)
  | .negSucc e => (units * Nat.pow 10 (e + 1), Magnitude.unitsPerOne)

/-- The multiple of `10 ^ exponent` that is read as the magnitude at `position`, if a
neighbour of its value on that grid is. Of two such neighbours the nearer one is
taken, and the upper one if neither is nearer. -/
def onGrid? (position : Nat) (exponent : Int) : Option Decimal :=
  let (num, den) := scaled (Magnitude.units position) exponent
  let lower : Decimal := ⟨num / den, exponent⟩
  let upper : Decimal := ⟨num / den + 1, exponent⟩
  match decide (lower.toMagnitude = position), decide (upper.toMagnitude = position) with
  | true, true => some (if den ≤ 2 * (num % den) then upper else lower)
  | true, false => some lower
  | false, true => some upper
  | false, false => none

def exact (position : Nat) : Decimal :=
  ⟨Magnitude.units position * Nat.pow 5 1074, -1074⟩

/-- The decimal with the fewest digits that is read as the finite magnitude at
`position`, and of those the nearest to it. Seventeen digits are enough for every
magnitude, so that the last alternative is there for the sake of the law alone. -/
def shortest (position : Nat) : Decimal :=
  let point := pointPosition (Magnitude.units position)
  let found := (List.range 17).findSome? fun (n : Nat) ↦ onGrid? position (point - (n + 1))
  let d := found.getD (exact position)
  stripZeros d.digits d

end Decimal

end VexLang
