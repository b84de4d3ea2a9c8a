import VexLang.Number.Decimal

/-!
# The text of a number

Numbers are printed with the fewest digits that read back. Magnitudes from
`10 ^ (-6)` up to `10 ^ 21` are printed positionally, all others with a signed
exponent; a whole number has no point, and zero has no sign.
-/

namespace VexLang

namespace Decimal

def digitText (n : Nat) : List Char :=
  Nat.toDigits 10 n

/-- The value written without an exponent. -/
def positional (d : Decimal) : List Char :=
  let digits := digitText d.digits
  let point : Int := digits.length + d.exponent
  if point ≤ 0 then '0' :: '.' :: (List.replicate (-point).toNat '0' ++ digits)
  else if point < digits.length then
    digits.take point.toNat ++ '.' :: digits.drop point.toNat
  else digits ++ List.replicate d.exponent.toNat '0'

/-- The value written with one digit before the point, and an exponent. -/
def scientific (d : Decimal) : List Char :=
  let digits := digitText d.digits
  let exponent : Int := digits.length + d.exponent - 1
  let mantissa :=
    match digits with
    | first :: second :: more => first :: '.' :: second :: more
    | few => few
  let sign := if exponent < 0 then '-' else '+'
  mantissa ++ 'e' :: sign :: digitText exponent.natAbs

end Decimal

/-- Magnitudes outside this range are written with an exponent. -/
def usesExponent (n : Float) : Bool :=
  decide (1e21 ≤ n.abs) || decide (n.abs < 1e-6)

/-- The text of a number that is neither zero, infinite nor undefined. -/
def finiteText (n : Float) : List Char :=
  let d := Decimal.shortest (magnitude n)
  let unsigned := if usesExponent n then d.scientific else d.positional
  if isNegative n then '-' :: unsigned else unsigned

def numberText (n : Float) : String :=
  if Magnitude.infinity < magnitude n then "NaN"
  else if magnitude n = Magnitude.infinity then
    if isNegative n then "-Infinity" else "Infinity"
  else if magnitude n = 0 then "0"
  else String.ofList (finiteText n)

theorem numberText_of_zero {n : Float} (h : magnitude n = 0) : numberText n = "0" := by
  rw [numberText, if_neg (by rw [h]; decide), if_neg (by rw [h]; decide), if_pos h]

end VexLang
