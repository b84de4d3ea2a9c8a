import VexLang.Number.Decimal
import VexLang.Number.Digits
import VexLang.Text.Blank

/-!
# Numerals

The one grammar of numeric text: an optional sign, then either `Infinity` or
digits with an optional point and an optional exponent. `scanNumeral?` takes the
longest numeral a text begins with. Two readings of a text are built on it:
`leadingNumber` ignores what follows the numeral, `wholeNumber` does not.
-/

namespace VexLang

/-- Splits off a sign; `true` stands for minus. -/
def scanSign : List Char → Bool × List Char
  | '+' :: cs => (false, cs)
  | '-' :: cs => (true, cs)
  | cs => (false, cs)

/-- Splits off the digits a text begins with. -/
def scanDigits (cs : List Char) : List Char × List Char :=
  (cs.takeWhile Char.isDigit, cs.dropWhile Char.isDigit)

/-- Splits off a point and the digits after it. A point with digits on neither side is
left alone. -/
def scanFraction (hasInteger : Bool) : List Char → List Char × List Char
  | '.' :: cs =>
    let (digits, rest) := scanDigits cs
    if hasInteger || !digits.isEmpty then (digits, rest) else ([], '.' :: cs)
  | cs => ([], cs)

/-- Splits off an exponent. A mark that no digits follow is left alone. -/
def scanExponent : List Char → Int × List Char
  | [] => (0, [])
  | c :: cs =>
    if c = 'e' ∨ c = 'E' then
      let (negative, body) := scanSign cs
      let (digits, rest) := scanDigits body
      if digits.isEmpty then (0, c :: cs)
      else (if negative then -(exponentValue digits : Int) else exponentValue digits, rest)
    else (0, c :: cs)

def scanDecimal? (cs : List Char) : Option (Decimal × List Char) :=
  let (integer, afterInteger) := scanDigits cs
  let (fraction, afterFraction) := scanFraction (!integer.isEmpty) afterInteger
  if integer.isEmpty && fraction.isEmpty then none
  else
    let (exponent, rest) := scanExponent afterFraction
    some (⟨digitsValue (integer ++ fraction), exponent - fraction.length⟩, rest)

/-- The numeral for the magnitude above all finite ones. -/
def infinityWord : List Char :=
  ['I', 'n', 'f', 'i', 'n', 'i', 't', 'y']

/-- Splits off the magnitude that an unsigned numeral denotes. -/
def scanMagnitude? (cs : List Char) : Option (Nat × List Char) :=
  if infinityWord.isPrefixOf cs then some (Magnitude.infinity, cs.drop infinityWord.length)
  else (scanDecimal? cs).map fun (d, rest) ↦ (d.toMagnitude, rest)

/-- The value of the longest numeral a text begins with, and the text after it. -/
def scanNumeral? (cs : List Char) : Option (Float × List Char) :=
  let (negative, body) := scanSign cs
  (scanMagnitude? body).map fun (position, rest) ↦ (ofMagnitude negative position, rest)

/-- The value of the numeral a text begins with after its leading blanks. -/
def leadingNumber (text : String) : Float :=
  match scanNumeral? (trimStart text.toList) with
  | some (n, _) => n
  | none => notANumber

/-- The value of a text that is a numeral between blanks; a blank text is zero. -/
def wholeNumber (text : String) : Float :=
  match trim text.toList with
  | [] => 0.0
  | cs =>
    match scanNumeral? cs with
    | some (n, []) => n
    | _ => notANumber

end VexLang
