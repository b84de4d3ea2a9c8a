/-!
# Escaped text

Arbitrary text is written with printable ASCII characters only: the usual short
escapes where there is one, `\u` and a hexadecimal code point in braces for
every other character outside that range. Escaped text can stand between double
quotes, and, once it cannot close a comment, inside one.
-/

namespace VexLang

/-- Characters that are written as themselves unless a short escape exists. -/
def isPrintable (c : Char) : Bool :=
  0x20 ≤ c.toNat && c.toNat ≤ 0x7E

/-- The letter that follows the backslash in the short escape of a character. -/
def shortEscape? : Char → Option Char
  | '\t' => some 't'
  | '\r' => some 'r'
  | '\n' => some 'n'
  | '\'' => some '\''
  | '"' => some '"'
  | '\\' => some '\\'
  | _ => none

/-- The escaped form of one character. -/
def escapeChar (c : Char) : List Char :=
  match shortEscape? c with
  | some letter => ['\\', letter]
  | none =>
    if isPrintable c then [c]
    else ['\\', 'u', '\x7b'] ++ Nat.toDigits 16 c.toNat ++ ['\x7d']

def escape (cs : List Char) : List Char :=
  cs.flatMap escapeChar

/-- A string literal that denotes the text. -/
def quote (text : String) : String :=
  "\"" ++ String.ofList (escape text.toList) ++ "\""

/-- Separates every star from a slash that follows it, so that the text cannot
end the comment it stands in. -/
def partStarSlash : List Char → List Char
  | [] => []
  | '*' :: '/' :: cs => '*' :: ' ' :: '/' :: partStarSlash cs
  | c :: cs => c :: partStarSlash cs

/-- The text as it may stand inside a comment of either kind. -/
def commentText (text : String) : String :=
  String.ofList (partStarSlash (escape text.toList))

end VexLang
