import VexLang.Token

/-!
# Listings of tokens

One token on a line, with the number of its source line before the first token of
each and a bar before the others.
-/

namespace VexLang

namespace Listing

/-- The text after as many blanks as it lacks to a width. -/
def padLeft (width : Nat) (text : String) : String :=
  String.ofList (List.replicate (width - text.length) ' ') ++ text

/-- The text before as many blanks as it lacks to a width. -/
def padRight (width : Nat) (text : String) : String :=
  text ++ String.ofList (List.replicate (width - text.length) ' ')

/-- The margin of a token after one on the line `previous`. -/
def margin (previous line : Nat) : String :=
  if line = previous then "   | " else padLeft 4 (Nat.repr line) ++ " "

/-- The line of a listing for a token after one on the line `previous`. -/
def tokenLine (previous : Nat) (t : Token) : String :=
  margin previous t.line ++ padRight 10 t.lexeme.kind ++ " " ++ t.lexeme.spelling ++ "\n"

/-- The listing of tokens after one on the line `previous`. -/
def listFrom (previous : Nat) : List Token → String
  | [] => ""
  | t :: ts => tokenLine previous t ++ listFrom t.line ts

end Listing

def listing (ts : List Token) : String :=
  Listing.listFrom 0 ts

end VexLang
