/-!
# Tokens

A token is a lexeme and the line it starts on. Lines are counted from one.
-/

namespace VexLang

/-- The smallest meaningful pieces of a source text. -/
inductive Lexeme where
  /-- Text between quotes of either kind. -/
  | text (content : String)
  /-- A digit followed by digits and points, as spelled. -/
  | number (spelling : String)
  | boolean (value : Bool)
  | null
  | undefined
  | random
  | bussin
  /-- Any other word. -/
  | word (name : String)
  | symbol (c : Char)
  deriving DecidableEq, Repr

namespace Lexeme

def kind : Lexeme → String
  | text _ => "string"
  | number _ => "number"
  | boolean _ => "boolean"
  | null => "null"
  | undefined => "undefined"
  | random => "random"
  | bussin => "bussin"
  | word _ => "name"
  | symbol _ => "symbol"

/-- A spelling of the lexeme. Quoted text is put between double quotes as it is. -/
def spelling : Lexeme → String
  | text content => "\"" ++ content ++ "\""
  | number spelling => spelling
  | boolean true => "yup"
  | boolean false => "nah"
  | null => "null"
  | undefined => "undefined"
  | random => "random"
  | bussin => "bussin"
  | word name => name
  | symbol c => String.singleton c

def ofWord (name : String) : Lexeme :=
  match name with
  | "yup" => boolean true
  | "nah" => boolean false
  | "null" => null
  | "undefined" => undefined
  | "random" => random
  | "bussin" => bussin
  | _ => word name

end Lexeme

/-- A lexeme and the line on which it starts. -/
structure Token where
  lexeme : Lexeme
  line : Nat
  deriving DecidableEq, Repr

namespace Token

def isSymbol (t : Token) (c : Char) : Bool :=
  t.lexeme = .symbol c

def isWord (t : Token) (name : String) : Bool :=
  t.lexeme = .word name

end Token

end VexLang
