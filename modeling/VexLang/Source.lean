import VexLang.Node.Parser
import VexLang.Token.Lexer

/-!
# Source texts

The way from a source text to a program, and what can go wrong on it.
-/

namespace VexLang

inductive SourceError where
  | unknownCharacter (e : UnknownCharacter)
  | parse (e : ParseError)
  deriving DecidableEq, Repr

def SourceError.message : SourceError → String
  | unknownCharacter e => e.message
  | parse e => e.message

def Program.ofSource (source : String) : Except SourceError Program :=
  match tokens source with
  | .error e => .error (.unknownCharacter e)
  | .ok ts =>
    match Program.ofTokens ts with
    | .error e => .error (.parse e)
    | .ok program => .ok program

end VexLang
