/-!
# Errors of reading a program

Hardly any sequence of tokens is refused. An error names its cause, the grammar
rules that were open when it arose, and the line of the token it arose at.
-/

namespace VexLang

/-- The grammar rules that an error reports. -/
inductive Rule where
  | program
  | group
  | random
  | condition
  | block
  | declaration
  | assignment
  | banish
  | loop
  | call
  | phrase
  deriving DecidableEq, Repr

def Rule.name : Rule → String
  | program => "program"
  | group => "group"
  | random => "random"
  | condition => "if"
  | block => "block"
  | declaration => "declaration"
  | assignment => "assignment"
  | banish => "banish"
  | loop => "loop"
  | call => "call"
  | phrase => "phrase"

/-- Why tokens cannot be read as a program. -/
inductive ParseFault where
  | variableNotQuoted
  | banishTargetNotQuoted
  | missingLoopBody
  deriving DecidableEq, Repr

def ParseFault.message : ParseFault → String
  | variableNotQuoted => "syntax error: variable must be a quoted string"
  | banishTargetNotQuoted => "Target for banish! must be a quoted string"
  | missingLoopBody => "syntax error: loop! needs a \x7b body \x7d"

/-- A fault, the rules that were open, innermost first, and the line of the token at which
it was found; there is none at the end of the input. -/
structure ParseError where
  fault : ParseFault
  context : List Rule
  line : Option Nat
  deriving DecidableEq, Repr

namespace ParseError

def place (e : ParseError) : String :=
  match e.line with
  | some line => " at line " ++ Nat.repr line
  | none => ""

/-- The wording of an error, which lists the open rules from the outside in. -/
def message (e : ParseError) : String :=
  e.fault.message ++ e.place ++ "\nWhile parsing "
    ++ String.intercalate " > " (e.context.reverse.map Rule.name)

end ParseError

end VexLang
