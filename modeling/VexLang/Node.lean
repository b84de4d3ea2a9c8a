import VexLang.Value

/-!
# Program trees

A program is a list of nodes. There is no division into statements and
expressions: every node can stand wherever a value can, and those that only act
evaluate to `undefined`.
-/

namespace VexLang

/-- Whether a condition opens a chain of conditions or continues one. -/
inductive BranchKind where
  | opening
  | continuing
  deriving DecidableEq, Repr

inductive Node where
  | literal (value : Value)
  /-- A bare word. -/
  | identifier (name : String)
  | cast (operand : Node) (status : Status)
  /-- Values that are joined to one text. -/
  | phrase (parts : List Node)
  | comparison (left right : Node)
  | arithmetic (left : Node) (op : Operator) (right : Node)
  /-- A whole number chosen between two bounds. -/
  | random (low high : Node)
  | declaration (name : String) (value : Node) (constant : Bool)
  | assignment (name : String) (value : Node)
  /-- A command by its name, without the exclamation mark. -/
  | call (name : String) (params : List Node)
  /-- A loop without a count goes on until something ends the run. -/
  | loop (times : Option Node) (body : List Node)
  | branch (kind : BranchKind) (condition : Node) (body : List Node) (alternate : Option Node)
  /-- Makes a constant variable again or, without a target, flips the switch. -/
  | cut (target : Option String)
  | banish (target : String)
  /-- Ends the run and its host. -/
  | bussin
  | manual
  /-- Asks the host for a file to run. -/
  | openFile

abbrev Program := List Node

namespace Node

/-- The literal that stands for an operand left out. -/
def undefined : Node := literal .undefined

def text (s : String) : Node := literal (.text s)

/-- A literal number is stored as its text. -/
def isNumberLiteral : Node → Bool
  | literal (.number _) => true
  | _ => false

/-- Composite expressions and truth values are phrases of their own: nothing is joined to
them. -/
def standsAlone : Node → Bool
  | arithmetic .. => true
  | random .. => true
  | comparison .. => true
  | literal (.boolean _) => true
  | _ => false

end Node

end VexLang
