import VexLang.Node

/-!
# The text of a program tree

Every node has a text in the notation of the language itself. Statements of a
body stand on lines of their own.
-/

namespace VexLang

def literalText : Value → String
  | .number n => numberText n
  | .text s => "\"" ++ s ++ "\""
  | .boolean true => "yup"
  | .boolean false => "nah"
  | .null => "null"
  | .undefined => "undefined"

def BranchKind.word : BranchKind → String
  | .opening => "if"
  | .continuing => "elseif"

/-- Ends every text with a line break. -/
def lines (texts : List String) : String :=
  String.join (texts.map (· ++ "\n"))

theorem lines_cons (text : String) (texts : List String) :
    lines (text :: texts) = text ++ "\n" ++ lines texts := by
  rw [lines, List.map_cons, String.join_cons]
  rfl

def braced (texts : List String) : String :=
  "\x7b\n" ++ lines texts ++ "\x7d"

mutual

def Node.render : Node → String
  | .literal value => literalText value
  | .identifier name => name
  | .cast operand status => operand.render ++ ":" ++ status.word
  | .phrase parts => String.intercalate " " (renderEach parts)
  | .comparison left right => "(" ++ left.render ++ " is " ++ right.render ++ ")"
  | .arithmetic left op right =>
    "(" ++ left.render ++ " " ++ String.singleton op.symbol ++ " " ++ right.render ++ ")"
  | .random low high => "random " ++ low.render ++ " " ++ high.render
  | .declaration name value constant =>
    (if constant then "fr" else "this") ++ " '" ++ name ++ "' is " ++ value.render
  | .assignment name value => "set '" ++ name ++ "' is " ++ value.render
  | .call name params =>
    name ++ "!" ++
      (if params.isEmpty then "" else " " ++ String.intercalate ", " (renderEach params))
  | .loop times body => "loop! " ++ renderTimes times ++ braced (renderEach body)
  | .branch kind condition body alternate =>
    kind.word ++ " " ++ condition.render ++ " " ++ braced (renderEach body)
      ++ renderAlternate alternate
  | .cut none => "cut!"
  | .cut (some target) => "cut! '" ++ target ++ "'"
  | .banish target => "banish! '" ++ target ++ "'"
  | .bussin => "bussin"
  | .manual => "vx"
  | .openFile => "openfile"

def renderEach : List Node → List String
  | [] => []
  | node :: nodes => node.render :: renderEach nodes

/-- The text of a loop count, with the blank that follows it. -/
def renderTimes : Option Node → String
  | none => ""
  | some times => "[" ++ times.render ++ "] "

/-- The text of the next condition of a chain, with the blank that precedes it. -/
def renderAlternate : Option Node → String
  | none => ""
  | some alternate => " " ++ alternate.render

end

/-- The text of a program, one line after the other. -/
def Program.render (program : Program) : String :=
  lines (renderEach program)

end VexLang
