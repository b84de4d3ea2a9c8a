import VexLang.Node.ParseError
import VexLang.Node.Word
import VexLang.Token

/-!
# Reading programs from tokens

A recursive descent without backtracking. Every rule answers with what it has
read and with how many tokens it has taken, so that what follows is the list of
tokens without them. The rules are forgiving: a missing closing bracket is
overlooked, an operand left out is `undefined`, and a token that no rule takes is
passed over.

The rules call each other on lists that do not grow, and before a rule calls
itself again a token has gone.
-/

namespace VexLang

/-- What a rule has read and the number of tokens it has taken. -/
structure Taken (α : Type) where
  value : α
  count : Nat
  deriving DecidableEq, Repr

namespace Taken

/-- The same reading with more tokens before it. -/
def after {α : Type} (n : Nat) (r : Taken α) : Taken α :=
  { r with count := n + r.count }

end Taken

/-- Symbols that are not values. -/
def delimiters : List Char :=
  ['\x7b', '\x7d', '[', ']', '(', ')', ',']

def phraseEnds : List Char :=
  [',', '\x7d', ']', ')', '=', '\x7b']

def parameterEnds : List Char :=
  ['\x7d', ']', ')']

namespace Token

/-- Does the token mean "is equal to"? -/
def isEquality (t : Token) : Bool :=
  t.isWord "is" || t.isSymbol '='

/-- Does the token end a list of parameters, and with it every phrase? -/
def isStop (t : Token) : Bool :=
  match t.lexeme with
  | .bussin => true
  | .word name => isStopWord name
  | _ => false

def endsPhrase (t : Token) : Bool :=
  match t.lexeme with
  | .symbol c => phraseEnds.contains c
  | _ => t.isStop || t.isWord "is"

def endsParameters (t : Token) : Bool :=
  match t.lexeme with
  | .symbol c => parameterEnds.contains c
  | _ => t.isStop

end Token

/-- The number of tokens, one or none, that satisfy a condition at the start of a list. -/
def leading (p : Token → Bool) : List Token → Nat
  | [] => 0
  | t :: _ => if p t then 1 else 0

/-- The content of the quoted text a list starts with. -/
def quoted? : List Token → Option String
  | ⟨.text content, _⟩ :: _ => some content
  | _ => none

def firstLine? (ts : List Token) : Option Nat :=
  ts.head?.map Token.line

/-- The literal that a number token denotes. -/
def numberNode (spelling : String) : Node :=
  .literal (.number (leadingNumber spelling))

/-- The operand of a cast that is written with a separate colon. -/
def castOperand? : Lexeme → Option Node
  | .number spelling => some (numberNode spelling)
  | .text content => some (.text content)
  | .boolean value => some (.literal (.boolean value))
  | .word name => some (.identifier name)
  | _ => none

/-- A cast written as three tokens: an operand, a colon and a status. -/
def cast? : List Token → Option Node
  | t :: colon :: ⟨.word status, _⟩ :: _ =>
    if colon.isSymbol ':' then
      (castOperand? t.lexeme).map fun operand ↦ .cast operand (Status.ofWord status)
    else none
  | _ => none

/-- The one part of a phrase, or the phrase of several. -/
def joinParts (first : Node) (more : List Node) : Node :=
  if more.isEmpty then first else .phrase (first :: more)

/-- The operator that joins the two operands of a group. -/
inductive Junction where
  | equality
  | operator (op : Operator)
  deriving DecidableEq, Repr

namespace Junction

/-- The junction a list of tokens starts with. -/
def ofTokens? : List Token → Option Junction
  | [] => none
  | t :: _ =>
    if t.isEquality then some equality
    else
      match t.lexeme with
      | .symbol c => (Operator.ofSymbol? c).map operator
      | _ => none

def join (left right : Node) : Junction → Node
  | equality => .comparison left right
  | operator op => .arithmetic left op right

end Junction

namespace Parser

/-- Fails at the first of the given tokens. -/
def refuse {α : Type} (fault : ParseFault) (context : List Rule) (ts : List Token) :
    Except ParseError (Taken α) :=
  .error ⟨fault, context, firstLine? ts⟩

mutual

/-- Reads one term: a literal, a word with all that belongs to it, or a group. The tokens
may start with no term; then there is no node. -/
def term (context : List Rule) (inPhrase : Bool) (ts : List Token) :
    Except ParseError (Taken (Option Node)) :=
  match ts with
  | [] => .ok ⟨none, 0⟩
  | t :: rest =>
    match cast? (t :: rest) with
    | some node => .ok ⟨some node, 3⟩
    | none =>
      match t.lexeme with
      | .number spelling => .ok ⟨some (numberNode spelling), 1⟩
      | .text content => .ok ⟨some (.text content), 1⟩
      | .boolean value => .ok ⟨some (.literal (.boolean value)), 1⟩
      | .null => .ok ⟨some (.literal .null), 1⟩
      | .undefined => .ok ⟨some .undefined, 1⟩
      | .bussin => .ok ⟨some .bussin, 1⟩
      | .random => (bounds (.random :: context) rest).map fun r ↦ r.after 1
      | .symbol c =>
        if c = '(' then (group (.group :: context) rest).map fun r ↦ r.after 1
        else if delimiters.contains c then .ok ⟨none, 0⟩
        else .ok ⟨some (.text (String.singleton c)), 1⟩
      | .word name => (wordTerm context (Role.ofWord inPhrase name) rest).map fun r ↦ r.after 1
termination_by 6 * ts.length

/-- Reads what follows a word, by the part that the word plays. -/
def wordTerm (context : List Rule) (role : Role) (ts : List Token) :
    Except ParseError (Taken (Option Node)) :=
  match role with
  | .manual => .ok ⟨some .manual, 0⟩
  | .openFile => .ok ⟨some .openFile, 0⟩
  | .branch kind => branch (.condition :: context) kind ts
  | .declaration constant => declaration (.declaration :: context) constant ts
  | .assignment => assignment (.assignment :: context) ts
  | .loop => loop (.loop :: context) ts
  | .cut =>
    match quoted? ts with
    | some target => .ok ⟨some (.cut (some target)), 1⟩
    | none => .ok ⟨some (.cut none), 0⟩
  | .banish =>
    match quoted? ts with
    | some target => .ok ⟨some (.banish target), 1⟩
    | none => refuse .banishTargetNotQuoted (.banish :: context) ts
  | .call name => do
    let params ← parameters (.call :: context) ts
    return ⟨some (.call name params.value), params.count⟩
  | .cast name status => .ok ⟨some (.cast (.identifier name) status), 0⟩
  | .identifier name => .ok ⟨some (.identifier name), 0⟩
termination_by 6 * ts.length + 5

/-- Reads the inside of a group and its closing bracket, if it is there: a term, or two of
them around an operator. -/
def group (context : List Rule) (ts : List Token) :
    Except ParseError (Taken (Option Node)) := do
  let left ← term context false ts
  let rest := ts.drop left.count
  match Junction.ofTokens? rest with
  | some junction =>
    let right ← term context false (rest.drop 1)
    let node := junction.join (left.value.getD .undefined) (right.value.getD .undefined)
    let closing := leading (·.isSymbol ')') (rest.drop (1 + right.count))
    return ⟨some node, left.count + (1 + right.count) + closing⟩
  | none => return ⟨left.value, left.count + leading (·.isSymbol ')') rest⟩
termination_by 6 * ts.length + 4

def bounds (context : List Rule) (ts : List Token) :
    Except ParseError (Taken (Option Node)) := do
  let low ← term context false ts
  let high ← term context false (ts.drop low.count)
  return ⟨some (.random (low.value.getD .undefined) (high.value.getD .undefined)),
    low.count + high.count⟩
termination_by 6 * ts.length + 4

/-- Reads a condition, its body and the chain of conditions that may follow. -/
def branch (context : List Rule) (kind : BranchKind) (ts : List Token) :
    Except ParseError (Taken (Option Node)) := do
  let test ← condition context ts
  let opening := leading (·.isSymbol '\x7b') (ts.drop test.count)
  let bodyStart := test.count + opening
  let body ← statements (.block :: context) true (ts.drop bodyStart)
  let bodyEnd := bodyStart + body.count
  let next ← alternate context (ts.drop bodyEnd)
  return ⟨some (.branch kind test.value body.value next.value), bodyEnd + next.count⟩
termination_by 6 * ts.length + 4

/-- Reads a term, or two of them that are compared. -/
def condition (context : List Rule) (ts : List Token) :
    Except ParseError (Taken Node) := do
  let left ← term context false ts
  let rest := ts.drop left.count
  let subject := left.value.getD .undefined
  if leading Token.isEquality rest = 0 then return ⟨subject, left.count⟩
  else
    let right ← term context false (rest.drop 1)
    return ⟨.comparison subject (right.value.getD .undefined), left.count + (1 + right.count)⟩
termination_by 6 * ts.length + 3

/-- Reads the next condition of a chain, or the body that is left when all have failed. -/
def alternate (context : List Rule) (ts : List Token) :
    Except ParseError (Taken (Option Node)) :=
  match ts with
  | [] => .ok ⟨none, 0⟩
  | t :: rest =>
    if t.isWord "elseif" then term context false (t :: rest)
    else if t.isWord "else" && leading (·.isSymbol '\x7b') rest = 1 then do
      let body ← statements (.block :: context) true (rest.drop 1)
      let otherwise := Node.branch .continuing (.literal (.boolean true)) body.value none
      return ⟨some otherwise, 2 + body.count⟩
    else .ok ⟨none, 0⟩
termination_by 6 * ts.length + 3

/-- Reads statements up to the end of the input or, in a block, through the next closing
brace. A token that starts no statement is passed over. -/
def statements (context : List Rule) (inBlock : Bool) (ts : List Token) :
    Except ParseError (Taken (List Node)) :=
  match ts with
  | [] => .ok ⟨[], 0⟩
  | t :: rest =>
    if inBlock && t.isSymbol '\x7d' then .ok ⟨[], 1⟩
    else do
      let first ← term context false (t :: rest)
      let more ← statements context inBlock (rest.drop (first.count - 1))
      return ⟨first.value.toList ++ more.value, 1 + (first.count - 1) + more.count⟩
termination_by 6 * ts.length + 3

/-- Reads a quoted name and the value that is bound to it. A constant may be introduced by
two words. -/
def declaration (context : List Rule) (constant : Bool) (ts : List Token) :
    Except ParseError (Taken (Option Node)) := do
  let start := if constant then leading (·.isWord "this") ts else 0
  match quoted? (ts.drop start) with
  | none => refuse .variableNotQuoted context (ts.drop start)
  | some name =>
    let value ← definition context (ts.drop (start + 1))
    return ⟨some (.declaration name value.value constant), start + 1 + value.count⟩
termination_by 6 * ts.length + 4

def assignment (context : List Rule) (ts : List Token) :
    Except ParseError (Taken (Option Node)) := do
  match quoted? ts with
  | none => refuse .variableNotQuoted context ts
  | some name =>
    let value ← definition context (ts.drop 1)
    return ⟨some (.assignment name value.value), 1 + value.count⟩
termination_by 6 * ts.length + 4

/-- Reads the value of a name, which an equality may introduce. A value left out is the
empty text. -/
def definition (context : List Rule) (ts : List Token) :
    Except ParseError (Taken Node) := do
  let start := leading Token.isEquality ts
  let value ← phrase (.phrase :: context) (ts.drop start)
  return ⟨value.value.getD (.text ""), start + value.count⟩
termination_by 6 * ts.length + 3

/-- Reads the count of a loop, if there is one, and its body. -/
def loop (context : List Rule) (ts : List Token) :
    Except ParseError (Taken (Option Node)) := do
  let times ← loopCount context ts
  let rest := ts.drop times.count
  if leading (·.isSymbol '\x7b') rest = 0 then refuse .missingLoopBody context rest
  else
    let body ← statements (.block :: context) true (rest.drop 1)
    return ⟨some (.loop times.value body.value), times.count + (1 + body.count)⟩
termination_by 6 * ts.length + 4

def loopCount (context : List Rule) (ts : List Token) :
    Except ParseError (Taken (Option Node)) := do
  if leading (·.isSymbol '[') ts = 0 then return ⟨none, 0⟩
  else
    let times ← term context false (ts.drop 1)
    let closing := leading (·.isSymbol ']') (ts.drop (1 + times.count))
    return ⟨times.value, 1 + times.count + closing⟩
termination_by 6 * ts.length + 3

/-- Reads the parameters of a command. Commas between them may be left out. -/
def parameters (context : List Rule) (ts : List Token) :
    Except ParseError (Taken (List Node)) :=
  match ts with
  | [] => .ok ⟨[], 0⟩
  | t :: rest =>
    if t.endsParameters then .ok ⟨[], 0⟩
    else if t.isSymbol ',' then (parameters context rest).map fun r ↦ r.after 1
    else do
      let first ← phrase (.phrase :: context) (t :: rest)
      let more ← parameters context (rest.drop (first.count - 1))
      return ⟨first.value.toList ++ more.value, 1 + (first.count - 1) + more.count⟩
termination_by 6 * ts.length + 3

def phrase (context : List Rule) (ts : List Token) :
    Except ParseError (Taken (Option Node)) := do
  let first ← term context true ts
  match first.value with
  | none => return ⟨none, first.count⟩
  | some node =>
    if node.standsAlone then return ⟨some node, first.count⟩
    else
      let more ← phraseParts context (ts.drop first.count)
      return ⟨some (joinParts node more.value), first.count + more.count⟩
termination_by 6 * ts.length + 2

def phraseParts (context : List Rule) (ts : List Token) :
    Except ParseError (Taken (List Node)) :=
  match ts with
  | [] => .ok ⟨[], 0⟩
  | t :: rest =>
    if t.endsPhrase then .ok ⟨[], 0⟩
    else do
      let part ← term context true (t :: rest)
      match part.value with
      | none => return ⟨[], part.count⟩
      | some node =>
        let more ← phraseParts context (rest.drop (part.count - 1))
        return ⟨node :: more.value, 1 + (part.count - 1) + more.count⟩
termination_by 6 * ts.length + 1

end

end Parser

def Program.ofTokens (ts : List Token) : Except ParseError Program :=
  (Parser.statements [.program] false ts).map Taken.value

end VexLang
