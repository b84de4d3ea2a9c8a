import VexLang.Node
import VexLang.Run.World

/-!
# Evaluation

The meaning of a node: an effect that gives a value. Nodes that only act give
`undefined`. The recursion follows the tree; `fuel` bounds the iterations of
every single loop, and a loop that would need more ends the run with
`Stop.exhausted`, which no other part of a program can do.
-/

namespace VexLang

open Effect

/-- The value as a variable keeps it: a literal number is kept as its text. -/
def storedValue (node : Node) (v : Value) : Value :=
  if node.isNumberLiteral then .text v.toText else v

/-- The value of a bare word. All words but two are mistakes. -/
def wordValue (name : String) : Effect Value :=
  match name with
  | "null" => pure .null
  | "undefined" => pure .undefined
  | _ => fail (.unquoted name)

def variableValue (name : String) : Effect Value := do
  return (← get).env.get name

/-- A whole number between two bounds, both of which can occur. -/
def randomBetween (host : Host) (low high : Float) : Effect Value := do
  let unit ← draw host
  return .number (unit * (high - low + 1.0) + low).floor

/-- The name of the command that prints its parameters. -/
def printCommand : String := "debug"

/-- What is written before the host ends. -/
def farewell : String := "Bussin. Exiting..."

mutual

/-- The meaning of a node. -/
def eval (host : Host) (fuel : Nat) : Node → Effect Value
  | .literal value => pure value
  | .identifier name => wordValue name
  | .cast (.identifier name) .var => variableValue name
  | .cast operand status => do
    let v ← eval host fuel operand
    if status = .var then variableValue v.toText else return v.cast status
  | .phrase parts => do
    let vs ← evalEach host fuel parts
    return .text (String.intercalate " " (vs.map Value.phraseText))
  | .comparison left right => do
    let v ← eval host fuel left
    let w ← eval host fuel right
    return .boolean (v.strictEq w)
  | .arithmetic left op right => do
    let v ← eval host fuel left
    let w ← eval host fuel right
    return op.apply v w
  | .random low high => do
    let v ← eval host fuel low
    let w ← eval host fuel high
    randomBetween host v.toNumber w.toNumber
  | .declaration name value constant => do
    let v ← eval host fuel value
    modifyEnv fun env ↦ env.declare name (storedValue value v) constant
    return .undefined
  | .assignment name value => do
    ofExcept ((← get).env.checkAssignable name)
    let v ← eval host fuel value
    let env ← ofExcept ((← get).env.assign name (storedValue value v))
    modifyEnv fun _ ↦ env
    return .undefined
  | .call name params => do
    if name = printCommand then evalPrinted host fuel params else evalBody host fuel params
    return .undefined
  | .loop none body => do
    iterate (fun _ ↦ true) (evalBody host fuel body) fuel 0.0
    return .undefined
  | .loop (some times) body => do
    let limit := (← eval host fuel times).toNumber
    iterate (· < limit) (evalBody host fuel body) fuel 0.0
    return .undefined
  | .branch _ condition body alternate => do
    let v ← eval host fuel condition
    if v.isYup then evalBody host fuel body else evalAlternate host fuel alternate
    return .undefined
  | .cut none => do
    modifyEnv Environment.toggle
    writeLine host (.status (← get).env.autoStatus)
    return .undefined
  | .cut (some target) => do
    modifyEnv fun env ↦ env.unconst target
    return .undefined
  | .banish target => do
    modifyEnv fun env ↦ env.erase target
    return .undefined
  | .bussin => do
    writeLine host (.text farewell)
    throw .exit
  | .manual => do
    showManual
    return .undefined
  | .openFile => throw .openFile

def evalEach (host : Host) (fuel : Nat) : List Node → Effect (List Value)
  | [] => pure []
  | node :: nodes => do
    let v ← eval host fuel node
    let vs ← evalEach host fuel nodes
    return v :: vs

def evalBody (host : Host) (fuel : Nat) : List Node → Effect Unit
  | [] => pure ()
  | node :: nodes => do
    let _ ← eval host fuel node
    evalBody host fuel nodes

/-- Evaluates nodes and prints each value on a line of its own before the next node is
evaluated. -/
def evalPrinted (host : Host) (fuel : Nat) : List Node → Effect Unit
  | [] => pure ()
  | node :: nodes => do
    let v ← eval host fuel node
    writeLine host (.text v.toText)
    evalPrinted host fuel nodes

/-- Evaluates the next condition of a chain, if there is one. -/
def evalAlternate (host : Host) (fuel : Nat) : Option Node → Effect Unit
  | none => pure ()
  | some node => do
    let _ ← eval host fuel node
    return ()

end

end VexLang
