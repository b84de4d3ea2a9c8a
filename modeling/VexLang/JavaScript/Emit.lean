import VexLang.JavaScript.Code
import VexLang.JavaScript.Prelude
import VexLang.Node.Text

/-!
# Compiling programs to JavaScript

Every node becomes a statement or an expression. A statement that is needed as
an expression is wrapped in a closure if it has a body, and is otherwise left out
with a remark. Where a number literal is stored or printed it becomes its text;
in arithmetic, comparisons and casts it stays a number.
-/

namespace VexLang

namespace JavaScript

/-- How a number literal is written. -/
inductive NumberForm where
  | quoted
  | bare
  deriving DecidableEq, Repr

/-- What a node is compiled to. -/
inductive Piece where
  | expression (e : Expr)
  | statement (s : Stmt)

namespace Piece

/-- The piece where a statement is needed. -/
def toStmt : Piece → Stmt
  | expression e => .expression e
  | statement s => s

end Piece

def hasBody : Node → Bool
  | .loop .. => true
  | .branch .. => true
  | _ => false

/-- The piece of a node where an expression is needed. -/
def Piece.toExpr (node : Node) : Piece → Expr
  | expression e => e
  | statement s => if hasBody node then .closure s else .missing node.render

def literalExpr (form : NumberForm) : Value → Expr
  | .number n =>
    match form with
    | .quoted => .string (numberText n)
    | .bare => .number n
  | .text s => .string s
  | .boolean b => .boolean b
  | .null => .null
  | .undefined => .undefined

/-- The expression that reads a variable, given the node that names it and, for a node that
has to be evaluated first, its expression. -/
def variableExpr (node : Node) (e : Expr) : Expr :=
  match node with
  | .identifier name => .variable name
  | .literal (.text name) => .variable name
  | .literal (.number n) => .number n
  | _ => .lookup e

/-- The line in place of a node that has no meaning in compiled code. -/
def unsupported (node : Node) : Stmt :=
  .remark ("Unsupported in compiled output: " ++ node.render)

mutual

def emit (form : NumberForm) : Node → Piece
  | .literal value => .expression (literalExpr form value)
  | .identifier name => .expression (.variable name)
  | .cast operand status =>
    let e := (emit .bare operand).toExpr operand
    if status = .var then .expression (variableExpr operand e)
    else .expression (.helper .cast [e, .string status.word])
  | .phrase parts => .expression (.join (emitExprs form parts))
  | .comparison left right =>
    .expression (.strictEq ((emit .bare left).toExpr left) ((emit .bare right).toExpr right))
  | .arithmetic left op right =>
    let l := (emit .bare left).toExpr left
    let r := (emit .bare right).toExpr right
    if op = .plus then .expression (.helper .add [l, r]) else .expression (.arithmetic l op r)
  | .random low high =>
    .expression (.helper .random [(emit .bare low).toExpr low, (emit .bare high).toExpr high])
  | .declaration name value constant =>
    .statement (.declare constant name ((emit .quoted value).toExpr value))
  | .assignment name value => .statement (.assign name ((emit .quoted value).toExpr value))
  | .call name params =>
    let es := emitExprs .quoted params
    .statement (if name = "debug" then .log es else .discard name es)
  | .loop none body => .statement (.forever (emitBody body))
  | .loop (some times) body =>
    .statement (.count ((emit .bare times).toExpr times) (emitBody body))
  | .branch _ condition body alternate =>
    .statement (.conditional ((emit .bare condition).toExpr condition) (emitBody body)
      (emitAlternate alternate))
  | .cut none => .statement (.remark "cut! ignored in compiled")
  | .cut (some target) =>
    .statement (.remark ("cut! '" ++ commentText target ++ "' ignored in compiled"))
  | .banish target => .statement (.assign target .undefined)
  | .bussin => .statement .exit
  | .manual => .statement (unsupported .manual)
  | .openFile => .statement (unsupported .openFile)

def emitExprs (form : NumberForm) : List Node → List Expr
  | [] => []
  | node :: nodes => (emit form node).toExpr node :: emitExprs form nodes

def emitBody : List Node → List Stmt
  | [] => []
  | node :: nodes => (emit .quoted node).toStmt :: emitBody nodes

def emitAlternate : Option Node → Option Stmt
  | none => none
  | some node => some (emit .quoted node).toStmt

end

end JavaScript

/-- The code of a program, without the prelude. -/
def Program.userCode (program : Program) : String :=
  String.intercalate "\n" (JavaScript.renderStmts (JavaScript.emitBody program)) ++ "\n"

def Program.compile (program : Program) : String :=
  JavaScript.prelude ++ program.userCode

end VexLang
