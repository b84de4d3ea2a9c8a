import VexLang.Number.Text
import VexLang.Text.Escape
import VexLang.Value

/-!
# Generated code

The part of JavaScript that programs are compiled to, as trees of expressions
and statements, and its text. User text comes into the code in four ways only:
quoted, inside a comment of either kind, and, for names, as it is.
-/

namespace VexLang

namespace JavaScript

/-- The helpers of the prelude that expressions call. -/
inductive Helper where
  | cast
  | add
  | random
  deriving DecidableEq, Repr

def Helper.name : Helper → String
  | cast => "cast"
  | add => "add"
  | random => "random"

mutual

inductive Expr where
  | number (n : Float)
  | string (s : String)
  | boolean (b : Bool)
  | null
  | undefined
  | variable (name : String)
  | strictEq (left right : Expr)
  | arithmetic (left : Expr) (op : Operator) (right : Expr)
  | helper (h : Helper) (args : List Expr)
  /-- The parts joined by blanks. -/
  | join (parts : List Expr)
  /-- The value of the variable that an expression names. -/
  | lookup (name : Expr)
  /-- A statement that is run where a value is expected. -/
  | closure (body : Stmt)
  /-- Stands for something that has no value; the remark says what it was. -/
  | missing (remark : String)

inductive Stmt where
  | declare (constant : Bool) (name : String) (value : Expr)
  | assign (name : String) (value : Expr)
  /-- Prints the values, each on a line of its own. -/
  | log (values : List Expr)
  /-- Evaluates the parameters of an unknown command and drops them. -/
  | discard (command : String) (params : List Expr)
  /-- Prints a farewell and ends. -/
  | exit
  | count (limit : Expr) (body : List Stmt)
  | forever (body : List Stmt)
  | conditional (test : Expr) (body : List Stmt) (otherwise : Option Stmt)
  /-- A line that does nothing. -/
  | remark (text : String)
  | expression (e : Expr)

end

def block (statements : List String) : String :=
  "\x7b\n" ++ String.intercalate "\n" statements ++ "\n\x7d"

mutual

def Expr.render : Expr → String
  | .number n => numberText n
  | .string s => quote s
  | .boolean true => "true"
  | .boolean false => "false"
  | .null => "null"
  | .undefined => "undefined"
  | .variable name => name
  | .strictEq left right => "(" ++ left.render ++ " === " ++ right.render ++ ")"
  | .arithmetic left op right =>
    "(" ++ left.render ++ " " ++ String.singleton op.symbol ++ " " ++ right.render ++ ")"
  | .helper h args =>
    "_vexHelper." ++ h.name ++ "(" ++ String.intercalate ", " (renderExprs args) ++ ")"
  | .join parts => "[" ++ String.intercalate ", " (renderExprs parts) ++ "].join(\" \")"
  | .lookup name => "eval(String(" ++ name.render ++ "))"
  | .closure body => "(() => \x7b " ++ body.render ++ " \x7d)()"
  | .missing remark => "/* Unknown: " ++ commentText remark ++ " */ undefined"

/-- The text of a statement, which may take several lines. -/
def Stmt.render : Stmt → String
  | .declare constant name value =>
    (if constant then "const " else "let ") ++ name ++ " = " ++ value.render ++ ";"
  | .assign name value => name ++ " = " ++ value.render ++ ";"
  | .log values =>
    String.intercalate "\n" ((renderExprs values).map fun v ↦ "console.log(" ++ v ++ ");")
  | .discard command params =>
    "/* " ++ commentText command ++ "! */ void ["
      ++ String.intercalate ", " (renderExprs params) ++ "];"
  | .exit => "console.log(\"Bussin. Exiting...\");\nprocess.exit(0);"
  | .count limit body =>
    "for (let i = 0; i < Number(" ++ limit.render ++ "); i++) " ++ block (renderStmts body)
  | .forever body => "while (true) " ++ block (renderStmts body)
  | .conditional test body otherwise =>
    "if (_vexHelper.isYup(" ++ test.render ++ ")) " ++ block (renderStmts body)
      ++ renderOtherwise otherwise
  | .remark text => "// " ++ text
  | .expression e => e.render ++ ";"

def renderExprs : List Expr → List String
  | [] => []
  | e :: es => e.render :: renderExprs es

def renderStmts : List Stmt → List String
  | [] => []
  | s :: ss => s.render :: renderStmts ss

/-- The text of what is run when a condition fails. -/
def renderOtherwise : Option Stmt → String
  | none => ""
  | some s => " else " ++ block [s.render]

end

theorem renderExprs_eq_map (es : List Expr) : renderExprs es = es.map Expr.render := by
  induction es with
  | nil => rfl
  | cons e es ih => simp [renderExprs, ih]

theorem renderStmts_eq_map (ss : List Stmt) : renderStmts ss = ss.map Stmt.render := by
  induction ss with
  | nil => rfl
  | cons s ss ih => simp [renderStmts, ih]

end JavaScript

end VexLang
