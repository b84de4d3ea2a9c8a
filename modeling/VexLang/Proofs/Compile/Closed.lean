import VexLang.JavaScript.Emit
import VexLang.Proofs.JavaScript.Scan

/-!
# Compiled code is lexically closed

No text of a program leaves the string or the comment it is put into, and the brackets of
the code are nested and closed. Only names come into the code as they are, so only they have
to be plain. Which names these are depends on where a node stands, because a statement without
a body is left out where a value is needed.
-/

namespace VexLang

open JavaScript

/-- What is made of a node: it is run, or its value is used. -/
inductive Position where
  | statement
  | value
  deriving DecidableEq, Repr

namespace Node

/-- A text that names a variable once it is cast to one. -/
def namedBy : Node → List String
  | literal (.text name) => [name]
  | _ => []

end Node

mutual

/-- The names that come into the code of a node as they are. -/
def Node.rawNames (position : Position) : Node → List String
  | .identifier name => [name]
  | .cast operand status =>
    (if status = .var then operand.namedBy else []) ++ operand.rawNames .value
  | .phrase parts => rawNamesEach .value parts
  | .comparison left right => left.rawNames .value ++ right.rawNames .value
  | .arithmetic left _ right => left.rawNames .value ++ right.rawNames .value
  | .random low high => low.rawNames .value ++ high.rawNames .value
  | .declaration name value _ =>
    if position = .statement then name :: value.rawNames .value else []
  | .assignment name value =>
    if position = .statement then name :: value.rawNames .value else []
  | .call _ params => if position = .statement then rawNamesEach .value params else []
  | .loop times body => rawNamesOption .value times ++ rawNamesEach .statement body
  | .branch _ condition body alternate =>
    condition.rawNames .value ++ rawNamesEach .statement body ++
      rawNamesOption .statement alternate
  | .banish target => if position = .statement then [target] else []
  | .literal _ | .cut _ | .bussin | .manual | .openFile => []

def rawNamesEach (position : Position) : List Node → List String
  | [] => []
  | node :: nodes => node.rawNames position ++ rawNamesEach position nodes

def rawNamesOption (position : Position) : Option Node → List String
  | none => []
  | some node => node.rawNames position

end

def Program.rawNames (program : Program) : List String :=
  rawNamesEach .statement program

namespace JavaScript

/-- The code of a node where it stands; a statement takes the line break that follows it. -/
def Piece.code (node : Node) (piece : Piece) : Position → String
  | .statement => piece.toStmt.render ++ "\n"
  | .value => (piece.toExpr node).render

namespace Piece

variable {node : Node} {e : Expr} {s : Stmt}

theorem closed_expression (he : Closed e.render) (position : Position) :
    Closed ((expression e).code node position) := by
  cases position with
  | statement => exact (Stmt.closed_expression he).newline
  | value => exact he

theorem closed_withBody (hbody : hasBody node = true) (hs : Closed s.render)
    (position : Position) : Closed ((statement s).code node position) := by
  cases position with
  | statement => exact hs.newline
  | value =>
      rw [code, toExpr, if_pos hbody]
      exact Expr.closed_closure hs

theorem closed_withoutBody (hbody : hasBody node = false) {position : Position}
    (hs : position = .statement → Closed (s.render ++ "\n")) :
    Closed ((statement s).code node position) := by
  cases position with
  | statement => exact hs rfl
  | value =>
      rw [code, toExpr, hbody]
      exact Expr.closed_missing node.render

end Piece

theorem closed_literal (form : NumberForm) (v : Value) : Closed (literalExpr form v).render := by
  cases v with
  | number n =>
      cases form with
      | quoted => exact closed_quote (numberText n)
      | bare => exact closed_numberText n
  | text s => exact closed_quote s
  | boolean b =>
      cases b with
      | false => exact closed_word "false" rfl
      | true => exact closed_word "true" rfl
  | null => exact closed_word "null" rfl
  | undefined => exact closed_word "undefined" rfl

/-- A variable that is read by its name, or by the text or the value that names it. -/
theorem closed_variable {node : Node} {e : Expr} (he : Closed e.render)
    (hnames : ∀ name ∈ node.namedBy ++ node.rawNames .value, Closed name) :
    Closed (variableExpr node e).render := by
  cases node with
  | identifier name => exact hnames name (by simp [Node.rawNames])
  | literal v =>
      cases v with
      | number n => exact closed_numberText n
      | text name => exact hnames name (by simp [Node.namedBy])
      | boolean _ | null | undefined => exact Expr.closed_lookup he
  | _ => exact Expr.closed_lookup he

theorem closed_pair {a b : Expr} (ha : Closed a.render) (hb : Closed b.render) :
    ∀ e ∈ [a, b], Closed e.render := by
  simpa using ⟨ha, hb⟩

theorem closed_remark {text : String} (h : ∀ c ∈ text.toList, isPrintable c = true) :
    Closed ((Stmt.remark text).render ++ "\n") :=
  closed_lineComment h

theorem closed_cut (target : String) :
    Closed ((Stmt.remark ("cut! '" ++ commentText target ++ "' ignored in compiled")).render
      ++ "\n") := by
  apply closed_remark
  simp only [String.toList_append, List.forall_mem_append]
  refine ⟨⟨?_, fun c hc ↦ isPrintable_of_mem_commentText hc⟩, ?_⟩ <;>
    exact List.all_eq_true.mp rfl

mutual

theorem closed_code (form : NumberForm) (position : Position) :
    ∀ node : Node, (∀ name ∈ node.rawNames position, Closed name) →
      Closed ((emit form node).code node position)
  | .literal v, _ => Piece.closed_expression (closed_literal form v) position
  | .identifier name, h => by
      apply Piece.closed_expression
      exact h name (by simp [Node.rawNames])
  | .cast operand status, h => by
      obtain ⟨hnamed, hoperand⟩ := List.forall_mem_append.mp h
      have he := closed_code .bare .value operand hoperand
      rw [emit]
      split
      case isTrue hvar =>
        apply Piece.closed_expression
        rw [if_pos hvar] at hnamed
        exact closed_variable he (List.forall_mem_append.mpr ⟨hnamed, hoperand⟩)
      case isFalse =>
        apply Piece.closed_expression
        exact Expr.closed_helper .cast (closed_pair he (closed_quote status.word))
  | .phrase parts, h => by
      apply Piece.closed_expression
      exact Expr.closed_join (closed_values form parts h)
  | .comparison left right, h => by
      obtain ⟨hleft, hright⟩ := List.forall_mem_append.mp h
      apply Piece.closed_expression
      exact Expr.closed_strictEq (closed_code .bare .value left hleft)
        (closed_code .bare .value right hright)
  | .arithmetic left op right, h => by
      obtain ⟨hleft, hright⟩ := List.forall_mem_append.mp h
      have hl := closed_code .bare .value left hleft
      have hr := closed_code .bare .value right hright
      rw [emit]
      split
      · apply Piece.closed_expression
        exact Expr.closed_helper .add (closed_pair hl hr)
      · apply Piece.closed_expression
        exact Expr.closed_arithmetic hl op hr
  | .random low high, h => by
      obtain ⟨hlow, hhigh⟩ := List.forall_mem_append.mp h
      apply Piece.closed_expression
      exact Expr.closed_helper .random (closed_pair (closed_code .bare .value low hlow)
        (closed_code .bare .value high hhigh))
  | .declaration name value constant, h => by
      apply Piece.closed_withoutBody rfl
      rintro rfl
      obtain ⟨hname, hvalue⟩ := List.forall_mem_cons.mp h
      exact (Stmt.closed_declare constant hname
        (closed_code .quoted .value value hvalue)).newline
  | .assignment name value, h => by
      apply Piece.closed_withoutBody rfl
      rintro rfl
      obtain ⟨hname, hvalue⟩ := List.forall_mem_cons.mp h
      exact (Stmt.closed_assign hname (closed_code .quoted .value value hvalue)).newline
  | .call name params, h => by
      apply Piece.closed_withoutBody rfl
      rintro rfl
      have hparams := closed_values .quoted params h
      split
      · exact (Stmt.closed_log hparams).newline
      · exact (Stmt.closed_discard name hparams).newline
  | .loop none body, h => by
      apply Piece.closed_withBody rfl
      exact Stmt.closed_forever (closed_statements body h)
  | .loop (some times) body, h => by
      obtain ⟨htimes, hbody⟩ := List.forall_mem_append.mp h
      apply Piece.closed_withBody rfl
      exact Stmt.closed_count (closed_code .bare .value times htimes)
        (closed_statements body hbody)
  | .branch _ condition body alternate, h => by
      obtain ⟨hfirst, halternate⟩ := List.forall_mem_append.mp h
      obtain ⟨hcondition, hbody⟩ := List.forall_mem_append.mp hfirst
      apply Piece.closed_withBody rfl
      exact Stmt.closed_conditional (closed_code .bare .value condition hcondition)
        (closed_statements body hbody) (closed_alternate alternate halternate)
  | .cut none, _ => Piece.closed_withoutBody rfl fun _ ↦ closed_remark (List.all_eq_true.mp rfl)
  | .cut (some target), _ => Piece.closed_withoutBody rfl fun _ ↦ closed_cut target
  | .banish target, h => by
      apply Piece.closed_withoutBody rfl
      rintro rfl
      exact (Stmt.closed_assign (h target (List.mem_singleton_self target))
        fun _ ↦ rfl).newline
  | .bussin, _ => Piece.closed_withoutBody rfl fun _ ↦ Stmt.closed_exit.newline
  | .manual, _ => Piece.closed_withoutBody rfl fun _ ↦ closed_remark (List.all_eq_true.mp rfl)
  | .openFile, _ => Piece.closed_withoutBody rfl fun _ ↦ closed_remark (List.all_eq_true.mp rfl)

theorem closed_values (form : NumberForm) :
    ∀ nodes : List Node, (∀ name ∈ rawNamesEach .value nodes, Closed name) →
      ∀ e ∈ emitExprs form nodes, Closed e.render
  | [], _ => List.forall_mem_nil _
  | node :: nodes, h => by
      obtain ⟨hnode, hnodes⟩ := List.forall_mem_append.mp h
      exact List.forall_mem_cons.mpr
        ⟨closed_code form .value node hnode, closed_values form nodes hnodes⟩

theorem closed_statements :
    ∀ nodes : List Node, (∀ name ∈ rawNamesEach .statement nodes, Closed name) →
      ∀ s ∈ emitBody nodes, Closed (s.render ++ "\n")
  | [], _ => List.forall_mem_nil _
  | node :: nodes, h => by
      obtain ⟨hnode, hnodes⟩ := List.forall_mem_append.mp h
      exact List.forall_mem_cons.mpr
        ⟨closed_code .quoted .statement node hnode, closed_statements nodes hnodes⟩

theorem closed_alternate :
    ∀ alternate : Option Node, (∀ name ∈ rawNamesOption .statement alternate, Closed name) →
      ∀ s ∈ emitAlternate alternate, Closed (s.render ++ "\n")
  | none, _ => by simp [emitAlternate]
  | some node, h => by
      intro s hs
      obtain rfl := Option.mem_some.mp hs
      exact closed_code .quoted .statement node h

end

end JavaScript

/-- Whatever texts, commands and targets a program holds, the scan of its code ends in code
with every bracket closed, if the names that come into the code as they are are plain. -/
theorem userCode_closed (program : Program)
    (h : ∀ name ∈ program.rawNames, ∀ c ∈ name.toList, isPlain c = true) :
    Scan.start.read program.userCode = some .start := by
  have hstatements : ∀ s ∈ emitBody program, Closed (s.render ++ "\n") :=
    closed_statements program fun name hname ↦ closed_plain (h name hname)
  have hlines : Closed (String.intercalate "\n" (renderStmts (emitBody program)) ++ "\n") := by
    rw [renderStmts_eq_map]
    apply Closed.lines
    exact List.forall_mem_map.mpr hstatements
  exact hlines []

/-- Texts that would end a string or a comment, and a name that is left out with its
statement. -/
def breakouts : Program :=
  [.declaration "x" (.phrase [.text "\"*/\\\n(", .assignment "it's */ [" (.text "'")]) true,
    .loop (some (.cast (.text "x") .var)) [.cut (some "a\n*/ \x7b")],
    .call "*/ [" [.branch .opening (.identifier "x") [.manual] none]]

theorem userCode_closed_breakouts :
    breakouts.rawNames = ["x", "x", "x"] ∧
      Scan.start.read breakouts.userCode = some .start := by
  have hnames : breakouts.rawNames = ["x", "x", "x"] := by decide
  refine ⟨hnames, userCode_closed breakouts ?_⟩
  rw [hnames]
  intro name hname
  obtain rfl : name = "x" := by simpa using hname
  exact List.all_eq_true.mp rfl

example : Scan.start.read (Program.userCode [.identifier "it's"]) = none := by
  rfl

end VexLang
