import VexLang.Proofs.Compile.Closed
import VexLang.Proofs.Compile.Terms
import VexLang.Proofs.JavaScript.Joins
import VexLang.Proofs.Node.Shape

/-!
# Numbers in compiled phrases

A phrase takes over the form of numbers from the place it stands in. It is the shape of the
programs that are read from tokens that keeps phrases away from the places where numbers stay
bare: in all compiled code, the numbers among the parts of a phrase are quoted.
-/

namespace VexLang

open JavaScript

mutual

/-- The parts of the phrases that come into the code of a node, from left to right. What stands
in a statement that is left out does not. -/
def Node.phrases (position : Position) : Node → List (List Node)
  | .cast operand _ => operand.phrases .value
  | .phrase parts => parts :: phrasesEach .value parts
  | .comparison left right => left.phrases .value ++ right.phrases .value
  | .arithmetic left _ right => left.phrases .value ++ right.phrases .value
  | .random low high => low.phrases .value ++ high.phrases .value
  | .declaration _ value _ => if position = .statement then value.phrases .value else []
  | .assignment _ value => if position = .statement then value.phrases .value else []
  | .call _ params => if position = .statement then phrasesEach .value params else []
  | .loop times body => phrasesOption .value times ++ phrasesEach .statement body
  | .branch _ condition body alternate =>
    condition.phrases .value ++ (phrasesEach .statement body ++ phrasesOption .statement alternate)
  | .literal _ | .identifier _ | .cut _ | .banish _ | .bussin | .manual | .openFile => []

def phrasesEach (position : Position) : List Node → List (List Node)
  | [] => []
  | node :: nodes => node.phrases position ++ phrasesEach position nodes

def phrasesOption (position : Position) : Option Node → List (List Node)
  | none => []
  | some node => node.phrases position

end

/-- The parts of the phrases that come into the code of a program. -/
def Program.phrases (program : Program) : List (List Node) :=
  phrasesEach .statement program

namespace JavaScript

/-- The lists that are joined in the code of a node where it stands. -/
def Piece.joins (node : Node) (piece : Piece) : Position → List (List Expr)
  | .statement => piece.toStmt.joins
  | .value => (piece.toExpr node).joins

/-- Every phrase of these nodes becomes a join with its numbers quoted. -/
abbrev quotedJoins (phrases : List (List Node)) : List (List Expr) :=
  phrases.map (emitExprs .quoted)

namespace Piece

variable {node : Node}

theorem joins_expression (e : Expr) (position : Position) :
    (expression e).joins node position = e.joins := by
  cases position <;> rfl

theorem joins_withBody (s : Stmt) (hbody : hasBody node = true) (position : Position) :
    (statement s).joins node position = s.joins := by
  cases position with
  | statement => rfl
  | value =>
      rw [joins, toExpr, if_pos hbody]
      rfl

theorem joins_withoutBody (s : Stmt) (hbody : hasBody node = false) (position : Position) :
    (statement s).joins node position = if position = .statement then s.joins else [] := by
  cases position with
  | statement => rfl
  | value =>
      rw [joins, toExpr, hbody]
      rfl

end Piece

theorem joins_literalExpr (form : NumberForm) (v : Value) : (literalExpr form v).joins = [] := by
  cases v with
  | number => cases form <;> rfl
  | text | boolean | null | undefined => rfl

/-- A simple operand of a cast is compiled without a join. -/
theorem joins_operand {operand : Node} (h : operand.isCastable = true) :
    operand.phrases .value = [] ∧ ((emit .bare operand).toExpr operand).joins = [] ∧
      (variableExpr operand ((emit .bare operand).toExpr operand)).joins = [] := by
  cases operand with
  | identifier name => exact ⟨rfl, rfl, rfl⟩
  | literal v => cases v <;> exact ⟨rfl, rfl, rfl⟩
  | _ => cases h

/-- Where a node stands decides on the form of its numbers: they are quoted, or it is no
phrase. -/
def FitsForm (form : NumberForm) (nodes : List Node) : Prop :=
  form = .quoted ∨ ∀ node ∈ nodes, node.isPhrase = false

theorem fitsForm_quoted (nodes : List Node) : FitsForm .quoted nodes :=
  .inl rfl

theorem fitsForm_bare {node : Node} (h : node.isPhrase = false) : FitsForm .bare [node] :=
  .inr (List.forall_mem_singleton.mpr h)

theorem FitsForm.mono {form : NumberForm} {nodes nodes' : List Node} (h : FitsForm form nodes)
    (hsub : nodes' ⊆ nodes) : FitsForm form nodes' :=
  h.imp_right fun hno node hnode ↦ hno node (hsub hnode)

theorem joins_pair (helper : Helper) (left right : Expr) :
    (Expr.helper helper [left, right]).joins = left.joins ++ right.joins := by
  simp only [Expr.joins, joinsOf, List.append_nil]

/-- The operands of a term contribute their joins one after the other. -/
theorem joins_operands {left right : Node}
    (hleft : (emit .bare left).joins left .value = quotedJoins (left.phrases .value))
    (hright : (emit .bare right).joins right .value = quotedJoins (right.phrases .value)) :
    ((emit .bare left).toExpr left).joins ++ ((emit .bare right).toExpr right).joins =
      quotedJoins (left.phrases .value ++ right.phrases .value) := by
  rw [quotedJoins, List.map_append]
  exact congrArg₂ _ hleft hright

mutual

theorem joins_emit (form : NumberForm) (position : Position) :
    ∀ node : Node, FitsForm form [node] → (∀ n ∈ node :: node.inner, n.WellShaped) →
      (emit form node).joins node position = quotedJoins (node.phrases position)
  | .literal v, _, _ => by
      rw [emit, Piece.joins_expression, joins_literalExpr]
      rfl
  | .identifier name, _, _ => by
      rw [emit, Piece.joins_expression]
      rfl
  | .cast operand status, _, h => by
      obtain ⟨hnone, hjoins, hvariable⟩ := joins_operand (List.forall_mem_cons.mp h).1
      have hempty : (Node.cast operand status).phrases position = [] := hnone
      rw [hempty, emit]
      split
      · rw [Piece.joins_expression, hvariable]
        rfl
      · rw [Piece.joins_expression, Expr.joins, joinsOf, hjoins]
        rfl
  | .phrase parts, hform, h => by
      obtain rfl : form = .quoted := hform.resolve_right fun hno ↦
        Bool.noConfusion (hno _ List.mem_cons_self)
      have hparts := joins_values .quoted parts (fitsForm_quoted parts)
        (List.forall_mem_cons.mp h).2
      rw [emit, Piece.joins_expression, Expr.joins, hparts]
      rfl
  | .comparison left right, _, h => by
      obtain ⟨⟨hl, hr⟩, hinner⟩ := List.forall_mem_cons.mp h
      obtain ⟨hleft, hright⟩ := List.forall_mem_append.mp hinner
      rw [emit, Piece.joins_expression, Expr.joins]
      exact joins_operands (joins_emit .bare .value left (fitsForm_bare hl) hleft)
        (joins_emit .bare .value right (fitsForm_bare hr) hright)
  | .arithmetic left op right, _, h => by
      obtain ⟨⟨hl, hr⟩, hinner⟩ := List.forall_mem_cons.mp h
      obtain ⟨hleft, hright⟩ := List.forall_mem_append.mp hinner
      have hjoins := joins_operands (joins_emit .bare .value left (fitsForm_bare hl) hleft)
        (joins_emit .bare .value right (fitsForm_bare hr) hright)
      rw [emit]
      split
      · rw [Piece.joins_expression, joins_pair]
        exact hjoins
      · rw [Piece.joins_expression, Expr.joins]
        exact hjoins
  | .random low high, _, h => by
      obtain ⟨⟨hl, hh⟩, hinner⟩ := List.forall_mem_cons.mp h
      obtain ⟨hlow, hhigh⟩ := List.forall_mem_append.mp hinner
      rw [emit, Piece.joins_expression, joins_pair]
      exact joins_operands (joins_emit .bare .value low (fitsForm_bare hl) hlow)
        (joins_emit .bare .value high (fitsForm_bare hh) hhigh)
  | .declaration name value constant, _, h => by
      have hvalue : ((emit .quoted value).toExpr value).joins = quotedJoins (value.phrases .value) :=
        joins_emit .quoted .value value (fitsForm_quoted _) (List.forall_mem_cons.mp h).2
      rw [emit, Piece.joins_withoutBody _ rfl, Stmt.joins, hvalue, Node.phrases]
      split <;> rfl
  | .assignment name value, _, h => by
      have hvalue : ((emit .quoted value).toExpr value).joins = quotedJoins (value.phrases .value) :=
        joins_emit .quoted .value value (fitsForm_quoted _) (List.forall_mem_cons.mp h).2
      rw [emit, Piece.joins_withoutBody _ rfl, Stmt.joins, hvalue, Node.phrases]
      split <;> rfl
  | .call name params, _, h => by
      have hparams := joins_values .quoted params (fitsForm_quoted _) (List.forall_mem_cons.mp h).2
      rw [emit, Piece.joins_withoutBody _ rfl, Node.phrases]
      split
      · split
        · exact hparams
        · exact hparams
      · rfl
  | .loop none body, _, h => by
      have hbody := joins_statements body (List.forall_mem_cons.mp h).2
      rw [emit, Piece.joins_withBody _ rfl, Stmt.joins, hbody]
      rfl
  | .loop (some times) body, _, h => by
      obtain ⟨⟨hterm, -⟩, hinner⟩ := List.forall_mem_cons.mp h
      obtain ⟨htimes, hbody⟩ := List.forall_mem_append.mp hinner
      have hjoins : ((emit .bare times).toExpr times).joins = quotedJoins (times.phrases .value) :=
        joins_emit .bare .value times (fitsForm_bare (hterm times rfl)) htimes
      rw [emit, Piece.joins_withBody _ rfl, Stmt.joins, hjoins, joins_statements body hbody,
        ← List.map_append]
      rfl
  | .branch _ condition body alternate, _, h => by
      obtain ⟨⟨hterm, -, -⟩, hinner⟩ := List.forall_mem_cons.mp h
      obtain ⟨hcondition, hrest⟩ := List.forall_mem_append.mp hinner
      obtain ⟨hbody, halternate⟩ := List.forall_mem_append.mp hrest
      have hjoins : ((emit .bare condition).toExpr condition).joins =
          quotedJoins (condition.phrases .value) :=
        joins_emit .bare .value condition (fitsForm_bare hterm) hcondition
      rw [emit, Piece.joins_withBody _ rfl, Stmt.joins, hjoins, joins_statements body hbody,
        joins_alternate alternate halternate, ← List.map_append, ← List.map_append]
      rfl
  | .cut none, _, _ | .cut (some _), _, _ | .banish _, _, _ | .bussin, _, _ | .manual, _, _
  | .openFile, _, _ => by
      rw [emit, Piece.joins_withoutBody _ rfl]
      split <;> rfl

theorem joins_values (form : NumberForm) :
    ∀ nodes : List Node, FitsForm form nodes → (∀ n ∈ nodesOf nodes, n.WellShaped) →
      joinsOf (emitExprs form nodes) = quotedJoins (phrasesEach .value nodes)
  | [], _, _ => rfl
  | node :: nodes, hform, h => by
      obtain ⟨hnode, hnodes⟩ := List.forall_mem_append.mp h
      have hfirst : ((emit form node).toExpr node).joins = quotedJoins (node.phrases .value) :=
        joins_emit form .value node (hform.mono (by simp)) hnode
      rw [emitExprs, joinsOf, hfirst, joins_values form nodes (hform.mono (by simp)) hnodes,
        ← List.map_append]
      rfl

theorem joins_statements :
    ∀ nodes : List Node, (∀ n ∈ nodesOf nodes, n.WellShaped) →
      joinsOfAll (emitBody nodes) = quotedJoins (phrasesEach .statement nodes)
  | [], _ => rfl
  | node :: nodes, h => by
      obtain ⟨hnode, hnodes⟩ := List.forall_mem_append.mp h
      have hfirst : (emit .quoted node).toStmt.joins = quotedJoins (node.phrases .statement) :=
        joins_emit .quoted .statement node (fitsForm_quoted _) hnode
      rw [emitBody, joinsOfAll, hfirst, joins_statements nodes hnodes, ← List.map_append]
      rfl

theorem joins_alternate :
    ∀ alternate : Option Node, (∀ n ∈ optionNodes alternate, n.WellShaped) →
      joinsOfOption (emitAlternate alternate) = quotedJoins (phrasesOption .statement alternate)
  | none, _ => rfl
  | some node, h => joins_emit .quoted .statement node (fitsForm_quoted _) h

end

theorem renderExprs_number {form : NumberForm} {parts : List Node} {i : Nat} {n : Float}
    (h : parts[i]? = some (.literal (.number n))) :
    (renderExprs (emitExprs form parts))[i]? = some (literalExpr form (.number n)).render := by
  induction parts generalizing i with
  | nil => simp at h
  | cons node parts ih =>
      cases i with
      | zero =>
          obtain rfl := Option.some.inj h
          rfl
      | succ i => exact ih h

end JavaScript

/-- The lists that are joined in the code of a well-shaped program are those of its phrases, and
each of them stands in the text. -/
theorem contains_phrase {program : Program} (h : ∀ node ∈ nodesOf program, node.WellShaped) :
    joinsOfAll (emitBody program) = quotedJoins program.phrases ∧
      ∀ parts ∈ program.phrases,
        Contains program.userCode (Expr.join (emitExprs .quoted parts)).render := by
  have hjoins := joins_statements program h
  refine ⟨hjoins, fun parts hparts ↦ ?_⟩
  have hmem : emitExprs .quoted parts ∈ joinsOfAll (emitBody program) := by
    rw [hjoins]
    exact List.mem_map_of_mem hparts
  obtain ⟨text, htext, hcontains⟩ := contains_join_all _ hmem
  exact (hcontains.intercalate "\n" htext).followed "\n"

/-- In a program that was read from tokens, phrases are values of names or parameters, have at
least two parts, none of them a phrase, and begin with nothing that stands alone; operands of
casts are simple; and commands with a rule of their own are not called. For this reason every
phrase that comes into the compiled text comes there with its numbers quoted. -/
theorem ofTokens_shape {ts : List Token} {program : Program}
    (h : Program.ofTokens ts = .ok program) :
    (∀ node ∈ program, node.isPhrase = false) ∧
      (∀ node ∈ nodesOf program, node.WellShaped) ∧
      joinsOfAll (emitBody program) = program.phrases.map (emitExprs .quoted) ∧
      ∀ parts ∈ program.phrases, ∃ texts : List String,
        Contains program.userCode ("[" ++ String.intercalate ", " texts ++ "].join(\" \")") ∧
          texts.length = parts.length ∧
          ∀ (i : Nat) (n : Float), parts[i]? = some (Node.literal (.number n)) →
            texts[i]? = some (quote (numberText n)) := by
  have htidy := tidy_of_ofTokens h
  have hshape (node : Node) (hnode : node ∈ nodesOf program) := (htidy.sound node hnode).shape
  obtain ⟨hjoins, hcontains⟩ := contains_phrase hshape
  refine ⟨htidy.terms rfl, hshape, hjoins, fun parts hparts ↦ ?_⟩
  refine ⟨renderExprs (emitExprs .quoted parts), hcontains parts hparts, ?_, ?_⟩
  · rw [renderExprs_eq_map, emitExprs_eq_map, List.length_map, List.length_map]
  · exact fun i n hn ↦ renderExprs_number hn

/-- A loop that prints a phrase with a number. -/
def rounds : List Token :=
  [⟨.word "loop!", 1⟩, ⟨.symbol '\x7b', 1⟩, ⟨.word "debug!", 2⟩, ⟨.text "round", 2⟩,
    ⟨.number "3", 2⟩, ⟨.symbol '\x7d', 3⟩]

def roundsRead : Program :=
  [.loop none [.call printCommand [.phrase [.text "round", numberNode "3"]]]]

theorem ofTokens_rounds : Program.ofTokens rounds = .ok roundsRead := by
  have hloop : Role.ofWord false "loop!" = .loop := by decide
  have hprint : Role.ofWord false "debug!" = .call printCommand := by decide
  have hjoins : (Node.text "round").standsAlone = false := rfl
  have hnumber : Token.isWord ⟨.number "3", 2⟩ "is" = false := rfl
  have hphrase (context : List Rule) :
      Parser.phrase context [⟨.text "round", 2⟩, ⟨.number "3", 2⟩, ⟨.symbol '\x7d', 3⟩] =
        .ok ⟨some (.phrase [.text "round", numberNode "3"]), 2⟩ := by
    simp [Parser.phrase, Parser.term, cast?, hjoins, Parser.phraseParts, Token.endsPhrase,
      phraseEnds, hnumber, Token.isStop, joinParts, bind, Except.bind, pure, Except.pure]
  simp [Program.ofTokens, rounds, roundsRead, Parser.statements, Parser.term, cast?,
    Token.isSymbol, hloop, Parser.wordTerm, Parser.loop, Parser.loopCount, leading, hprint,
    Parser.parameters, hphrase, Token.endsParameters, parameterEnds, Token.isStop, Taken.after,
    bind, Except.bind, pure, Except.pure, Except.map]

theorem ofTokens_shape_rounds :
    Program.ofTokens rounds = .ok roundsRead ∧ ∃ texts : List String,
      Contains roundsRead.userCode ("[" ++ String.intercalate ", " texts ++ "].join(\" \")") ∧
        texts.length = 2 ∧ texts[1]? = some (quote (numberText (leadingNumber "3"))) := by
  obtain ⟨-, -, -, hphrases⟩ := ofTokens_shape ofTokens_rounds
  obtain ⟨texts, hcontains, hlength, hnumbers⟩ :=
    hphrases [.text "round", numberNode "3"] List.mem_cons_self
  exact ⟨ofTokens_rounds, texts, hcontains, hlength, hnumbers 1 _ rfl⟩

end VexLang
