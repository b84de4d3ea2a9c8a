import VexLang.JavaScript.Emit
import VexLang.Proofs.Compile.Portable
import VexLang.Proofs.JavaScript.Meaning
import VexLang.Proofs.Number.RoundTrip

/-!
# Compiled terms

The expression that a portable term is compiled to has the value of the term. Where
it is stored or printed, a number literal has its text for a value instead, and that is
what the interpreter keeps, too.
-/

namespace VexLang

open JavaScript

/-- The value of a node that is compiled in the given form. -/
def JavaScript.NumberForm.shape (form : NumberForm) (node : Node) (v : Value) : Value :=
  match form with
  | .quoted => storedValue node v
  | .bare => v

/-- The variables in scope are in the machine as they are in the environment. -/
def Holds (scope : Scope) (env : Environment) (m : Machine) : Prop :=
  ∀ ⦃name c⦄, (name, c) ∈ scope →
    ∃ v, env.find? name = some ⟨v, c⟩ ∧ m.vars name = some ⟨c, some v⟩

theorem shape_of_not_literal (form : NumberForm) {node : Node} (h : node.isNumberLiteral = false)
    (v : Value) : form.shape node v = v := by
  cases form with
  | quoted => simp [NumberForm.shape, storedValue, h]
  | bare => rfl

theorem read_variable {scope : Scope} {env : Environment} {m : Machine}
    (hholds : Holds scope env m) {name : String} {c : Bool} (hname : (name, c) ∈ scope) :
    Action.read name m = .ok (env.get name) m := by
  obtain ⟨v, hfind, hvars⟩ := hholds hname
  rw [Action.read, hvars, Environment.get, hfind]
  rfl

theorem Status.word_ne {status : Status} (hword : Status.ofWord status.word = status)
    {word : String} (h : status ≠ Status.ofWord word) : status.word ≠ word := by
  rintro rfl
  exact h hword.symm

/-- The helper casts a literal to the status that its text names. -/
theorem castValue_word {v : Value} (hv : IsLiteral v) {status : Status}
    (hword : Status.ofWord status.word = status) (hvar : status ≠ .var) :
    castValue v (.text status.word) = v.cast status := by
  cases status with
  | num =>
      cases v with
      | number n =>
          have hround := leadingNumber_numberText hv.2 fun _ ↦ hv.1
          simp [castValue, Status.word, Value.cast, Value.toLeadingNumber, Value.toText, hround]
      | _ => rfl
  | str => rfl
  | bool =>
      cases v with
      | boolean b => cases b <;> rfl
      | number n => simp [castValue, Status.word, Value.cast, Value.toBool, Value.strictEq]
      | text s => simp [castValue, Status.word, Value.cast, Value.toBool, Value.strictEq]
      | null => rfl
      | undefined => rfl
  | null => rfl
  | undefined => rfl
  | var => exact absurd rfl hvar
  | other word =>
      have hne : ∀ w, Status.other word ≠ Status.ofWord w → word ≠ w :=
        fun w h ↦ Status.word_ne hword h
      simp [castValue, Status.word, Value.cast, hne "num" (by simp [Status.ofWord]),
        hne "str" (by simp [Status.ofWord]), hne "bool" (by simp [Status.ofWord]),
        hne "null" (by simp [Status.ofWord]), hne "undefined" (by simp [Status.ofWord])]

theorem addValues_eq_sum (v w : Value) : addValues v w = Operator.sum v w := by
  cases v <;> cases w <;> rfl

theorem operate_eq_apply {op : Operator} (h : op ≠ .plus) (v w : Value) :
    operate op v w = op.apply v w := by
  cases op with
  | plus => exact absurd rfl h
  | minus => rfl
  | times => rfl
  | divide => rfl

variable {engine : Engine} {fuel : Nat} {scope : Scope} {env : Environment} {m : Machine}

theorem eval_literal (form : NumberForm) {v : Value} (hv : IsLiteral v) :
    (literalExpr form v).eval engine fuel m = .ok (form.shape (.literal v) v) m := by
  cases v with
  | number n =>
      cases form with
      | quoted => rfl
      | bare =>
          have hround := leadingNumber_numberText hv.2 fun _ ↦ hv.1
          simp only [literalExpr, Expr.eval, hround, NumberForm.shape]
          rfl
  | _ => cases form <;> rfl

/-- Both arguments are evaluated, from left to right, before the helper is called. -/
theorem eval_helper {h : Helper} {left right : Expr} {v w : Value}
    (hleft : left.eval engine fuel m = .ok v m) (hright : right.eval engine fuel m = .ok w m) :
    (Expr.helper h [left, right]).eval engine fuel m = h.call engine [v, w] m := by
  have hargs : evalAll engine fuel [left, right] m = .ok [v, w] m := by
    have hlast : evalAll engine fuel [right] m = .ok [w] m := by
      rw [evalAll, bind_of_ok hright]
      rfl
    rw [evalAll, bind_of_ok hleft, bind_of_ok hlast]
    rfl
  rw [Expr.eval, bind_of_ok hargs]

theorem PortableTerm.eval_code {node : Node} (h : PortableTerm scope node)
    (hholds : Holds scope env m) (form : NumberForm) :
    ((emit form node).toExpr node).eval engine fuel m =
      .ok (form.shape node (node.value env)) m := by
  induction h generalizing form with
  | literal hv => exact eval_literal form hv
  | @cast v status hv hvar hword =>
      have hliteral : (literalExpr .bare v).eval engine fuel m = .ok v m := eval_literal .bare hv
      have hstatus : (Expr.string status.word).eval engine fuel m = .ok (.text status.word) m := rfl
      rw [shape_of_not_literal form rfl, emit, if_neg hvar, Node.value, if_neg hvar,
        ← castValue_word hv hword hvar]
      exact eval_helper hliteral hstatus
  | word hname =>
      rw [shape_of_not_literal form rfl]
      exact read_variable hholds hname
  | quoted hname =>
      rw [shape_of_not_literal form rfl]
      exact read_variable hholds hname
  | @comparison left right hleft hright ihleft ihright =>
      rw [shape_of_not_literal form rfl, emit, Piece.toExpr, Expr.eval, bind_of_ok (ihleft .bare),
        bind_of_ok (ihright .bare)]
      rfl
  | @arithmetic left right op hleft hright ihleft ihright =>
      rw [shape_of_not_literal form rfl, emit, Node.value]
      by_cases hplus : op = .plus
      · subst hplus
        rw [if_pos rfl, Piece.toExpr, Operator.apply, ← addValues_eq_sum]
        exact eval_helper (ihleft .bare) (ihright .bare)
      · rw [if_neg hplus, Piece.toExpr, Expr.eval, bind_of_ok (ihleft .bare),
          bind_of_ok (ihright .bare), ← operate_eq_apply hplus]
        rfl

theorem evalAll_parts {parts : List Node} (h : ∀ part ∈ parts, PortableTerm scope part)
    (hholds : Holds scope env m) :
    evalAll engine fuel (emitExprs .quoted parts) m = .ok (parts.map (Node.kept env)) m := by
  induction parts with
  | nil => rfl
  | cons part parts ih =>
      rw [emitExprs, evalAll, bind_of_ok ((h part (by simp)).eval_code hholds .quoted),
        bind_of_ok (ih fun p hp ↦ h p (List.mem_cons_of_mem _ hp))]
      rfl

theorem elementText_kept (env : Environment) (node : Node) :
    elementText (node.kept env) = (node.value env).phraseText := by
  cases hliteral : node.isNumberLiteral with
  | false =>
      have hkept : node.kept env = node.value env := by
        simp [Node.kept, storedValue, hliteral]
      rw [hkept]
      cases node.value env <;> rfl
  | true =>
      unfold Node.isNumberLiteral at hliteral
      split at hliteral
      · rfl
      · cases hliteral

/-- A number literal is kept as its text, which shows no sign either. -/
theorem printedText_kept {node : Node} (h : PortableValue scope node) (env : Environment) :
    printedText (node.kept env) = printedText (node.value env) := by
  cases hliteral : node.isNumberLiteral with
  | false => rw [Node.kept, storedValue, hliteral, if_neg Bool.false_ne_true]
  | true =>
      unfold Node.isNumberLiteral at hliteral
      split at hliteral
      · cases h with
        | term hnode =>
            cases hnode with
            | literal hv => simp [printedText, isNegativeZero, Node.kept, storedValue, Node.value,
                Node.isNumberLiteral, hv.1, Value.toText]
      · cases hliteral

theorem PortableValue.eval_code {node : Node} (h : PortableValue scope node)
    (hholds : Holds scope env m) :
    ((emit .quoted node).toExpr node).eval engine fuel m = .ok (node.kept env) m := by
  cases h with
  | term hnode => exact hnode.eval_code hholds .quoted
  | @phrase parts hparts =>
      have htexts : (parts.map (Node.kept env)).map elementText = partTexts env parts := by
        rw [partTexts_eq_map, List.map_map, List.map_map]
        exact List.map_congr_left fun part _ ↦ elementText_kept env part
      rw [emit, Piece.toExpr, Expr.eval, bind_of_ok (evalAll_parts hparts hholds), htexts]
      rfl

/-- What is in scope has a name that code can use. -/
def Usable (engine : Engine) (scope : Scope) : Prop :=
  ∀ ⦃name c⦄, (name, c) ∈ scope → engine.usable name = true

theorem Usable.inLoop (h : Usable engine scope) : Usable engine scope.inLoop :=
  fun _ _ hname ↦ h (Scope.mem_inLoop.mp hname).1

theorem PortableTerm.accepted {node : Node} (h : PortableTerm scope node)
    (husable : Usable engine scope) (form : NumberForm) :
    ((emit form node).toExpr node).accepted engine = true := by
  have hliteral : ∀ (form : NumberForm) (v : Value),
      (literalExpr form v).accepted engine = true := by
    intro form v
    cases v <;> cases form <;> rfl
  induction h generalizing form with
  | literal hv => exact hliteral form _
  | @cast v status hv hvar hword =>
      have hv := hliteral .bare v
      rw [emit, if_neg hvar]
      simp [Piece.toExpr, emit, Expr.accepted, acceptedExprs, hv]
  | word hname => exact husable hname
  | quoted hname => exact husable hname
  | comparison hleft hright ihleft ihright =>
      rw [emit, Piece.toExpr, Expr.accepted, ihleft, ihright]
      rfl
  | @arithmetic left right op hleft hright ihleft ihright =>
      rw [emit]
      by_cases hplus : op = .plus
      · rw [if_pos hplus, Piece.toExpr, Expr.accepted, acceptedExprs, acceptedExprs, ihleft, ihright]
        rfl
      · rw [if_neg hplus, Piece.toExpr, Expr.accepted, ihleft, ihright]
        rfl

theorem acceptedExprs_eq_true_iff (es : List Expr) :
    acceptedExprs engine es = true ↔ ∀ e ∈ es, e.accepted engine = true := by
  induction es with
  | nil => simp [acceptedExprs]
  | cons e es ih => simp [acceptedExprs, ih]

theorem emitExprs_eq_map (form : NumberForm) (nodes : List Node) :
    emitExprs form nodes = nodes.map fun node ↦ (emit form node).toExpr node := by
  induction nodes with
  | nil => rfl
  | cons node nodes ih => rw [emitExprs, ih, List.map_cons]

theorem PortableValue.accepted {node : Node} (h : PortableValue scope node)
    (husable : Usable engine scope) : ((emit .quoted node).toExpr node).accepted engine = true := by
  cases h with
  | term hnode => exact hnode.accepted husable .quoted
  | @phrase parts hparts =>
      rw [emit, Piece.toExpr, Expr.accepted, acceptedExprs_eq_true_iff, emitExprs_eq_map]
      intro e he
      obtain ⟨part, hpart, rfl⟩ := List.mem_map.mp he
      exact (hparts part hpart).accepted husable .quoted

end VexLang
