import VexLang.Proofs.Effect
import VexLang.Proofs.JavaScript.Machine

/-!
# The meaning of generated code

Expressions and statements as actions of a machine, in the order in which they are
evaluated. Conversions between texts and numbers are those of the library: numerals
are read by `leadingNumber` and `Value.toNumber`, and their text is that of `Value.toText`.
The console shows a value by `printedText`. Whatever code does, it only adds to the trace.
-/

namespace VexLang

namespace JavaScript

open JavaScript.Action

/-- The names that a block declares. -/
def declaredNames (statements : List Stmt) : List String :=
  statements.filterMap fun
    | .declare _ name _ => some name
    | _ => none

mutual

/-- Is the expression free of early errors? -/
def Expr.accepted (engine : Engine) : Expr → Bool
  | .variable name => engine.usable name
  | .strictEq left right => left.accepted engine && right.accepted engine
  | .arithmetic left _ right => left.accepted engine && right.accepted engine
  | .helper _ args => acceptedExprs engine args
  | .join parts => acceptedExprs engine parts
  | .lookup name => name.accepted engine
  | .closure body => body.accepted engine
  | .number _ | .string _ | .boolean _ | .null | .undefined | .missing _ => true

/-- Is the statement free of early errors? A block declares no name twice. -/
def Stmt.accepted (engine : Engine) : Stmt → Bool
  | .declare _ name value => engine.usable name && value.accepted engine
  | .assign name value => engine.usable name && value.accepted engine
  | .log values => acceptedExprs engine values
  | .discard _ params => acceptedExprs engine params
  | .count limit body =>
    limit.accepted engine && acceptedStmts engine body && decide (declaredNames body).Nodup
  | .forever body => acceptedStmts engine body && decide (declaredNames body).Nodup
  | .conditional test body otherwise =>
    test.accepted engine && acceptedStmts engine body && decide (declaredNames body).Nodup &&
      acceptedOtherwise engine otherwise
  | .expression e => e.accepted engine
  | .exit | .remark _ => true

def acceptedExprs (engine : Engine) : List Expr → Bool
  | [] => true
  | e :: es => e.accepted engine && acceptedExprs engine es

def acceptedStmts (engine : Engine) : List Stmt → Bool
  | [] => true
  | s :: ss => s.accepted engine && acceptedStmts engine ss

def acceptedOtherwise (engine : Engine) : Option Stmt → Bool
  | none => true
  | some s => s.accepted engine

end

/-- What a helper gives for its arguments; those left out are undefined. -/
def Helper.call (engine : Engine) (h : Helper) (args : List Value) : Action Value :=
  let first := args.getD 0 .undefined
  let second := args.getD 1 .undefined
  match h with
  | cast => return castValue first second
  | add => return addValues first second
  | random => do
    let unit ← draw engine
    let low := first.toNumber
    return .number (unit * (second.toNumber - low + 1.0) + low).floor

mutual

/-- The value of an expression. A number literal denotes what its text is read as. -/
def Expr.eval (engine : Engine) (fuel : Nat) : Expr → Action Value
  | .number n => return .number (leadingNumber (numberText n))
  | .string s => return .text s
  | .boolean b => return .boolean b
  | .null => return .null
  | .undefined => return .undefined
  | .variable name => read name
  | .strictEq left right => do
    let v ← left.eval engine fuel
    let w ← right.eval engine fuel
    return .boolean (v.strictEq w)
  | .arithmetic left op right => do
    let v ← left.eval engine fuel
    let w ← right.eval engine fuel
    return operate op v w
  | .helper h args => do
    let vs ← evalAll engine fuel args
    h.call engine vs
  | .join parts => do
    let vs ← evalAll engine fuel parts
    return .text (String.intercalate " " (vs.map elementText))
  | .lookup name => do
    let _ ← name.eval engine fuel
    throw .textAsCode
  | .closure body => do
    inScope (declaredNames [body]) (body.exec engine fuel)
    return .undefined
  | .missing _ => return .undefined

/-- The effect of a statement. -/
def Stmt.exec (engine : Engine) (fuel : Nat) : Stmt → Action Unit
  | .declare constant name value => do
    let v ← value.eval engine fuel
    initialise constant name v
  | .assign name value => do
    let v ← value.eval engine fuel
    assign name v
  | .log values => logAll engine fuel values
  | .discard _ params => do
    let _ ← evalAll engine fuel params
  | .exit => do
    note (.line "Bussin. Exiting...")
    throw .exit
  | .count limit body =>
    inScope [counter] do
      initialise false counter (.number 0.0)
      countUp (limit.eval engine fuel)
        (inScope (declaredNames body) (execAll engine fuel body)) fuel
  | .forever body => forever (inScope (declaredNames body) (execAll engine fuel body)) fuel
  | .conditional test body otherwise => do
    let v ← test.eval engine fuel
    if isYup v then inScope (declaredNames body) (execAll engine fuel body)
    else execOtherwise engine fuel otherwise
  | .remark _ => return ()
  | .expression e => do
    let _ ← e.eval engine fuel

def evalAll (engine : Engine) (fuel : Nat) : List Expr → Action (List Value)
  | [] => return []
  | e :: es => do
    let v ← e.eval engine fuel
    let vs ← evalAll engine fuel es
    return v :: vs

def execAll (engine : Engine) (fuel : Nat) : List Stmt → Action Unit
  | [] => return ()
  | s :: ss => do
    s.exec engine fuel
    execAll engine fuel ss

/-- Prints every value before the next one is evaluated. -/
def logAll (engine : Engine) (fuel : Nat) : List Expr → Action Unit
  | [] => return ()
  | e :: es => do
    let v ← e.eval engine fuel
    note (.line (printedText v))
    logAll engine fuel es

def execOtherwise (engine : Engine) (fuel : Nat) : Option Stmt → Action Unit
  | none => return ()
  | some s => inScope (declaredNames [s]) (s.exec engine fuel)

end

/-- Runs a script after the prelude, if it is accepted. -/
def runScript (engine : Engine) (fuel : Nat) (script : List Stmt) : Action Unit :=
  if acceptedStmts engine script && decide (declaredNames script).Nodup then
    inScope (declaredNames script) (execAll engine fuel script)
  else throw .notAccepted

/-- An action that succeeds has only added to the trace. -/
def Grows {α : Type} (action : Action α) : Prop :=
  ∀ ⦃m a m'⦄, action m = .ok a m' → m.trace <+: m'.trace

namespace Grows

variable {α β : Type}

theorem outcomes {action : Action α} (h : Grows action) {m m' : Machine} {a : α}
    (hm : action m = .ok a m') : m.outcomes <+: m'.outcomes :=
  (h hm).map Mark.outcome?

theorem pure (a : α) : Grows (Pure.pure a) := by
  intro m a' m' h
  cases h
  exact List.prefix_rfl

theorem throw (e : Halt) : Grows (MonadExcept.throw e : Action α) := by
  intro m a m' h
  cases h

theorem bind {x : Action α} {f : α → Action β} (hx : Grows x) (hf : ∀ a, Grows (f a)) :
    Grows (x >>= f) := by
  intro m b m'' h
  obtain ⟨a, m', hm, hm'⟩ := bind_eq_ok_iff.mp h
  exact (hx hm).trans (hf a hm')

theorem read (name : String) : Grows (Action.read name) := by
  intro m v m' h
  rw [Action.read] at h
  split at h
  · cases h
    exact List.prefix_rfl
  · cases h

theorem initialise (constant : Bool) (name : String) (v : Value) :
    Grows (Action.initialise constant name v) := by
  intro m u m' h
  cases h
  exact List.prefix_rfl

theorem assign (name : String) (v : Value) : Grows (Action.assign name v) := by
  intro m u m' h
  rw [Action.assign] at h
  split at h
  · cases h
  · cases h
  · cases h
    exact List.prefix_rfl

theorem note (mark : Mark) : Grows (Action.note mark) := by
  intro m u m' h
  cases h
  exact List.prefix_append _ _

theorem draw (engine : Engine) : Grows (Action.draw engine) := by
  intro m n m' h
  cases h
  exact List.prefix_rfl

theorem inScope (names : List String) {action : Action α} (h : Grows action) :
    Grows (Action.inScope names action) := by
  intro m a m' hm
  rw [Action.inScope] at hm
  split at hm
  case h_1 haction =>
    cases hm
    have hprefix := h haction
    exact hprefix
  case h_2 => cases hm

theorem test {limit : Action Value} (h : Grows limit) : Grows (Action.test limit) :=
  (read _).bind fun _ ↦ h.bind fun _ ↦ (note _).bind fun _ ↦ pure _

theorem increment : Grows Action.increment :=
  (read _).bind fun _ ↦ assign _ _

theorem countUp {limit : Action Value} {body : Action Unit} (hlimit : Grows limit)
    (hbody : Grows body) (fuel : Nat) : Grows (Action.countUp limit body fuel) := by
  induction fuel with
  | zero =>
      refine (test hlimit).bind fun again ↦ ?_
      split
      · exact throw _
      · exact pure _
  | succ fuel ih =>
      refine (test hlimit).bind fun again ↦ ?_
      split
      · exact hbody.bind fun _ ↦ increment.bind fun _ ↦ ih
      · exact pure _

theorem forever {body : Action Unit} (hbody : Grows body) (fuel : Nat) :
    Grows (Action.forever body fuel) := by
  induction fuel with
  | zero => exact throw _
  | succ fuel ih => exact hbody.bind fun _ ↦ ih

end Grows

theorem Helper.grows_call (engine : Engine) (h : Helper) (args : List Value) :
    Grows (h.call engine args) := by
  cases h with
  | cast => exact .pure _
  | add => exact .pure _
  | random => exact (Grows.draw engine).bind fun _ ↦ .pure _

mutual

theorem Expr.grows (engine : Engine) (fuel : Nat) : ∀ e : Expr, Grows (e.eval engine fuel)
  | .number _ | .string _ | .boolean _ | .null | .undefined | .missing _ => .pure _
  | .variable name => .read name
  | .strictEq left right =>
    (left.grows engine fuel).bind fun _ ↦ (right.grows engine fuel).bind fun _ ↦ .pure _
  | .arithmetic left _ right =>
    (left.grows engine fuel).bind fun _ ↦ (right.grows engine fuel).bind fun _ ↦ .pure _
  | .helper h args => (grows_evalAll engine fuel args).bind fun _ ↦ h.grows_call engine _
  | .join parts => (grows_evalAll engine fuel parts).bind fun _ ↦ .pure _
  | .lookup name => (name.grows engine fuel).bind fun _ ↦ .throw _
  | .closure body => ((body.grows engine fuel).inScope _).bind fun _ ↦ .pure _

theorem Stmt.grows (engine : Engine) (fuel : Nat) : ∀ s : Stmt, Grows (s.exec engine fuel)
  | .declare _ _ value => (value.grows engine fuel).bind fun _ ↦ .initialise _ _ _
  | .assign _ value => (value.grows engine fuel).bind fun _ ↦ .assign _ _
  | .log values => grows_logAll engine fuel values
  | .discard _ params => (grows_evalAll engine fuel params).bind fun _ ↦ .pure _
  | .exit => (Grows.note _).bind fun _ ↦ .throw _
  | .count limit body =>
    .inScope _ ((Grows.initialise _ _ _).bind fun _ ↦
      .countUp (limit.grows engine fuel) ((grows_execAll engine fuel body).inScope _) fuel)
  | .forever body => .forever ((grows_execAll engine fuel body).inScope _) fuel
  | .conditional test body otherwise =>
    (test.grows engine fuel).bind fun v ↦ by
      split
      · exact (grows_execAll engine fuel body).inScope _
      · exact grows_execOtherwise engine fuel otherwise
  | .remark _ => .pure _
  | .expression e => (e.grows engine fuel).bind fun _ ↦ .pure _

theorem grows_evalAll (engine : Engine) (fuel : Nat) :
    ∀ es : List Expr, Grows (evalAll engine fuel es)
  | [] => .pure _
  | e :: es =>
    (e.grows engine fuel).bind fun _ ↦ (grows_evalAll engine fuel es).bind fun _ ↦ .pure _

theorem grows_execAll (engine : Engine) (fuel : Nat) :
    ∀ ss : List Stmt, Grows (execAll engine fuel ss)
  | [] => .pure _
  | s :: ss => (s.grows engine fuel).bind fun _ ↦ grows_execAll engine fuel ss

theorem grows_logAll (engine : Engine) (fuel : Nat) :
    ∀ es : List Expr, Grows (logAll engine fuel es)
  | [] => .pure _
  | e :: es =>
    (e.grows engine fuel).bind fun _ ↦ (Grows.note _).bind fun _ ↦ grows_logAll engine fuel es

theorem grows_execOtherwise (engine : Engine) (fuel : Nat) :
    ∀ otherwise : Option Stmt, Grows (execOtherwise engine fuel otherwise)
  | none => .pure _
  | some s => (s.grows engine fuel).inScope _

end

end JavaScript

end VexLang
