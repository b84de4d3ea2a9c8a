import VexLang.JavaScript.Code
import VexLang.Number.Numeral

/-!
# Machines that run generated code

The state of a run of generated code: what every name stands for, and a trace of
what was printed and of the tests that counting loops made. A block hides the names
it declares and gives them back when it is left. Functions are called where they
stand and do not outlive their statement, so there is nothing more to scopes.
-/

namespace VexLang

namespace JavaScript

/-- What a run depends on besides the code. -/
structure Engine where
  /-- Is the text an identifier that is not reserved? -/
  isName : String → Bool
  /-- The numbers in `[0, 1)` that chance yields, in order. -/
  chance : Nat → Float

/-- The names of the globals on which the prelude and generated code rely. -/
def globalNames : List String :=
  ["_vexHelper", "console", "undefined", "Infinity", "NaN", "String", "Number", "parseFloat",
    "Math"]

/-- Code that declares or reads one of the globals by its name is left out of account. -/
def Engine.usable (engine : Engine) (name : String) : Bool :=
  engine.isName name && !globalNames.contains name

/-- What a name stands for. It has no value before its declaration is reached. -/
structure Slot where
  constant : Bool
  value : Option Value
  deriving DecidableEq

/-- What is seen of a run. -/
inductive Mark where
  | line (text : String)
  /-- The test of a counting loop before an iteration. -/
  | test (again : Bool)
  deriving DecidableEq, Repr

def Mark.output : Mark → String
  | line text => text ++ "\n"
  | test _ => ""

/-- The outcome of a test; a line is only seen to be there. -/
def Mark.outcome? : Mark → Option Bool
  | line _ => none
  | test again => some again

structure Machine where
  vars : String → Option Slot
  trace : List Mark
  /-- The number of times that chance was asked. -/
  drawn : Nat

namespace Machine

def start : Machine := ⟨fun _ ↦ none, [], 0⟩

def set (m : Machine) (name : String) (slot : Slot) : Machine :=
  { m with vars := fun x ↦ if x = name then some slot else m.vars x }

/-- The names are declared, and have no value yet. -/
def hide (m : Machine) (names : List String) : Machine :=
  { m with vars := fun x ↦ if x ∈ names then some ⟨false, none⟩ else m.vars x }

/-- The names stand again for what they stand for outside. -/
def giveBack (m : Machine) (names : List String) (outside : Machine) : Machine :=
  { m with vars := fun x ↦ if x ∈ names then outside.vars x else m.vars x }

def output (m : Machine) : String :=
  String.join (m.trace.map Mark.output)

/-- The tests that were made, and where lines were printed between them. -/
def outcomes (m : Machine) : List (Option Bool) :=
  m.trace.map Mark.outcome?

@[simp] theorem set_trace (m : Machine) (name : String) (slot : Slot) :
    (m.set name slot).trace = m.trace := rfl

@[simp] theorem set_vars (m : Machine) (name : String) (slot : Slot) (x : String) :
    (m.set name slot).vars x = if x = name then some slot else m.vars x := rfl

theorem hide_vars (m : Machine) (names : List String) (x : String) :
    (m.hide names).vars x = if x ∈ names then some ⟨false, none⟩ else m.vars x := rfl

theorem giveBack_vars (m : Machine) (names : List String) (outside : Machine) (x : String) :
    (m.giveBack names outside).vars x = if x ∈ names then outside.vars x else m.vars x := rfl

end Machine

/-- Why a run ends before the code does. -/
inductive Halt where
  /-- The code is not accepted, and nothing of it is run. -/
  | notAccepted
  | reference (name : String)
  | constant (name : String)
  | exit
  /-- Text is to be run as code. -/
  | textAsCode
  /-- A loop has used up the iterations it was granted. -/
  | exhausted
  deriving DecidableEq, Repr

abbrev Action := EStateM Halt Machine

namespace Action

def read (name : String) : Action Value := fun m ↦
  match m.vars name with
  | some ⟨_, some v⟩ => .ok v m
  | _ => .error (.reference name) m

def initialise (constant : Bool) (name : String) (v : Value) : Action Unit := fun m ↦
  .ok () (m.set name ⟨constant, some v⟩)

/-- Assigning to a name that nobody declared makes it a global. -/
def assign (name : String) (v : Value) : Action Unit := fun m ↦
  match m.vars name with
  | some ⟨_, none⟩ => .error (.reference name) m
  | some ⟨true, some _⟩ => .error (.constant name) m
  | _ => .ok () (m.set name ⟨false, some v⟩)

def note (mark : Mark) : Action Unit := fun m ↦
  .ok () { m with trace := m.trace ++ [mark] }

def draw (engine : Engine) : Action Float := fun m ↦
  .ok (engine.chance m.drawn) { m with drawn := m.drawn + 1 }

/-- Runs an action in which some names are declared anew. -/
def inScope {α : Type} (names : List String) (action : Action α) : Action α := fun m ↦
  match action (m.hide names) with
  | .ok a m' => .ok a (m'.giveBack names m)
  | .error e m' => .error e m'

/-- The name that counting loops give to their counter. -/
def counter : String := "i"

/-- Is the counter below the limit, which is evaluated for every test? -/
def test (limit : Action Value) : Action Bool := do
  let i ← read counter
  let v ← limit
  let again := decide (i.toNumber < v.toNumber)
  note (.test again)
  return again

def increment : Action Unit := do
  let i ← read counter
  assign counter (.number (i.toNumber + 1.0))

/-- A counting loop from its next test on, with a bound on its iterations. -/
def countUp (limit : Action Value) (body : Action Unit) : Nat → Action Unit
  | 0 => do
    if ← test limit then throw .exhausted
  | fuel + 1 => do
    if ← test limit then
      body
      increment
      countUp limit body fuel

/-- A loop without a test, with a bound on its iterations. -/
def forever (body : Action Unit) : Nat → Action Unit
  | 0 => throw .exhausted
  | fuel + 1 => do
    body
    forever body fuel

end Action

/-- The helper for casts: the texts that it compares with name the statuses. -/
def castValue (v type : Value) : Value :=
  if type = .text "num" then .number (leadingNumber v.toText)
  else if type = .text "str" then .text v.toText
  else if type = .text "bool" then
    .boolean (v.strictEq (.boolean true) || v.strictEq (.text "true") ||
      v.strictEq (.number 1.0) || v.strictEq (.text "yup"))
  else if type = .text "null" then .null
  else if type = .text "undefined" then .undefined
  else v

def isNumber : Value → Bool
  | .number _ => true
  | _ => false

def isText : Value → Bool
  | .text _ => true
  | _ => false

def addValues (v w : Value) : Value :=
  if isNumber v && isNumber w then .number (v.toNumber + w.toNumber)
  else .text (v.toText ++ w.toText)

def isYup (v : Value) : Bool :=
  v.strictEq (.boolean true) || v.strictEq (.text "yup")

/-- What an element adds to the text of a joined list. -/
def elementText (v : Value) : String :=
  if v = .null ∨ v = .undefined then "" else v.toText

def isNegativeZero : Value → Bool
  | .number n => isNegative n && magnitude n == 0
  | _ => false

/-- What the console shows of a value. Unlike the text of the value, it shows the sign of a zero. -/
def printedText (v : Value) : String :=
  if isNegativeZero v then "-0" else v.toText

theorem toText_of_isNegativeZero {v : Value} (h : isNegativeZero v = true) : v.toText = "0" := by
  cases v with
  | number n =>
      simp only [isNegativeZero, Bool.and_eq_true, beq_iff_eq] at h
      exact numberText_of_zero h.2
  | _ => cases h

/-- The sign is one more character. -/
theorem length_printedText (v : Value) :
    (printedText v).length = v.toText.length + (isNegativeZero v).toNat := by
  rw [printedText]
  cases h : isNegativeZero v with
  | true =>
      rw [toText_of_isNegativeZero h]
      rfl
  | false => rfl

def operate (op : Operator) (v w : Value) : Value :=
  match op with
  | .plus =>
    if isText v || isText w then .text (v.toText ++ w.toText)
    else .number (v.toNumber + w.toNumber)
  | .minus => .number (v.toNumber - w.toNumber)
  | .times => .number (v.toNumber * w.toNumber)
  | .divide => .number (v.toNumber / w.toNumber)

end JavaScript

end VexLang
