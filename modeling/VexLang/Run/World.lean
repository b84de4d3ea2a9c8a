import VexLang.Environment

/-!
# What a run sees and does

A run reads its host and changes a world: an environment, a record of what was
shown, and the flag by which the host can end the run. Output goes to a sink that
counts the line ends it has taken; the host may raise the flag or close the sink
once there are enough of them.
-/

namespace VexLang

/-- What is shown to the user. -/
inductive Event where
  | text (content : String)
  /-- The report on the switch. -/
  | status (on : Bool)
  | lineEnd
  /-- The manual is shown next to the output and is no part of it. -/
  | manual
  deriving DecidableEq, Repr

namespace Event

def output : Event → String
  | text content => content
  | status on => "[System] AutoStatus is now: " ++ if on then "ON" else "OFF"
  | lineEnd => "\n"
  | manual => ""

/-- The number of line ends that the event adds to the output. -/
def lineEnds (e : Event) : Nat :=
  e.output.toList.count '\n'

end Event

/-- The text that events leave in the sink. -/
def outputOf (events : List Event) : String :=
  String.join (events.map Event.output)

theorem outputOf_append (es fs : List Event) : outputOf (es ++ fs) = outputOf es ++ outputOf fs := by
  rw [outputOf, List.map_append, String.join_append]
  rfl

theorem outputOf_singleton (e : Event) : outputOf [e] = e.output := by
  rw [outputOf, List.map_singleton, String.join_cons, String.join_nil, String.append_empty]

theorem outputOf_line (e : Event) : outputOf [e, .lineEnd] = e.output ++ "\n" := by
  rw [← List.singleton_append, outputOf_append, outputOf_singleton, outputOf_singleton]
  rfl

/-- The line counts at which the manual is shown, when `lines` lines precede the events. -/
def manualLines (lines : Nat) : List Event → List Nat
  | [] => []
  | .manual :: events => lines :: manualLines lines events
  | e :: events => manualLines (lines + e.lineEnds) events

/-- What a run can be told from outside. -/
structure Host where
  /-- Once this many lines are written, the flag is raised. -/
  raiseAt : Option Nat
  /-- Once this many lines are written, the sink takes no more. -/
  closeAt : Option Nat
  /-- The numbers in `[0, 1)` that chance yields, in order. -/
  chance : Nat → Float

def Host.closes (host : Host) (lines : Nat) : Bool :=
  host.closeAt.any (· ≤ lines)

def Host.raises (host : Host) (lines : Nat) : Bool :=
  host.raiseAt.any (· ≤ lines)

/-- What a run changes. -/
structure World where
  env : Environment
  events : Array Event
  /-- The number of line ends in the sink. -/
  lines : Nat
  /-- The flag that ends the run at the next iteration of a loop. -/
  interrupted : Bool
  /-- The number of times that chance was asked. -/
  drawn : Nat

namespace World

/-- Nothing has been shown or drawn yet. -/
def start (env : Environment) (interrupted : Bool) : World :=
  ⟨env, #[], 0, interrupted, 0⟩

/-- The world after an event has come into the sink. -/
def accept (w : World) (host : Host) (e : Event) : World :=
  { w with
    events := w.events.push e
    lines := w.lines + e.lineEnds
    interrupted := w.interrupted || host.raises (w.lines + e.lineEnds) }

end World

/-- What ends a run before its last statement. -/
inductive Stop where
  /-- The program ends its host, too. -/
  | exit
  /-- The program asks for a file to run. -/
  | openFile
  | failed (e : RunError)
  /-- A loop has used up the iterations it was granted. -/
  | exhausted
  deriving DecidableEq, Repr

/-- A step of a run: it changes the world, and gives a result or stops. -/
abbrev Effect := EStateM Stop World

namespace Effect

def fail {α : Type} (e : RunError) : Effect α :=
  throw (.failed e)

/-- The failure of an operation on the environment is a failure of the run. -/
def ofExcept {α : Type} : Except RunError α → Effect α
  | .ok a => pure a
  | .error e => fail e

/-- Hands an event to the sink, which may be closed. -/
def write (host : Host) (e : Event) : Effect Unit := fun w ↦
  if host.closes w.lines then .error (.failed .sinkClosed) w else .ok () (w.accept host e)

def writeLine (host : Host) (e : Event) : Effect Unit := do
  write host e
  write host .lineEnd

def showManual : Effect Unit := fun w ↦
  .ok () { w with events := w.events.push .manual }

def checkFlag : Effect Unit := fun w ↦
  if w.interrupted then .error (.failed .interrupted) w else .ok () w

def modifyEnv (f : Environment → Environment) : Effect Unit := fun w ↦
  .ok () { w with env := f w.env }

def draw (host : Host) : Effect Float := fun w ↦
  .ok (host.chance w.drawn) { w with drawn := w.drawn + 1 }

/-- Repeats a step as long as the number of iterations, counted as a number of the
language, satisfies a condition. The flag is looked at before every iteration, and
no more than `fuel` iterations are granted. -/
def iterate (goesOn : Float → Bool) (body : Effect Unit) : Nat → Float → Effect Unit
  | 0, i => if goesOn i then throw .exhausted else pure ()
  | fuel + 1, i =>
    if goesOn i then do
      checkFlag
      body
      iterate goesOn body fuel (i + 1.0)
    else pure ()

end Effect

end VexLang
