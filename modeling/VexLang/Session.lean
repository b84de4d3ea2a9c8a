import VexLang.Run
import VexLang.Source

/-!
# Sessions

A session runs source texts one after the other in one environment. Every text
gets a sink of its own, and a text that cannot be read or fails does not keep the
next one from being run. Chance goes on from text to text.
-/

namespace VexLang

/-- A source text and what the host does while it runs. -/
structure SessionStep where
  source : String
  interrupted : Bool
  raiseAt : Option Nat
  closeAt : Option Nat

inductive StepResult where
  | unreadable (e : SourceError)
  | ran (outcome : Outcome)

structure StepReport where
  result : StepResult
  events : List Event
  env : Environment
  /-- The number of times that chance was asked. -/
  drawn : Nat

def StepReport.output (r : StepReport) : String :=
  outputOf r.events

/-- The line counts at which a step shows the manual. -/
def StepReport.manualLines (r : StepReport) : List Nat :=
  VexLang.manualLines 0 r.events

/-- What chance yields once it has been asked `drawn` times. -/
def laterDraws (chance : Nat → Float) (drawn : Nat) : Nat → Float :=
  fun i ↦ chance (drawn + i)

def SessionStep.perform (chance : Nat → Float) (fuel : Nat) (env : Environment)
    (step : SessionStep) : StepReport :=
  match Program.ofSource step.source with
  | .error e => ⟨.unreadable e, [], env, 0⟩
  | .ok program =>
    let host : Host := ⟨step.raiseAt, step.closeAt, chance⟩
    let (outcome, w) := run host fuel program (World.start env step.interrupted)
    ⟨.ran outcome, w.events.toList, w.env, w.drawn⟩

/-- Runs the steps of a session, starting in the given environment. -/
def session (chance : Nat → Float) (fuel : Nat) :
    Environment → List SessionStep → List StepReport
  | _, [] => []
  | env, step :: steps =>
    let report := step.perform chance fuel env
    report :: session (laterDraws chance report.drawn) fuel report.env steps

end VexLang
