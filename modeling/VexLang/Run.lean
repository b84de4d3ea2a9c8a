import VexLang.Node.Text
import VexLang.Run.Evaluation

/-!
# Runs of programs

A run evaluates the statements of a program one after the other. It ends with
the last one, or with the first that stops it.
-/

namespace VexLang

inductive Outcome where
  | done
  /-- The host is to end. -/
  | exit
  /-- The host is to ask for a file and run it. -/
  | requestFile
  /-- The statement is the one of the program in which the error arose. -/
  | failed (e : RunError) (statement : Node)
  /-- A loop had too few iterations granted. -/
  | exhausted

namespace Outcome

/-- How a run ends that is stopped in a statement. -/
def ofStop (statement : Node) : Stop → Outcome
  | .exit => exit
  | .openFile => requestFile
  | .failed e => failed e statement
  | .exhausted => exhausted

end Outcome

/-- The report on an error: its wording and the statement it arose in. -/
def failureReport (e : RunError) (statement : Node) : String :=
  e.message ++ "\n    at: " ++ statement.render

def run (host : Host) (fuel : Nat) : Program → World → Outcome × World
  | [], w => (.done, w)
  | statement :: program, w =>
    match (eval host fuel statement).run w with
    | .ok _ w' => run host fuel program w'
    | .error stop w' => (.ofStop statement stop, w')

end VexLang
