/-!
# Errors of a run

The causes that end a run with an error. Each belongs to a category and has one
wording.
-/

namespace VexLang

/-- Why a run failed. -/
inductive RunError where
  /-- An assignment to a name that is not bound. -/
  | undeclared (name : String)
  /-- A bare word where a value was expected. -/
  | unquoted (name : String)
  /-- An assignment to a constant. -/
  | constant (name : String)
  /-- The host asked the run to stop. -/
  | interrupted
  /-- The host takes no more output. -/
  | sinkClosed
  deriving DecidableEq, Repr

inductive ErrorCategory where
  | reference
  | const
  | host
  deriving DecidableEq, Repr

namespace RunError

def category : RunError → ErrorCategory
  | undeclared _ => .reference
  | unquoted _ => .reference
  | constant _ => .const
  | interrupted => .host
  | sinkClosed => .host

def message : RunError → String
  | undeclared name => "[ReferenceError] '" ++ name ++ "' undefined."
  | unquoted name =>
    "[ReferenceError] Unknown identifier '" ++ name ++ "'. Variables must be quoted."
  | constant name => "[ConstError] '" ++ name ++ "' is fr (constant)."
  | interrupted => "[Interrupted] Run cancelled by the host."
  | sinkClosed => "IO error: sink closed"

end RunError

end VexLang
