import VexLang.Environment

/-!
# Operations on environments

Everything a host can ask of an environment, as data, so that histories of
operations can be spoken of. Each operation has an answer and leaves an
environment behind.
-/

namespace VexLang

namespace Environment

inductive Operation where
  | declare (name : String) (value : Value) (constant : Bool)
  | assign (name : String) (value : Value)
  | checkAssignable (name : String)
  | get (name : String)
  | contains (name : String)
  | isConstant (name : String)
  /-- Answers whether the name was a constant. -/
  | unconst (name : String)
  /-- Answers whether the name was bound. -/
  | banish (name : String)
  | autoStatus
  /-- Answers with the new state of the switch. -/
  | toggle
  deriving DecidableEq

inductive Answer where
  | done
  | failed (e : RunError)
  | value (v : Value)
  | flag (b : Bool)
  deriving DecidableEq

/-- The answer to an operation, and the environment after it. A failed operation changes
nothing. -/
def perform (env : Environment) : Operation → Answer × Environment
  | .declare name value constant => (.done, env.declare name value constant)
  | .assign name value =>
    match env.assign name value with
    | .ok env' => (.done, env')
    | .error e => (.failed e, env)
  | .checkAssignable name =>
    match env.checkAssignable name with
    | .ok () => (.done, env)
    | .error e => (.failed e, env)
  | .get name => (.value (env.get name), env)
  | .contains name => (.flag (env.contains name), env)
  | .isConstant name => (.flag (env.isConstant name), env)
  | .unconst name => (.flag (env.isConstant name), env.unconst name)
  | .banish name => (.flag (env.contains name), env.erase name)
  | .autoStatus => (.flag env.autoStatus, env)
  | .toggle => (.flag env.toggle.autoStatus, env.toggle)

/-- The environment after a history of operations, the earliest first. -/
def performAll (env : Environment) (history : List Operation) : Environment :=
  history.foldl (fun e op ↦ (e.perform op).2) env

@[simp] theorem performAll_nil (env : Environment) : env.performAll [] = env := rfl

@[simp] theorem performAll_cons (env : Environment) (op : Operation) (history : List Operation) :
    env.performAll (op :: history) = (env.perform op).2.performAll history := rfl

theorem performAll_append (env : Environment) (earlier later : List Operation) :
    env.performAll (earlier ++ later) = (env.performAll earlier).performAll later := by
  simp [performAll]

end Environment

end VexLang
