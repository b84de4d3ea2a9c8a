/-!
# The command line

The arguments name a command, its file and its options. What is no command in
this sense is a mistake in usage, for which the same exit code stands whatever
the mistake.
-/

namespace VexLang

structure CompileOptions where
  file : String
  /-- Where the code goes, if not next to the file. -/
  output : Option String
  check : Bool
  checker : String
  deriving DecidableEq, Repr

inductive Command where
  | repl
  | run (file : String)
  | tokens (file : String)
  | tree (file : String)
  | compile (options : CompileOptions)
  deriving DecidableEq, Repr

namespace Arguments

/-- Does the argument look like an option? A single hyphen is a value. -/
def isOption (arg : String) : Bool :=
  match arg.toList with
  | '-' :: _ :: _ => true
  | _ => false

/-- The arguments of a command without options. After two hyphens every argument is a
value. -/
def values? : List String → Option (List String)
  | [] => some []
  | arg :: args =>
    if arg = "--" then some args
    else if isOption arg then none
    else (values? args).map (arg :: ·)

/-- Paths are not empty. -/
def path? (arg : String) : Option String :=
  if arg.isEmpty then none else some arg

/-- The one path among the arguments. -/
def file? (args : List String) : Option String :=
  match values? args with
  | some [file] => path? file
  | _ => none

/-- What an argument says about the compilation. -/
inductive Setting where
  | value
  | noCheck
  /-- The place of the code, in the same argument or in the next one. -/
  | output (attached : Option String)
  /-- The checker, in the same argument or in the next one. -/
  | checker (attached : Option String)
  | unknown
  deriving DecidableEq, Repr

/-- The rest of a text after its first characters. -/
def after? (start : List Char) (arg : String) : Option String :=
  if start.isPrefixOf arg.toList then some (String.ofList (arg.toList.drop start.length)) else none

/-- An attached value may be introduced by an equals sign. -/
def attachedValue (text : String) : String :=
  (after? ['='] text).getD text

/-- The option that a short name with an attached value spells. -/
def Setting.ofShort (arg : String) : Setting :=
  match after? ['-', 'o'] arg with
  | some text => .output (some (attachedValue text))
  | none => .unknown

def Setting.ofArgument (arg : String) : Setting :=
  if !isOption arg then .value
  else if arg = "--no-check" then .noCheck
  else if arg = "--output" || arg = "-o" then .output none
  else if arg = "--checker" then .checker none
  else
    match after? "--output=".toList arg with
    | some text => .output (some text)
    | none =>
      match after? "--checker=".toList arg with
      | some text => .checker (some text)
      | none => if arg.startsWith "--" then .unknown else ofShort arg

/-- What is known about the compilation so far. -/
structure Draft where
  file : Option String
  output : Option String
  noCheck : Bool
  checker : Option String
  deriving DecidableEq, Repr

namespace Draft

def empty : Draft := ⟨none, none, false, none⟩

/-- Nothing can be said twice. -/
def withFile? (d : Draft) (arg : String) : Option Draft :=
  if d.file.isSome then none else (path? arg).map fun file ↦ { d with file := some file }

def withOutput? (d : Draft) (arg : String) : Option Draft :=
  if d.output.isSome then none else (path? arg).map fun out ↦ { d with output := some out }

def withNoCheck? (d : Draft) : Option Draft :=
  if d.noCheck then none else some { d with noCheck := true }

def withChecker? (d : Draft) (arg : String) : Option Draft :=
  if d.checker.isSome then none else some { d with checker := some arg }

/-- The program that checks code unless another one is named. -/
def defaultChecker : String := "node"

/-- A draft is complete once it names a file. -/
def toOptions? (d : Draft) : Option CompileOptions :=
  d.file.map fun file ↦ ⟨file, d.output, !d.noCheck, d.checker.getD defaultChecker⟩

/-- Adds an option that carries its value along. -/
def set? (d : Draft) (arg : String) : Setting → Option Draft
  | .value => d.withFile? arg
  | .noCheck => d.withNoCheck?
  | .output (some text) => d.withOutput? text
  | .checker (some text) => d.withChecker? text
  | _ => none

/-- Adds an option whose value is the next argument. -/
def setNext? (d : Draft) (next : String) : Setting → Option Draft
  | .output none => if isOption next then none else d.withOutput? next
  | .checker none => if isOption next then none else d.withChecker? next
  | _ => none

def needsNext : Setting → Bool
  | .output none => true
  | .checker none => true
  | _ => false

def read? (d : Draft) : List String → Option Draft
  | [] => some d
  | arg :: args =>
    if arg = "--" then args.foldlM withFile? d
    else if needsNext (.ofArgument arg) then
      match args with
      | [] => none
      | next :: more => (d.setNext? next (.ofArgument arg)).bind fun d' ↦ d'.read? more
    else (d.set? arg (.ofArgument arg)).bind fun d' ↦ d'.read? args

end Draft

end Arguments

open Arguments in
/-- The command that the arguments spell. Without any, it is the prompt. -/
def Command.ofArguments? : List String → Option Command
  | [] => some .repl
  | name :: args =>
    match name with
    | "--" => if args.isEmpty then some .repl else none
    | "repl" => if values? args = some [] then some .repl else none
    | "run" => (file? args).map .run
    | "tokens" => (file? args).map .tokens
    | "ast" => (file? args).map .tree
    | "transpile" => ((Draft.empty.read? args).bind Draft.toOptions?).map .compile
    | _ => none

end VexLang
