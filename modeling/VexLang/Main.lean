import VexLang.Shell

/-!
# The executable

Reads arguments, files and lines, and hands them to the command line program.
-/

namespace VexLang

namespace Main

/-- More iterations than a loop can go through in a lifetime. -/
def fuel : Nat := 1000000000000000000

/-- The next number of a sequence that looks random in its higher bits. -/
def scramble (n : UInt64) : UInt64 :=
  n * 6364136223846793005 + 1442695040888963407

/-- A number in `[0, 1)` for every index, made from a seed. -/
def chanceFrom (seed : Nat) (i : Nat) : Float :=
  (scramble (scramble (UInt64.ofNat (seed + i))) >>> 11).toFloat / 9007199254740992.0

/-- The number of a system error, which may be given with a minus sign. -/
def errorNumber (code : UInt32) : UInt32 :=
  min code (0 - code)

def fileError : IO.Error → FileError
  | .inappropriateType _ code _ => if errorNumber code = 20 then .notDirectory else .isDirectory
  | .invalidArgument _ code _ => if errorNumber code = 36 then .nameTooLong else .noName
  | .userError _ => .notText
  | _ => .missing

def readFile (path : String) : IO (Except FileError String) := do
  match ← (IO.FS.readFile path).toBaseIO with
  | .ok text => return .ok text
  | .error e => return .error (fileError e)

def showChunks (shown : List Chunk) : IO Unit := do
  for chunk in shown do
    match chunk with
    | .out text => IO.print text
    | .err text => IO.eprint text
  (← IO.getStdout).flush

/-- The next line of the input, unless it has ended. -/
def nextLine? (input : IO.FS.Stream) : IO (Option String) := do
  let line ← input.getLine
  return if line.isEmpty then none else some line

/-- Ends the console at the end of the input. -/
def endInput (mode : Console.Mode) : IO UInt32 := do
  showChunks (Console.endOfInput mode)
  return 0

/-- Shows a turn and goes on with lines of input until the console is closed. -/
partial def converse (chance : Nat → Float) (input : IO.FS.Stream) (turn : Console.Turn) :
    IO UInt32 := do
  showChunks turn.shown
  let chance := laterDraws chance turn.drawn
  match turn.mode with
  | .closed code => return UInt32.ofNat code
  | .command env =>
    match ← nextLine? input with
    | none => endInput turn.mode
    | some line => converse chance input (Console.runCommand chance fuel env line)
  | .path back =>
    match ← nextLine? input with
    | none => endInput turn.mode
    | some line =>
      let path := Console.pathOfLine line
      let content ← readFile path
      converse chance input (Console.openFile chance fuel false back path content)

/-- Shows the result of a command that asks for nothing. -/
def finish (shown : List Chunk × Nat) : IO UInt32 := do
  showChunks shown.1
  return UInt32.ofNat shown.2

def withFile (path : String) (go : String → IO UInt32) : IO UInt32 := do
  match ← readFile path with
  | .error e => finish (Shell.failure (Console.readFailure path e))
  | .ok source => go source

def compile (options : CompileOptions) (source : String) : IO UInt32 := do
  match Program.ofSource source with
  | .error e => finish (Shell.failure e.message)
  | .ok program =>
    let path := Shell.outputPath options
    match ← (IO.FS.writeFile path program.compile).toBaseIO with
    | .error e => finish (Shell.failure (Shell.writeFailure path (fileError e)))
    | .ok () => finish (Shell.compiled options)

def runCommand (chance : Nat → Float) : Command → IO UInt32
  | .repl => do
    converse chance (← IO.getStdin) (Console.awaitCommand [.out Console.greeting] .empty)
  | .run path => do
    let content ← readFile path
    converse chance (← IO.getStdin) (Console.openFile chance fuel true none path content)
  | .tokens path => withFile path fun source ↦ finish (Shell.showTokens source)
  | .tree path => withFile path fun source ↦ finish (Shell.showTree source)
  | .compile options => withFile options.file (compile options)

end Main

end VexLang

def main (args : List String) : IO UInt32 := do
  let seed ← IO.monoNanosNow
  match VexLang.Command.ofArguments? args with
  | some command => VexLang.Main.runCommand (VexLang.Main.chanceFrom seed) command
  | none =>
    IO.eprintln VexLang.Shell.usageNote
    return UInt32.ofNat VexLang.Shell.usageCode
