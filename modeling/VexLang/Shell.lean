import VexLang.JavaScript.Emit
import VexLang.Shell.Arguments
import VexLang.Shell.Console
import VexLang.Shell.Listing

/-!
# The command line program

What the program answers to its arguments, the files of its working directory
and its input: an exit code, two channels of output, and the files afterwards.
-/

namespace VexLang

/-- What a syntax checker says about a file of code. -/
inductive Verdict where
  | valid
  | invalid (complaint : String)
  /-- The checker cannot be started. -/
  | unavailable
  deriving DecidableEq, Repr

/-- The verdict of the checkers that look at nothing. All others count as unavailable. -/
def Verdict.ofChecker (name : String) : Verdict :=
  match name with
  | "true" => valid
  | "false" => invalid ""
  | _ => unavailable

namespace Shell

def usageCode : Nat := 2

/-- What is written in place of an explanation of the usage. -/
def usageNote : String := "<usage>"

/-- The error of a command that ends it. -/
def failure (message : String) : List Chunk × Nat :=
  ([Console.report message], Console.failureCode)

def showTokens (source : String) : List Chunk × Nat :=
  match tokens source with
  | .error e => failure e.message
  | .ok ts => ([.out (listing ts)], 0)

def showTree (source : String) : List Chunk × Nat :=
  match Program.ofSource source with
  | .error e => failure e.message
  | .ok program => ([.out program.render], 0)

/-- The name of the file that code goes to unless another one is given. -/
def defaultOutput : String := "vexal-compiled.js"

def outputPath (options : CompileOptions) : String :=
  options.output.getD (Path.withFileName options.file defaultOutput)

def writeFailure (path : String) (e : FileError) : String :=
  "[Transcribe Error] " ++ path ++ ": " ++ e.message

def verdictText : Verdict → String
  | .valid => "[Verified] Compiled JS is valid.\n"
  | .invalid complaint => "[Warning] Compiled JS has syntax errors:\n" ++ complaint ++ "\n"
  | .unavailable => ""

/-- What is shown after the code has been written. -/
def compiled (options : CompileOptions) : List Chunk × Nat :=
  let success := Chunk.out ("[Success] Transcribed to: " ++ outputPath options ++ "\n")
  if options.check then ([success, .out (verdictText (.ofChecker options.checker))], 0)
  else ([success], 0)

structure Answer where
  code : Nat
  stdout : String
  stderr : String
  files : FileStore

/-- The answer that shows chunks and leaves files behind. -/
def Answer.of (files : FileStore) (shown : List Chunk × Nat) : Answer :=
  ⟨shown.2, String.join (shown.1.map Chunk.stdout), String.join (shown.1.map Chunk.stderr),
    files⟩

def withFile (files : FileStore) (path : String) (go : String → List Chunk × Nat) :
    List Chunk × Nat :=
  match files.read path with
  | .error e => failure (Console.readFailure path e)
  | .ok source => go source

def compile (files : FileStore) (options : CompileOptions) : Answer :=
  match files.read options.file with
  | .error e => .of files (failure (Console.readFailure options.file e))
  | .ok source =>
    match Program.ofSource source with
    | .error e => .of files (failure e.message)
    | .ok program =>
      match files.write (outputPath options) program.compile with
      | .error e => .of files (failure (writeFailure (outputPath options) e))
      | .ok files' => .of files' (compiled options)

/-- The lines of an input, without their ends. An end at the very end opens no line. -/
def linesOf : List Char → List (List Char)
  | [] => []
  | c :: cs =>
    if c = '\n' then [] :: linesOf cs
    else
      match linesOf cs with
      | [] => [[c]]
      | first :: more => (c :: first) :: more

/-- Shows a turn of the console and converses from there. -/
def converseFrom (chance : Nat → Float) (fuel : Nat) (files : FileStore) (lines : List String)
    (turn : Console.Turn) : List Chunk × Nat :=
  let (more, code) :=
    Console.converse (laterDraws chance turn.drawn) fuel files.read turn.mode lines
  (turn.shown ++ more, code)

def runCommand (chance : Nat → Float) (fuel : Nat) (files : FileStore) (lines : List String) :
    Command → Answer
  | .repl =>
    .of files (converseFrom chance fuel files lines
      (Console.awaitCommand [.out Console.greeting] .empty))
  | .run path =>
    .of files (converseFrom chance fuel files lines
      (Console.openFile chance fuel true none path (files.read path)))
  | .tokens path => .of files (withFile files path showTokens)
  | .tree path => .of files (withFile files path showTree)
  | .compile options => compile files options

/-- The answer of the program to its arguments, files and input. -/
def run (chance : Nat → Float) (fuel : Nat) (files : FileStore) (input : String)
    (args : List String) : Answer :=
  match Command.ofArguments? args with
  | none => ⟨usageCode, "", usageNote, files⟩
  | some command =>
    runCommand chance fuel files ((linesOf input.toList).map String.ofList) command

end Shell

end VexLang
