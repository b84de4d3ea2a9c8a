import VexLang.Manual
import VexLang.Session
import VexLang.Shell.FileStore
import VexLang.Text.Blank

/-!
# The console

What a user sees of runs, and how the console goes on after each line of input.
The console waits for a command, for the path of a file that a program asked for,
or for nothing more. Commands share one environment; every file runs in an
environment of its own.
-/

namespace VexLang

/-- A text on one of the two output channels. -/
inductive Chunk where
  | out (text : String)
  | err (text : String)
  deriving DecidableEq, Repr

namespace Chunk

def stdout : Chunk → String
  | out text => text
  | err _ => ""

def stderr : Chunk → String
  | out _ => ""
  | err text => text

end Chunk

namespace Console

def commandPrompt : String := "vx> "

def pathPrompt : String := "[System] File path: "

def greeting : String :=
  "VEXAL | REPL | Type 'vx' for docs.\nEOF to exit. (Ctrl+D on *nix, Ctrl+Z on Windows)\n"

def banner (name : String) : String :=
  "\n=== VEXAL: " ++ name ++ " ===\n"

def footer : String :=
  "\n=== END ===\n"

def pageRule : String :=
  "\n------------------\n"

/-- The manual as the console shows it. -/
def framedManual : String :=
  "\n=== VEXAL MANUAL ===\n" ++ String.join (manualPages.map (· ++ pageRule))

def eventText : Event → String
  | .manual => framedManual
  | e => e.output

def eventsText (events : List Event) : String :=
  String.join (events.map eventText)

/-- An error is reported on a line of its own. -/
def report (message : String) : Chunk :=
  .err (message ++ "\n")

def readFailure (path : String) (e : FileError) : String :=
  "[Read Error] " ++ path ++ ": " ++ e.message

inductive Ending where
  | finished
  | exit
  | requestFile
  | failed (message : String)
  /-- The run did not end within the iterations granted. -/
  | endless
  deriving DecidableEq, Repr

namespace Ending

def ofOutcome : Outcome → Ending
  | .done => finished
  | .exit => exit
  | .requestFile => requestFile
  | .failed e statement => failed (failureReport e statement)
  | .exhausted => endless

def ofResult : StepResult → Ending
  | .unreadable e => failed e.message
  | .ran outcome => ofOutcome outcome

end Ending

/-- A source text run by the console, which neither interrupts it nor refuses output. -/
def runSource (chance : Nat → Float) (fuel : Nat) (env : Environment) (source : String) :
    StepReport :=
  SessionStep.perform chance fuel env ⟨source, false, none, none⟩

inductive Mode where
  | command (env : Environment)
  /-- The path of a file. After the file, commands go on in the environment; there is none
  if no commands were asked for. -/
  | path (back : Option Environment)
  | closed (code : Nat)

/-- The console after it has shown something. -/
structure Turn where
  shown : List Chunk
  mode : Mode
  /-- The number of times that chance was asked. -/
  drawn : Nat

/-- The turn during which chance was asked `drawn` times. -/
def Turn.drawing (drawn : Nat) (turn : Turn) : Turn :=
  { turn with drawn }

def awaitCommand (shown : List Chunk) (env : Environment) : Turn :=
  ⟨shown ++ [.out commandPrompt], .command env, 0⟩

def awaitPath (shown : List Chunk) (back : Option Environment) : Turn :=
  ⟨shown ++ [.out pathPrompt], .path back, 0⟩

/-- Goes back to the commands, or ends if there are none. -/
def goBack (shown : List Chunk) : Option Environment → Turn
  | some env => awaitCommand shown env
  | none => ⟨shown, .closed 0, 0⟩

/-- The exit code after a file that could not be run to its end. -/
def failureCode : Nat := 1

/-- Goes on after a failure. The file the console was started for decides on its exit
code. -/
def afterFailure (shown : List Chunk) (first : Bool) (back : Option Environment) : Turn :=
  if first then ⟨shown, .closed failureCode, 0⟩ else goBack shown back

/-- Runs a file that has been read, between a banner and a footer. -/
def runFile (chance : Nat → Float) (fuel : Nat) (first : Bool) (back : Option Environment)
    (path source : String) : Turn :=
  let r := runSource chance fuel .empty source
  let shown := [.out (banner (Path.fileName path)), .out (eventsText r.events)]
  .drawing r.drawn <|
    match Ending.ofResult r.result with
    | .finished => goBack (shown ++ [.out footer]) back
    | .exit => ⟨shown, .closed 0, 0⟩
    | .requestFile => awaitPath (shown ++ [.out footer]) back
    | .failed message => afterFailure (shown ++ [report message]) first back
    | .endless => ⟨shown, .closed failureCode, 0⟩

/-- Goes on with what was found under a path. -/
def openFile (chance : Nat → Float) (fuel : Nat) (first : Bool) (back : Option Environment)
    (path : String) : Except FileError String → Turn
  | .ok source => runFile chance fuel first back path source
  | .error e => afterFailure [report (readFailure path e)] first back

/-- Goes on with a command. A blank one is passed over. -/
def runCommand (chance : Nat → Float) (fuel : Nat) (env : Environment) (line : String) : Turn :=
  match trim line.toList with
  | [] => awaitCommand [] env
  | source =>
    let r := runSource chance fuel env (String.ofList source)
    let shown := [.out (eventsText r.events)]
    .drawing r.drawn <|
      match Ending.ofResult r.result with
      | .finished => awaitCommand shown r.env
      | .exit => ⟨shown, .closed 0, 0⟩
      | .requestFile => awaitPath shown (some r.env)
      | .failed message => awaitCommand (shown ++ [report message]) r.env
      | .endless => ⟨shown, .closed failureCode, 0⟩

/-- The path that a line of input names: blanks around it and all double quotes go. -/
def pathOfLine (line : String) : String :=
  String.ofList ((trim line.toList).filter (· != '"'))

/-- What is shown when the input has ended. A request for a path is given up, and a command
is asked for once more. -/
def endOfInput : Mode → List Chunk
  | .path (some _) => [.out commandPrompt]
  | _ => []

/-- Goes on with a line of input, given the files. -/
def takeLine (chance : Nat → Float) (fuel : Nat) (read : String → Except FileError String)
    (line : String) : Mode → Turn
  | .command env => runCommand chance fuel env line
  | .path back => openFile chance fuel false back (pathOfLine line) (read (pathOfLine line))
  | .closed code => ⟨[], .closed code, 0⟩

/-- What the console shows for the lines of an input, and its exit code. A closed console
leaves the remaining lines unread, and chance goes on from turn to turn. -/
def converse (chance : Nat → Float) (fuel : Nat) (read : String → Except FileError String) :
    Mode → List String → List Chunk × Nat
  | .closed code, _ => ([], code)
  | mode, [] => (endOfInput mode, 0)
  | mode, line :: lines =>
    let turn := takeLine chance fuel read line mode
    let (more, code) := converse (laterDraws chance turn.drawn) fuel read turn.mode lines
    (turn.shown ++ more, code)

end Console

end VexLang
