import VexLang.Proofs.Shell.Chain

/-!
# Dialogues

Without a file to run, the console takes its lines as commands, which share one environment.
A command, or a file, may ask for a file, and then the next line is taken as a path. So every
line is taken once and in one of two ways. Files leave no trace in the environment of the
commands. Failures are reported and stop nothing; what ends a dialogue is the end of the
lines or a program that ends the console, and then the other lines are not read.
-/

namespace VexLang

open Console

def asksLast (entries : List Entry) : Bool :=
  entries.getLast?.any Entry.asks

/-- A line taken after others: as a path if the last entry asked for one, and else as a
command. -/
def nextEntry (chance : Nat → Float) (fuel : Nat) (files : FileStore) (past : List Entry)
    (line : String) : Entry :=
  if asksLast past then fileEntry (laterDraws chance (drawnBy past)) fuel files (pathOfLine line)
  else commandEntry (laterDraws chance (drawnBy past)) fuel (environmentAfter past) line

/-- The entries are made of the lines, one of each, until one of them ends the console. -/
def IsDialogue (chance : Nat → Float) (fuel : Nat) (files : FileStore) (lines : List String)
    (entries : List Entry) : Prop :=
  Chronicle (nextEntry chance fuel files) (fun e ↦ !e.exits) [] lines entries

/-- What the console waits for between two lines. -/
def waiting (past : List Entry) : Mode :=
  if asksLast past then .path (some (environmentAfter past)) else .command (environmentAfter past)

theorem asksLast_append (past : List Entry) (e : Entry) : asksLast (past ++ [e]) = e.asks := by
  rw [asksLast, List.getLast?_concat]
  rfl

theorem waiting_open (past : List Entry) (code : Nat) : waiting past ≠ .closed code := by
  rw [waiting]
  split <;> nofun

theorem modeAfter_entry {e : Entry} (hend : e.Terminates) (past : List Entry) :
    modeAfter 0 (some (e.environment (environmentAfter past))) e.ending =
      if !e.exits then waiting (past ++ [e]) else .closed 0 := by
  rw [waiting, asksLast_append, environmentAfter_append, Entry.exits, Entry.asks]
  cases hending : e.ending with
  | endless => exact absurd hending hend
  | _ => rfl

theorem outText_endOfInput (entries : List Entry) :
    outText (endOfInput (waiting entries)) = if asksLast entries then commandPrompt else "" := by
  rw [waiting]
  cases asksLast entries with
  | true => exact String.join_cons.trans (String.append_empty ..)
  | false => rfl

theorem shows_nextEntry {chance : Nat → Float} {fuel fuel' : Nat} (hfuel : fuel ≤ fuel')
    (files : FileStore) (past : List Entry) (line : String) (e : Entry)
    (he : e = nextEntry chance fuel files past line) (hend : e.Terminates) :
    (takeLine (laterDraws chance (drawnBy past)) fuel' files.read line (waiting past)).Shows e
      (promptAfter commandPrompt e.ending)
      (if !e.exits then waiting (past ++ [e]) else .closed 0) := by
  rw [← modeAfter_entry hend, waiting]
  rw [nextEntry] at he
  cases hasks : asksLast past with
  | true =>
      rw [hasks, if_pos rfl] at he
      have henv : e.environment (environmentAfter past) = environmentAfter past := by
        rw [he]
        rfl
      rw [henv]
      exact shows_openFile hfuel he hend false _ Bool.false_ne_true.elim
  | false =>
      rw [hasks, if_neg Bool.false_ne_true] at he
      exact shows_runCommand hfuel he hend

theorem converse_dialogue {chance : Nat → Float} {fuel fuel' : Nat} (hfuel : fuel ≤ fuel')
    {files : FileStore} {lines : List String} {entries : List Entry}
    (h : IsDialogue chance fuel files lines entries) (hend : ∀ e ∈ entries, e.Terminates) :
    let answer := converse chance fuel' files.read (.command .empty) lines
    Tells (promptAfter commandPrompt) entries (if asksLast entries then commandPrompt else "")
      answer.1 ∧ answer.2 = 0 := by
  have hanswer := converse_tells waiting waiting_open (shows_nextEntry hfuel files) h hend
  have hlast : (if entries.all fun e ↦ !e.exits then
      outText (endOfInput (waiting ([] ++ entries))) else "") =
        if asksLast entries then commandPrompt else "" := by
    cases hall : entries.all fun e ↦ !e.exits with
    | true => exact outText_endOfInput entries
    | false =>
        obtain ⟨e, hgetLast, hexits⟩ := h.getLast?_of_not_all hall
        have hasks : asksLast entries = false := by
          rw [asksLast, hgetLast, Option.any_some, Entry.asks]
          rw [Entry.exits, Bool.not_eq_false', beq_iff_eq] at hexits
          rw [hexits]
          rfl
        rw [hasks]
        rfl
  have hchance : laterDraws chance (drawnBy []) = chance := laterDraws_zero chance
  rw [hlast, hchance] at hanswer
  exact hanswer

/-- The answer that consists of the entries of a dialogue. A request for a path that gets no
line is given up for one more command. -/
def dialogueAnswer (files : FileStore) (entries : List Entry) : Shell.Answer where
  code := 0
  stdout := greeting ++ commandPrompt ++
    String.join (entries.map fun e ↦ e.text ++ promptAfter commandPrompt e.ending) ++
    if asksLast entries then commandPrompt else ""
  stderr := String.join (entries.map Entry.reported)
  files := files

theorem run_eq_dialogueAnswer {args : List String} (hargs : Command.ofArguments? args = some .repl)
    {chance : Nat → Float} {fuel fuel' : Nat} (hfuel : fuel ≤ fuel') {files : FileStore}
    {input : String} {entries : List Entry}
    (h : IsDialogue chance fuel files (Shell.inputLines input) entries)
    (hend : ∀ e ∈ entries, e.Terminates) :
    Shell.run chance fuel' files input args = dialogueAnswer files entries := by
  obtain ⟨⟨hout, herr⟩, hcode⟩ := converse_dialogue hfuel h hend
  have hchance : laterDraws chance (awaitCommand [.out greeting] .empty).drawn = chance :=
    laterDraws_zero chance
  have hopening :
      outText (awaitCommand [.out greeting] .empty).shown = greeting ++ commandPrompt := by
    rw [awaitCommand, outText_append, outText_cons, outText_cons, outText_nil,
      String.append_empty, String.append_empty]
    rfl
  rw [Shell.run, hargs, dialogueAnswer]
  simp only [Shell.runCommand, Shell.converseFrom, Shell.Answer.of, Shell.Answer.mk.injEq]
  rw [hchance]
  refine ⟨hcode, ?_, ?_, trivial⟩
  · refine (outText_append ..).trans ?_
    rw [hopening]
    exact (congrArg _ hout).trans (String.append_assoc ..).symm
  · exact (errText_append ..).trans ((congrArg _ herr).trans (String.empty_append ..))

/-- A command run after others where chance yields nothing but zeros. -/
def told (past : List Entry) (source : String) : Entry :=
  .command (runSource (fun _ ↦ 0.0) 0 (environmentAfter past) source)

/-- A declaration, a blank line, and a command that fails after an assignment. -/
def preparing : List Entry :=
  let declared := told [] "this \"x\" is \"1\""
  [declared, .blank, told [declared, .blank] "set \"x\" is \"2\" set \"y\" is \"3\""]

/-- Then a file is asked for and fails, and the last command still finds the variable. -/
def leaving : List Entry :=
  let asked := preparing ++ [told preparing "openfile", visited "next.vx" nextSource]
  asked ++ [told asked "debug! x:var bussin"]

def leavingLines : List String :=
  ["this \"x\" is \"1\"", " ", "set \"x\" is \"2\" set \"y\" is \"3\"", "openfile", "next.vx",
    "debug! x:var bussin", "debug! \"unread\""]

theorem eq_nextEntry_of_command {past : List Entry} (hasks : asksLast past = false) {line : String}
    {e : Entry} (he : e = commandEntry (fun _ ↦ 0.0) 0 (environmentAfter past) line) :
    e = nextEntry (fun _ ↦ 0.0) 0 linked past line := by
  rw [nextEntry, if_neg (by rw [hasks]; exact Bool.false_ne_true)]
  exact he

theorem eq_nextEntry_of_file {past : List Entry} (hasks : asksLast past = true) {line : String}
    {e : Entry} (he : nextFile (fun _ ↦ 0.0) 0 linked past (pathOfLine line) = e) :
    e = nextEntry (fun _ ↦ 0.0) 0 linked past line := by
  rw [nextEntry, if_pos hasks]
  exact he.symm

theorem isDialogue_leaving : IsDialogue (fun _ ↦ 0.0) 0 linked leavingLines leaving := by
  have hnext := nextFile_linked (show linked.read "next.vx" = .ok nextSource by cbv)
  refine .go (eq_nextEntry_of_command (by decide +kernel) rfl) (by decide +kernel) ?_
  refine .go (eq_nextEntry_of_command (by decide +kernel) rfl) (by decide +kernel) ?_
  refine .go (eq_nextEntry_of_command (by decide +kernel) rfl) (by decide +kernel) ?_
  refine .go (eq_nextEntry_of_command (by decide +kernel) rfl) (by decide +kernel) ?_
  refine .go (eq_nextEntry_of_file (by decide +kernel) (hnext _)) (by decide +kernel) ?_
  exact .stop (eq_nextEntry_of_command (by decide +kernel) rfl) (by decide +kernel) _

def leavingInput : String := String.intercalate "\n" leavingLines

/-- An input that goes on differently after the last line that is read. -/
def otherInput : String := String.intercalate "\n" (leavingLines.take 6 ++ ["openfile", "x"])

end VexLang
