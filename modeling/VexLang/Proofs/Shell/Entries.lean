import VexLang.Proofs.Run.Fuel
import VexLang.Proofs.Shell.Chronicle
import VexLang.Shell

/-!
# What the console does with its input

An entry is what the console does with one line of input, or with the file that it was
started for: it passes a blank command over, runs a command, or opens a file. The console
shows the text of every entry and then the prompt that the entry leads to, and reports the
entries that fail. The source of an entry is run on its own, so that more fuel than it needs
changes nothing.
-/

namespace VexLang

open Console

inductive Entry where
  /-- A blank command. -/
  | blank
  | command (r : StepReport)
  | file (path : String) (found : Except FileError StepReport)

namespace Entry

def ending : Entry → Ending
  | blank => .finished
  | command r => .ofResult r.result
  | file path (.error e) => .failed (readFailure path e)
  | file _ (.ok r) => .ofResult r.result

def asks (e : Entry) : Bool := e.ending == .requestFile

def exits (e : Entry) : Bool := e.ending == .exit

/-- Did the program of the entry end within the iterations granted? -/
def Terminates (e : Entry) : Prop := e.ending ≠ .endless

instance (e : Entry) : Decidable e.Terminates :=
  inferInstanceAs (Decidable (e.ending ≠ .endless))

/-- What is reported if the entry fails. -/
def error? (e : Entry) : Option String :=
  match e.ending with
  | .failed message => some message
  | _ => none

/-- The report on the entry, if it fails. -/
def reported (e : Entry) : String :=
  match e.error? with
  | some message => message ++ "\n"
  | none => ""

/-- What closes an output. It is left out after an error, and when the console is ended. -/
def closingAfter (closing : String) : Ending → String
  | .finished => closing
  | .requestFile => closing
  | _ => ""

theorem closingAfter_empty (ending : Ending) : closingAfter "" ending = "" := by
  cases ending <;> rfl

/-- The output of the entry. -/
def text : Entry → String
  | blank => ""
  | command r => eventsText r.events
  | file _ (.error _) => ""
  | file path (.ok r) =>
    banner (Path.fileName path) ++ eventsText r.events ++ closingAfter footer (.ofResult r.result)

/-- The number of times that chance was asked. -/
def drawn : Entry → Nat
  | command r => r.drawn
  | file _ (.ok r) => r.drawn
  | _ => 0

/-- The environment of the commands after the entry. A command that could not be read changes
nothing about it, and neither do files. -/
def environment (env : Environment) : Entry → Environment
  | command r =>
    match r.result with
    | .unreadable _ => env
    | .ran _ => r.env
  | _ => env

end Entry

def drawnBy : List Entry → Nat
  | [] => 0
  | e :: entries => e.drawn + drawnBy entries

/-- The environment that commands leave which are run one after the other. -/
def environmentAfter (entries : List Entry) : Environment :=
  entries.foldl Entry.environment .empty

/-- A file that is opened, and run in an environment of its own. -/
def fileEntry (chance : Nat → Float) (fuel : Nat) (files : FileStore) (path : String) : Entry :=
  .file path ((files.read path).map (runSource chance fuel .empty))

/-- A line that is taken as a command. -/
def commandEntry (chance : Nat → Float) (fuel : Nat) (env : Environment) (line : String) : Entry :=
  match trim line.toList with
  | [] => .blank
  | source => .command (runSource chance fuel env (String.ofList source))

theorem laterDraws_zero (chance : Nat → Float) : laterDraws chance 0 = chance := by
  funext i
  rw [laterDraws, Nat.zero_add]

theorem laterDraws_laterDraws (chance : Nat → Float) (m n : Nat) :
    laterDraws (laterDraws chance m) n = laterDraws chance (m + n) := by
  funext i
  rw [laterDraws, laterDraws, laterDraws, Nat.add_assoc]

theorem drawnBy_append (entries : List Entry) (e : Entry) :
    drawnBy (entries ++ [e]) = drawnBy entries + e.drawn := by
  induction entries with
  | nil => exact Nat.add_comm ..
  | cons first entries ih => rw [List.cons_append, drawnBy, ih, drawnBy, Nat.add_assoc]

theorem environmentAfter_append (entries : List Entry) (e : Entry) :
    environmentAfter (entries ++ [e]) = e.environment (environmentAfter entries) := by
  rw [environmentAfter, List.foldl_append]
  rfl

/-! ## Single turns -/

/-- A source that ends within its iterations is run in the same way with more fuel. -/
theorem runSource_prolongs {chance : Nat → Float} {fuel fuel' : Nat} (hfuel : fuel ≤ fuel')
    {env : Environment} {source : String}
    (hend : Ending.ofResult (runSource chance fuel env source).result ≠ .endless) :
    runSource chance fuel' env source = runSource chance fuel env source := by
  rw [runSource, SessionStep.perform] at hend ⊢
  rw [runSource, SessionStep.perform]
  cases hread : Program.ofSource source with
  | error e => rfl
  | ok program =>
      rw [hread] at hend
      simp only at hend ⊢
      rw [run_prolongs hfuel]
      intro hout
      rw [hout] at hend
      exact hend rfl

/-- A command that cannot be read leaves its environment as it is. -/
theorem runSource_env_of_unreadable {chance : Nat → Float} {fuel : Nat} {env : Environment}
    {source : String} {e : SourceError}
    (h : (runSource chance fuel env source).result = .unreadable e) :
    (runSource chance fuel env source).env = env := by
  rw [runSource, SessionStep.perform] at h ⊢
  cases hread : Program.ofSource source with
  | error e => rfl
  | ok program =>
      rw [hread] at h
      cases h

theorem environment_command (chance : Nat → Float) (fuel : Nat) (env : Environment)
    (source : String) :
    (Entry.command (runSource chance fuel env source)).environment env =
      (runSource chance fuel env source).env := by
  rw [Entry.environment]
  split
  · exact (runSource_env_of_unreadable ‹_›).symm
  · rfl

namespace Console

/-- What the console waits for once it has nothing to do. -/
def idle (code : Nat) : Option Environment → Mode
  | some env => .command env
  | none => .closed code

def idlePrompt (back : Option Environment) : String :=
  if back.isSome then commandPrompt else ""

/-- What the console waits for after an ending; `code` stands for a failure that ends it. -/
def modeAfter (code : Nat) (back : Option Environment) : Ending → Mode
  | .finished => idle 0 back
  | .exit => .closed 0
  | .requestFile => .path back
  | .failed _ => idle code back
  | .endless => .closed failureCode

/-- The prompt after an ending, when `atRest` is the one for the next command. -/
def promptAfter (atRest : String) : Ending → String
  | .finished => atRest
  | .requestFile => pathPrompt
  | .failed _ => atRest
  | _ => ""

/-- The text of chunks on either channel. -/
def outText (shown : List Chunk) : String := String.join (shown.map Chunk.stdout)

def errText (shown : List Chunk) : String := String.join (shown.map Chunk.stderr)

theorem outText_append (shown more : List Chunk) :
    outText (shown ++ more) = outText shown ++ outText more := by
  rw [outText, List.map_append, String.join_append]
  rfl

theorem errText_append (shown more : List Chunk) :
    errText (shown ++ more) = errText shown ++ errText more := by
  rw [errText, List.map_append, String.join_append]
  rfl

/-- The turn shows the entry and a prompt, and leads to a mode. -/
structure Turn.Shows (turn : Turn) (e : Entry) (shownPrompt : String) (mode : Mode) : Prop where
  stdout : outText turn.shown = e.text ++ shownPrompt
  stderr : errText turn.shown = e.reported
  mode : turn.mode = mode
  drawn : turn.drawn = e.drawn

@[simp] theorem outText_nil : outText [] = "" := rfl

@[simp] theorem outText_cons (c : Chunk) (shown : List Chunk) :
    outText (c :: shown) = c.stdout ++ outText shown := String.join_cons

@[simp] theorem errText_nil : errText [] = "" := rfl

@[simp] theorem errText_cons (c : Chunk) (shown : List Chunk) :
    errText (c :: shown) = c.stderr ++ errText shown := String.join_cons

theorem errText_report (message : String) : errText [report message] = message ++ "\n" :=
  String.join_cons.trans (String.append_empty ..)

@[simp] theorem outText_goBack (shown : List Chunk) (back : Option Environment) :
    outText (goBack shown back).shown = outText shown ++ idlePrompt back := by
  cases back with
  | none => exact (String.append_empty ..).symm
  | some env => simp [goBack, awaitCommand, outText_append, idlePrompt, Chunk.stdout]

@[simp] theorem errText_goBack (shown : List Chunk) (back : Option Environment) :
    errText (goBack shown back).shown = errText shown := by
  cases back with
  | none => rfl
  | some env => simp [goBack, awaitCommand, errText_append, Chunk.stderr]

@[simp] theorem mode_goBack (shown : List Chunk) (back : Option Environment) :
    (goBack shown back).mode = idle 0 back := by
  cases back <;> rfl

/-- A failure is reported. It ends the console if it is started for this file only. -/
theorem afterFailure_shows (shown : List Chunk) (first : Bool) (back : Option Environment)
    (hfirst : first = true → back = none) :
    outText (afterFailure shown first back).shown = outText shown ++ idlePrompt back ∧
      errText (afterFailure shown first back).shown = errText shown ∧
      (afterFailure shown first back).mode = idle (if first then failureCode else 0) back := by
  cases first with
  | true =>
      obtain rfl := hfirst rfl
      exact ⟨(String.append_empty ..).symm, rfl, rfl⟩
  | false => exact ⟨outText_goBack shown back, errText_goBack shown back, mode_goBack shown back⟩

/-- The turn after a source was run, between what was shown of it and what closes it. -/
def Turn.afterRun (shown : List Chunk) (closing : List Chunk) (first : Bool)
    (back : Option Environment) : Ending → Turn
  | .finished => goBack (shown ++ closing) back
  | .exit => ⟨shown, .closed 0, 0⟩
  | .requestFile => awaitPath (shown ++ closing) back
  | .failed message => afterFailure (shown ++ [report message]) first back
  | .endless => ⟨shown, .closed failureCode, 0⟩

theorem shows_afterRun {e : Entry} (shown closing : List Chunk) (hquiet : errText shown = "")
    (hquiet' : errText closing = "")
    (htext : e.text = outText shown ++ Entry.closingAfter (outText closing) e.ending)
    (hend : e.Terminates) (first : Bool) (back : Option Environment)
    (hfirst : first = true → back = none) :
    ((Turn.afterRun shown closing first back e.ending).drawing e.drawn).Shows e
      (promptAfter (idlePrompt back) e.ending)
      (modeAfter (if first then failureCode else 0) back e.ending) := by
  cases hending : e.ending with
  | finished =>
      have hreported : e.reported = "" := by rw [Entry.reported, Entry.error?, hending]
      refine ⟨?_, ?_, mode_goBack _ back, rfl⟩
      · rw [htext, hending]
        exact (outText_goBack ..).trans (by rw [outText_append]; rfl)
      · exact (errText_goBack ..).trans (by rw [errText_append, hquiet, hquiet', hreported]; rfl)
  | exit =>
      have hreported : e.reported = "" := by rw [Entry.reported, Entry.error?, hending]
      refine ⟨?_, hquiet.trans hreported.symm, rfl, rfl⟩
      rw [htext, hending]
      exact ((String.append_empty ..).trans (String.append_empty ..)).symm
  | requestFile =>
      have hreported : e.reported = "" := by rw [Entry.reported, Entry.error?, hending]
      refine ⟨?_, ?_, rfl, rfl⟩
      · rw [htext, hending]
        exact (outText_append ..).trans (by rw [outText_append]; rfl)
      · exact (errText_append ..).trans (by rw [errText_append, hquiet, hquiet', hreported]; rfl)
  | failed message =>
      have hreported : e.reported = message ++ "\n" := by
        rw [Entry.reported, Entry.error?, hending]
      obtain ⟨hout, herr, hmode⟩ :=
        afterFailure_shows (shown ++ [report message]) first back hfirst
      refine ⟨hout.trans ?_, herr.trans ?_, hmode, rfl⟩
      · rw [htext, hending, outText_append]
        rfl
      · rw [errText_append, hquiet, hreported, String.empty_append, errText_report]
  | endless => exact absurd hending hend

theorem shows_openFile {chance : Nat → Float} {fuel fuel' : Nat} (hfuel : fuel ≤ fuel')
    {files : FileStore} {path : String} {e : Entry} (he : e = fileEntry chance fuel files path)
    (hend : e.Terminates) (first : Bool) (back : Option Environment)
    (hfirst : first = true → back = none) :
    (openFile chance fuel' first back path (files.read path)).Shows e
      (promptAfter (idlePrompt back) e.ending)
      (modeAfter (if first then failureCode else 0) back e.ending) := by
  rw [fileEntry] at he
  cases hread : files.read path with
  | error error =>
      obtain rfl : e = .file path (.error error) := by
        rw [he, hread]
        rfl
      obtain ⟨hout, herr, hmode⟩ :=
        afterFailure_shows [report (readFailure path error)] first back hfirst
      have hdrawn : (afterFailure [report (readFailure path error)] first back).drawn = 0 := by
        cases first <;> cases back <;> rfl
      exact ⟨hout, herr.trans (errText_report _), hmode, hdrawn⟩
  | ok source =>
      obtain rfl : e = .file path (.ok (runSource chance fuel .empty source)) := by
        rw [he, hread]
        rfl
      rw [openFile, runFile, runSource_prolongs hfuel hend]
      exact shows_afterRun _ [.out footer] (String.append_empty ..) (String.append_empty ..) rfl
        hend first back hfirst

theorem shows_runCommand {chance : Nat → Float} {fuel fuel' : Nat} (hfuel : fuel ≤ fuel')
    {env : Environment} {line : String} {e : Entry} (he : e = commandEntry chance fuel env line)
    (hend : e.Terminates) :
    (runCommand chance fuel' env line).Shows e (promptAfter commandPrompt e.ending)
      (modeAfter 0 (some (e.environment env)) e.ending) := by
  rw [commandEntry] at he
  rw [runCommand]
  cases htrim : trim line.toList with
  | nil =>
      rw [htrim] at he
      subst he
      exact ⟨rfl, rfl, rfl, rfl⟩
  | cons c cs =>
      rw [htrim] at he
      subst he
      simp only at hend ⊢
      rw [runSource_prolongs hfuel hend, environment_command]
      generalize hrun : runSource chance fuel env (String.ofList (c :: cs)) = r
      have htext : (Entry.command r).text = outText [.out (eventsText r.events)] ++
          Entry.closingAfter (outText []) (Entry.command r).ending := by
        rw [outText_nil, Entry.closingAfter_empty, outText_cons, outText_nil, String.append_empty,
          String.append_empty]
        rfl
      rw [hrun] at hend
      exact shows_afterRun _ [] (String.append_empty ..) rfl htext hend false (some r.env)
        Bool.false_ne_true.elim

/-! ## Conversations -/

theorem converse_closed (chance : Nat → Float) (fuel : Nat)
    (read : String → Except FileError String) (code : Nat) (lines : List String) :
    converse chance fuel read (.closed code) lines = ([], code) := by
  cases lines <;> rfl

theorem converse_nil (chance : Nat → Float) (fuel : Nat)
    (read : String → Except FileError String) {mode : Mode} (hopen : ∀ code, mode ≠ .closed code) :
    converse chance fuel read mode [] = (endOfInput mode, 0) := by
  cases mode with
  | command env => rfl
  | path back => rfl
  | closed code => exact absurd rfl (hopen code)

theorem converse_cons (chance : Nat → Float) (fuel : Nat)
    (read : String → Except FileError String) {mode : Mode} (hopen : ∀ code, mode ≠ .closed code)
    (line : String) (lines : List String) :
    converse chance fuel read mode (line :: lines) =
      let turn := takeLine chance fuel read line mode
      let rest := converse (laterDraws chance turn.drawn) fuel read turn.mode lines
      (turn.shown ++ rest.1, rest.2) := by
  cases mode with
  | command env => rfl
  | path back => rfl
  | closed code => exact absurd rfl (hopen code)

/-- What the two channels get from entries, each with its prompt, and what else is shown. -/
structure Tells (prompt : Ending → String) (entries : List Entry) (last : String)
    (shown : List Chunk) : Prop where
  stdout : outText shown = String.join (entries.map fun e ↦ e.text ++ prompt e.ending) ++ last
  stderr : errText shown = String.join (entries.map Entry.reported)

theorem Tells.cons {prompt : Ending → String} {entries : List Entry} {last : String}
    {shown : List Chunk} (h : Tells prompt entries last shown) {turn : Turn} {e : Entry}
    {mode : Mode} (hturn : turn.Shows e (prompt e.ending) mode) :
    Tells prompt (e :: entries) last (turn.shown ++ shown) where
  stdout := by
    rw [outText_append, hturn.stdout, h.stdout, List.map_cons, String.join_cons]
    exact (String.append_assoc ..).symm
  stderr := by
    rw [errText_append, hturn.stderr, h.stderr, List.map_cons, String.join_cons]

/-- If every turn makes the next entry of a chronicle, the console tells the entries one after
the other. The chronicle may end the console, or the input ends it. -/
theorem converse_tells {chance : Nat → Float} {fuel : Nat} {read : String → Except FileError String}
    {step : List Entry → String → Entry} {goesOn : Entry → Bool} {prompt : Ending → String}
    (mode : List Entry → Mode) (hopen : ∀ past code, mode past ≠ .closed code)
    (hturn : ∀ past line e, e = step past line → e.Terminates →
      (takeLine (laterDraws chance (drawnBy past)) fuel read line (mode past)).Shows e
        (prompt e.ending) (if goesOn e then mode (past ++ [e]) else .closed 0))
    {past entries : List Entry} {lines : List String}
    (h : Chronicle step goesOn past lines entries) (hend : ∀ e ∈ entries, e.Terminates) :
    let answer := converse (laterDraws chance (drawnBy past)) fuel read (mode past) lines
    Tells prompt entries
        (if entries.all goesOn then outText (endOfInput (mode (past ++ entries))) else "")
        answer.1 ∧ answer.2 = 0 := by
  induction lines generalizing past entries with
  | nil =>
      obtain rfl := chronicle_nil_iff.mp h
      rw [converse_nil _ _ _ (hopen past), List.append_nil]
      refine ⟨⟨(String.empty_append ..).symm, ?_⟩, rfl⟩
      cases mode past with
      | command env => rfl
      | path back => cases back <;> rfl
      | closed code => rfl
  | cons line lines ih =>
      obtain ⟨rest, rfl, hrest⟩ := chronicle_cons_iff.mp h
      obtain ⟨hfirst, hlater⟩ := List.forall_mem_cons.mp hend
      have hshows := hturn past line _ rfl hfirst
      have hmode := hshows.mode
      rw [converse_cons _ _ _ (hopen past)]
      simp only
      rw [hshows.drawn, laterDraws_laterDraws, ← drawnBy_append]
      rcases hrest with ⟨hon, hrest⟩ | ⟨hoff, rfl⟩
      · rw [if_pos hon] at hmode
        obtain ⟨htells, hcode⟩ := ih hrest hlater
        have hcons := htells.cons hshows
        rw [List.append_assoc] at hcons
        rw [hmode, List.all_cons, hon, Bool.true_and]
        exact ⟨hcons, hcode⟩
      · rw [hoff, if_neg Bool.false_ne_true] at hmode
        rw [hmode, converse_closed, List.all_cons, hoff, Bool.false_and]
        exact ⟨Tells.cons ⟨rfl, rfl⟩ hshows, rfl⟩

end Console

end VexLang
