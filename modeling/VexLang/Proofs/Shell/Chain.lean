import VexLang.Proofs.Shell.Entries

/-!
# Chains of files

A file may ask for another one, whose path is the next line of the input, and that file for
one more. Such a chain is a sequence of runs that have nothing in common but chance: each
shows what its source shows in a fresh environment, between a banner and a footer, and
reports its own error. The exit code is decided by the first file alone.
-/

namespace VexLang

open Console

/-- The lines of an input. -/
def Shell.inputLines (input : String) : List String :=
  (Shell.linesOf input.toList).map String.ofList

/-- The file under a path, opened after others. Only chance goes on from them. -/
def nextFile (chance : Nat → Float) (fuel : Nat) (files : FileStore) (past : List Entry)
    (path : String) : Entry :=
  fileEntry (laterDraws chance (drawnBy past)) fuel files path

/-- The files visited are the given one and then those that the lines name, one line for
each. A file that does not ask for another one ends the chain, as does the end of the
lines. -/
def IsChain (chance : Nat → Float) (fuel : Nat) (files : FileStore) (file : String)
    (lines : List String) (visits : List Entry) : Prop :=
  Chronicle (nextFile chance fuel files) Entry.asks [] (file :: lines.map pathOfLine) visits

theorem promptAfter_asks (e : Entry) :
    promptAfter "" e.ending = if e.asks then pathPrompt else "" := by
  rw [Entry.asks]
  cases e.ending <;> rfl

/-- Later files of a chain, which the console can only end after. -/
theorem shows_nextFile {chance : Nat → Float} {fuel fuel' : Nat} (hfuel : fuel ≤ fuel')
    (files : FileStore) (past : List Entry) (line : String) (e : Entry)
    (he : e = nextFile chance fuel files past (pathOfLine line)) (hend : e.Terminates) :
    (takeLine (laterDraws chance (drawnBy past)) fuel' files.read line (.path none)).Shows e
      (promptAfter "" e.ending) (if e.asks then .path none else .closed 0) := by
  have hshows := shows_openFile hfuel he hend false none fun _ ↦ rfl
  have hmode : modeAfter (if false = true then failureCode else 0) none e.ending =
      if e.asks then .path none else .closed 0 := by
    rw [Entry.asks]
    cases hending : e.ending with
    | endless => exact absurd hending hend
    | _ => rfl
  rw [hmode] at hshows
  exact hshows

/-- The first file of a chain decides on the exit code if it is the only one. -/
theorem modeAfter_first {e : Entry} (hasks : e.asks = false) (hend : e.Terminates) :
    modeAfter failureCode none e.ending =
      .closed (if e.error?.isSome then failureCode else 0) := by
  rw [Entry.asks] at hasks
  rw [Entry.error?]
  cases hending : e.ending with
  | finished => rfl
  | exit => rfl
  | requestFile =>
      rw [hending] at hasks
      cases hasks
  | failed message => rfl
  | endless => exact absurd hending hend

theorem ending_of_asks {e : Entry} (hasks : e.asks = true) : e.ending = .requestFile :=
  eq_of_beq hasks

theorem converseFrom_chain {chance : Nat → Float} {fuel fuel' : Nat} (hfuel : fuel ≤ fuel')
    {files : FileStore} {file : String} {lines : List String} {visits : List Entry}
    (h : IsChain chance fuel files file lines visits) (hend : ∀ e ∈ visits, e.Terminates) :
    let answer := Shell.converseFrom chance fuel' files lines
      (openFile chance fuel' true none file (files.read file))
    Tells (promptAfter "") visits "" answer.1 ∧
      answer.2 = if visits.head?.any fun e ↦ e.error?.isSome then failureCode else 0 := by
  obtain ⟨rest, rfl, hrest⟩ := chronicle_cons_iff.mp h
  obtain ⟨hfirst, hlater⟩ := List.forall_mem_cons.mp hend
  have he : nextFile chance fuel files [] file = fileEntry chance fuel files file :=
    congrArg (fileEntry · fuel files file) (laterDraws_zero chance)
  generalize nextFile chance fuel files [] file = e at he hrest hfirst
  have hshows := shows_openFile hfuel he hfirst true none fun _ ↦ rfl
  have hdrawn : drawnBy ([] ++ [e]) = e.drawn := (drawnBy_append [] e).trans (Nat.zero_add _)
  have hmode : _ = modeAfter failureCode none e.ending := hshows.mode
  simp only [Shell.converseFrom, hshows.drawn]
  rcases hrest with ⟨hasks, hrest⟩ | ⟨hasks, rfl⟩
  · have hnone : e.error? = none := by rw [Entry.error?, ending_of_asks hasks]
    obtain ⟨htells, hcode⟩ := converse_tells (fun _ ↦ .path none) (fun _ _ ↦ Mode.noConfusion)
      (shows_nextFile hfuel files) (chronicle_map_iff.mp hrest) hlater
    have hlast : (if rest.all Entry.asks then outText (endOfInput (.path none)) else "") = "" :=
      ite_self _
    rw [hlast] at htells
    rw [hmode, ending_of_asks hasks, modeAfter, ← hdrawn, List.head?_cons, Option.any_some, hnone]
    exact ⟨htells.cons hshows, hcode⟩
  · rw [hmode, modeAfter_first hasks hfirst, converse_closed]
    exact ⟨Tells.cons ⟨rfl, rfl⟩ hshows, rfl⟩

/-- A source that asks for a file, and one that fails. -/
def firstSource : String := "debug! \"one\" openfile debug! \"never\""

def nextSource : String := "debug! \"two\" set \"x\" is \"1\""

def linked : FileStore :=
  ⟨[⟨["first.vx"], some firstSource⟩, ⟨["next.vx"], some nextSource⟩]⟩

def linkedInput : String := " \"next.vx\" \nfirst.vx\n"

/-- A source run under a name where chance yields nothing but zeros. -/
def visited (path source : String) : Entry :=
  .file path (.ok (runSource (fun _ ↦ 0.0) 0 .empty source))

theorem nextFile_linked {path source : String} (hread : linked.read path = .ok source)
    (past : List Entry) : nextFile (fun _ ↦ 0.0) 0 linked past path = visited path source := by
  rw [nextFile, fileEntry, hread]
  rfl

theorem isChain_linked : IsChain (fun _ ↦ 0.0) 0 linked "first.vx" (Shell.inputLines linkedInput)
    [visited "first.vx" firstSource, visited "next.vx" nextSource] := by
  have hlines : (Shell.inputLines linkedInput).map pathOfLine = ["next.vx", "first.vx"] := by
    decide
  have hfirst := nextFile_linked (show linked.read "first.vx" = .ok firstSource by cbv)
  have hnext := nextFile_linked (show linked.read "next.vx" = .ok nextSource by cbv)
  rw [IsChain, hlines, chronicle_cons_iff]
  simp only [hfirst, chronicle_cons_iff, hnext]
  refine ⟨_, rfl, .inl ⟨by decide +kernel, [], rfl, .inr ⟨by decide +kernel, rfl⟩⟩⟩

end VexLang
