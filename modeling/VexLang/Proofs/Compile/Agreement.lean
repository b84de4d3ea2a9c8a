import VexLang.Proofs.Compile.Compiled

/-!
# Interpreted and compiled programs agree

A portable program without loops prints the same values when it is interpreted and when it
is compiled. With counting loops the two agree as long as every test of a loop would
come out the same with the limit evaluated anew, and only then: generated code has no
memory of the limit that a loop began with. Of the values that are printed, a negative zero
is the only one that the two show differently.
-/

namespace VexLang

open JavaScript

theorem outputOf_moments (moments : List Moment) :
    outputOf (moments.flatMap Moment.events) =
      lines ((printedValues moments).map Value.toText) := by
  induction moments with
  | nil => rfl
  | cons moment moments ih =>
      rw [List.flatMap_cons, outputOf_append, ih]
      cases moment with
      | line v =>
          rw [Moment.events, outputOf_line, printedValues_line, List.map_cons, lines_cons]
          rfl
      | test times count limit env =>
          rw [printedValues_test]
          exact String.empty_append

theorem output_marks (moments : List Moment) :
    String.join ((moments.map Moment.mark).map Mark.output) =
      lines ((printedValues moments).map printedText) := by
  induction moments with
  | nil => rfl
  | cons moment moments ih =>
      rw [List.map_cons, List.map_cons, String.join_cons, ih]
      cases moment with
      | line v =>
          rw [printedValues_line, List.map_cons, lines_cons]
          rfl
      | test times count limit env =>
          rw [printedValues_test]
          exact String.empty_append

theorem length_lines_printedText (values : List Value) :
    (lines (values.map printedText)).length =
      (lines (values.map Value.toText)).length + values.countP isNegativeZero := by
  induction values with
  | nil => rfl
  | cons v values ih =>
      simp only [List.map_cons, lines_cons, String.length_append, length_printedText, ih,
        List.countP_cons]
      cases isNegativeZero v <;> simp <;> omega

/-- The console shows the same as the texts of the values unless there is a sign more. -/
theorem lines_printedText_eq_iff (values : List Value) :
    lines (values.map printedText) = lines (values.map Value.toText) ↔
      ∀ v ∈ values, isNegativeZero v = false := by
  constructor
  · intro hsame
    have hlength := length_lines_printedText values
    rw [hsame] at hlength
    have hnone : values.countP isNegativeZero = 0 := by omega
    intro v hv
    exact Bool.eq_false_iff.mpr (List.countP_eq_zero.mp hnone v hv)
  · intro hunsigned
    have htexts : values.map printedText = values.map Value.toText := by
      apply List.map_congr_left
      intro v hv
      rw [printedText, hunsigned v hv, if_neg Bool.false_ne_true]
    rw [htexts]

/-- The task has no counting loops. -/
def Task.Loopless : Task → Prop
  | .body nodes => ∃ usable scope, PortableProgram usable false scope nodes
  | .rounds .. => False

/-- Without loops there is nothing that could be unsteady. -/
theorem Course.steady {task : Task} {env env' : Environment} {moments : List Moment}
    (h : Course task env moments env') (hloopless : task.Loopless) :
    ∀ moment ∈ moments, moment.Steady := by
  induction h with
  | done => simp
  | declaration hrest ih =>
      obtain ⟨usable, scope, hportable⟩ := hloopless
      cases hportable with
      | declaration _ _ _ hprogram => exact ih ⟨usable, _, hprogram⟩
      | statement hnode _ => cases hnode
  | assignment hassign hrest ih =>
      obtain ⟨usable, scope, hportable⟩ := hloopless
      cases hportable with
      | statement _ hprogram => exact ih ⟨usable, scope, hprogram⟩
  | print hrest ih =>
      obtain ⟨usable, scope, hportable⟩ := hloopless
      cases hportable with
      | statement _ hprogram =>
          intro moment hmoment
          rcases List.mem_append.mp hmoment with hline | hmoment
          · obtain ⟨param, -, rfl⟩ := List.mem_map.mp hline
            trivial
          · exact ih ⟨usable, scope, hprogram⟩ moment hmoment
  | branch hchosen hrest ihchosen ihrest =>
      obtain ⟨usable, scope, hportable⟩ := hloopless
      cases hportable with
      | statement hnode hprogram =>
          cases hnode with
          | branch kind hcondition hbody halternate =>
              intro moment hmoment
              rcases List.mem_append.mp hmoment with hmoment | hmoment
              · exact ihchosen ⟨usable, scope, .of_nodes (forall_chosen hbody halternate _)⟩
                  moment hmoment
              · exact ihrest ⟨usable, scope, hprogram⟩ moment hmoment
  | loop hrounds hrest ihrounds ihrest =>
      obtain ⟨usable, scope, hportable⟩ := hloopless
      cases hportable with
      | statement hnode hprogram =>
          cases hnode with
          | loop hloops htimes hbody => cases hloops
  | last hlimit => exact hloopless.elim
  | next hlimit hbody hrounds ihbody ihrounds => exact hloopless.elim

/-- A program without loops prints the same values interpreted and compiled, and neither run
fails. The outputs are the same exactly if no negative zero is printed, the sign of which is
shown by generated code alone. -/
theorem compiled_output_eq_iff (engine : Engine) {program : Program}
    (h : PortableProgram engine.usable false [] program) (chance : Nat → Float) (fuel : Nat) :
    ∃ moments w m enough, run (.quiet chance) fuel program (.start .empty false) = (.done, w) ∧
      Course (.body program) .empty moments w.env ∧
      (∀ bound, enough ≤ bound → runScript engine bound (emitBody program) .start = .ok () m) ∧
      outputOf w.events.toList = lines ((printedValues moments).map Value.toText) ∧
      m.output = lines ((printedValues moments).map printedText) ∧
      (m.output = outputOf w.events.toList ↔
        ∀ v ∈ printedValues moments, isNegativeZero v = false) := by
  rcases h.follows chance fuel (.start .empty false) rfl
      (fun x c hx ↦ absurd hx List.not_mem_nil) with
    ⟨moments, w, hrun, hcourse, hadvance⟩ | ⟨hloops, -⟩
  · have hsteady := hcourse.steady ⟨engine.usable, [], h⟩
    obtain ⟨m, -, htrace, enough, hok⟩ := (h.tracks_script hcourse).forward hsteady
    have hevents : w.events.toList = moments.flatMap Moment.events := hadvance.events
    have htexts := outputOf_moments moments
    rw [← hevents] at htexts
    have hshown : m.output = lines ((printedValues moments).map printedText) := by
      rw [Machine.output, htrace]
      exact output_marks moments
    refine ⟨moments, w, m, enough, hrun, hcourse, fun bound hbound ↦ hok bound bound hbound hbound,
      htexts, hshown, ?_⟩
    rw [hshown, htexts]
    exact lines_printedText_eq_iff _
  · cases hloops

/-- Names of plain letters, other than those that the prelude is written with. -/
def letterNames : Engine where
  isName name := name.toList.all Char.isAlpha && !(["const", "if", "return", "typeof"].contains name)
  chance _ := 0.0

/-- Both branches of a condition, a phrase, and a sum that is a text. -/
def visit : Program :=
  [.declaration "n" (.literal (.number 1.0)) false,
    .declaration "who" (.text "Ada") true,
    .assignment "n" (.arithmetic (.cast (.identifier "n") .var) .plus
      (.cast (.literal (.number 2.0)) .num)),
    .branch .opening (.comparison (.cast (.text "n") .var) (.text "3"))
      [.call printCommand [.text "sum"]]
      (some (.branch .continuing (.literal (.boolean true))
        [.call printCommand
          [.phrase [.text "hello", .cast (.identifier "who") .var, .literal (.number 3.0)]]]
        none))]

theorem visit_portable : PortableProgram letterNames.usable false [] visit := by
  have hliteral : ∀ v ∈ [Value.number 1.0, .number 2.0, .number 3.0], IsLiteral v := by
    decide +kernel
  have hsum : PortableNode false [("who", true), ("n", false)]
      (.call printCommand [.text "sum"]) :=
    .print (by simpa using .term (.literal trivial))
  have hphrase : PortableNode false [("who", true), ("n", false)] (.call printCommand
      [.phrase [.text "hello", .cast (.identifier "who") .var, .literal (.number 3.0)]]) := by
    refine .print ?_
    simp only [List.mem_singleton, forall_eq]
    refine .phrase ?_
    simp only [List.forall_mem_cons]
    exact ⟨.literal trivial, .word (c := true) (by simp), .literal (hliteral _ (by simp)), by simp⟩
  refine .declaration (by decide) (by simp) (.term (.literal (hliteral _ (by simp)))) ?_
  refine .declaration (by decide) (by simp) (.term (.literal trivial)) ?_
  refine .statement (.assignment (by simp) (.term (.arithmetic .plus (.word (c := false) (by simp))
    (.cast (hliteral _ (by simp)) (by simp) rfl)))) ?_
  refine .statement (.branch .opening (.comparison (.quoted (c := false) (by simp))
    (.literal trivial)) ?_ ?_) .nil
  · simpa using hsum
  · simp only [Option.mem_some_iff, forall_eq']
    exact .branch .continuing (.literal trivial) (by simpa using hphrase) (by simp)

theorem compiled_output_visit :
    PortableProgram letterNames.usable false [] visit ∧
      ∃ moments w m enough, run (.quiet fun _ ↦ 0.0) 0 visit (.start .empty false) = (.done, w) ∧
        Course (.body visit) .empty moments w.env ∧
        (∀ bound, enough ≤ bound →
          runScript letterNames bound (emitBody visit) .start = .ok () m) ∧
        outputOf w.events.toList = lines ((printedValues moments).map Value.toText) ∧
        m.output = lines ((printedValues moments).map printedText) ∧
        (m.output = outputOf w.events.toList ↔
          ∀ v ∈ printedValues moments, isNegativeZero v = false) :=
  ⟨visit_portable, compiled_output_eq_iff letterNames visit_portable (fun _ ↦ 0.0) 0⟩

/-- The output of a run of generated code that comes to its end. -/
def endedOutput? : EStateM.Result Halt Machine Unit → Option String
  | .ok _ m => some m.output
  | .error .. => none

theorem exists_of_endedOutput? {result : EStateM.Result Halt Machine Unit} {output : String}
    (h : endedOutput? result = some output) : ∃ m, result = .ok () m ∧ m.output = output := by
  cases result with
  | ok u m => exact ⟨m, rfl, Option.some.inj h⟩
  | error e m => cases h

/-- The text of a negative zero is cast to a number and printed. -/
def signedZero : Program :=
  [.call printCommand [.cast (.text "-0") .num]]

/-- The sign of a zero is printed by generated code alone. -/
theorem compiled_output_signed :
    PortableProgram letterNames.usable false [] signedZero ∧
    (∃ w, run (.quiet fun _ ↦ 0.0) 0 signedZero (.start .empty false) = (.done, w) ∧
      outputOf w.events.toList = "0\n") ∧
    ∃ m, runScript letterNames 0 (emitBody signedZero) .start = .ok () m ∧ m.output = "-0\n" := by
  have hcast : PortableTerm [] (.cast (.text "-0") .num) := .cast trivial (by simp) rfl
  have hprint : PortableNode false [] (.call printCommand [.cast (.text "-0") .num]) :=
    .print (by simpa using .term hcast)
  refine ⟨.statement hprint .nil, ⟨_, rfl, by decide +kernel⟩, ?_⟩
  exact exists_of_endedOutput? (by decide +kernel)

/-- When the interpreter comes to the end of a program, generated code makes the same tests, with
lines in the same places, exactly if all tests are steady. It prints the same exactly if, besides,
no negative zero is printed. -/
theorem compiled_trace_iff_steady (engine : Engine) {program : Program}
    (h : PortableProgram engine.usable true [] program) {chance : Nat → Float} {fuel : Nat}
    {w : World} (hrun : run (.quiet chance) fuel program (.start .empty false) = (.done, w)) :
    ∃ moments, Course (.body program) .empty moments w.env ∧
      ((∃ bound m, runScript engine bound (emitBody program) .start = .ok () m ∧
        m.outcomes = moments.map Moment.outcome?) ↔ ∀ moment ∈ moments, moment.Steady) ∧
      ((∃ bound m, runScript engine bound (emitBody program) .start = .ok () m ∧
        m.outcomes = moments.map Moment.outcome? ∧ m.output = outputOf w.events.toList) ↔
          (∀ moment ∈ moments, moment.Steady) ∧
            ∀ v ∈ printedValues moments, isNegativeZero v = false) := by
  rcases h.follows chance fuel (.start .empty false) rfl
      (fun x c hx ↦ absurd hx List.not_mem_nil) with
    ⟨moments, w', hrun', hcourse, hadvance⟩ | ⟨-, w', hrun'⟩
  · rw [hrun] at hrun'
    cases hrun'
    have hevents : w.events.toList = moments.flatMap Moment.events := hadvance.events
    have htracks : Tracks moments (fun _ ↦ True)
      (fun fuel _ ↦ runScript engine fuel (emitBody program)) .start := h.tracks_script hcourse
    refine ⟨moments, hcourse, ?_, ?_⟩
    · have houtcomes := htracks.exists_iff fun _ ↦ True
      simp only [and_true] at houtcomes
      exact houtcomes
    · have houtput : String.join ((moments.map Moment.mark).map Mark.output) =
          outputOf w.events.toList ↔ ∀ v ∈ printedValues moments, isNegativeZero v = false := by
        rw [output_marks, hevents, outputOf_moments]
        exact lines_printedText_eq_iff _
      rw [← houtput]
      exact htracks.exists_iff fun trace ↦
        String.join (trace.map Mark.output) = outputOf w.events.toList
  · rw [hrun] at hrun'
    cases hrun'

/-- A loop in a loop; neither touches what it is counted by. -/
def tally : Program :=
  [.declaration "n" (.cast (.literal (.number 2.0)) .num) false,
    .declaration "text" (.text "") false,
    .loop (some (.cast (.identifier "n") .var))
      [.assignment "text" (.arithmetic (.cast (.identifier "text") .var) .plus (.text "x")),
        .loop (some (.cast (.identifier "n") .var))
          [.call printCommand [.cast (.identifier "text") .var]]]]

theorem tally_portable : PortableProgram letterNames.usable true [] tally := by
  have hliteral : IsLiteral (.number 2.0) := by decide +kernel
  have hscope : Scope.inLoop [("text", false), ("n", false)] = [("text", false), ("n", false)] := by
    decide
  have hprint : PortableNode true [("text", false), ("n", false)]
      (.call printCommand [.cast (.identifier "text") .var]) :=
    .print (by simpa using .term (.word (c := false) (by simp)))
  have hinner : PortableNode true [("text", false), ("n", false)]
      (.loop (some (.cast (.identifier "n") .var))
        [.call printCommand [.cast (.identifier "text") .var]]) :=
    .loop rfl (.word (c := false) (by decide)) (by simpa [hscope] using hprint)
  have hassign : PortableNode true [("text", false), ("n", false)] (.assignment "text"
      (.arithmetic (.cast (.identifier "text") .var) .plus (.text "x"))) :=
    .assignment (by simp) (.term (.arithmetic .plus (.word (c := false) (by simp))
      (.literal trivial)))
  refine .declaration (by decide) (by simp) (.term (.cast hliteral (by simp) rfl)) ?_
  refine .declaration (by decide) (by simp) (.term (.literal trivial)) ?_
  refine .statement (.loop rfl (.word (c := false) (by decide)) ?_) .nil
  rw [hscope]
  simp only [List.forall_mem_cons]
  exact ⟨hassign, hinner, by simp⟩

set_option maxRecDepth 4000 in
theorem compiled_trace_tally :
    ∃ w, run (.quiet fun _ ↦ 0.0) 20 tally (.start .empty false) = (.done, w) ∧
      ∃ moments, Course (.body tally) .empty moments w.env ∧
        ((∃ bound m, runScript letterNames bound (emitBody tally) .start = .ok () m ∧
          m.outcomes = moments.map Moment.outcome?) ↔ ∀ moment ∈ moments, moment.Steady) ∧
        ((∃ bound m, runScript letterNames bound (emitBody tally) .start = .ok () m ∧
          m.outcomes = moments.map Moment.outcome? ∧ m.output = outputOf w.events.toList) ↔
            (∀ moment ∈ moments, moment.Steady) ∧
              ∀ v ∈ printedValues moments, isNegativeZero v = false) := by
  obtain ⟨w, hrun⟩ : ∃ w, run (.quiet fun _ ↦ 0.0) 20 tally (.start .empty false) = (.done, w) :=
    ⟨_, rfl⟩
  exact ⟨w, hrun, compiled_trace_iff_steady letterNames tally_portable hrun⟩

/-- The body lowers the count of its own loop. -/
def shrinking : Program :=
  [.declaration "n" (.cast (.literal (.number 3.0)) .num) false,
    .loop (some (.cast (.identifier "n") .var))
      [.assignment "n" (.cast (.literal (.number 0.0)) .num), .call printCommand [.text "round"]]]

/-- The body counts with a variable that has the name of the counter. -/
def captured : Program :=
  [.declaration "i" (.cast (.literal (.number 0.0)) .num) false,
    .loop (some (.literal (.number 3.0)))
      [.assignment "i" (.arithmetic (.cast (.identifier "i") .var) .plus
        (.cast (.literal (.number 1.0)) .num))],
    .call printCommand [.cast (.text "i") .var]]

set_option maxRecDepth 4000 in
/-- Generated code evaluates the limit for every test, and counts in a variable that the
program may have, too. -/
theorem compiled_output_ne :
    ((∃ w, run (.quiet fun _ ↦ 0.0) 9 shrinking (.start .empty false) = (.done, w) ∧
        outputOf w.events.toList = "round\nround\nround\n") ∧
      ∃ m, runScript letterNames 9 (emitBody shrinking) .start = .ok () m ∧
        m.output = "round\n") ∧
    ((∃ w, run (.quiet fun _ ↦ 0.0) 9 captured (.start .empty false) = (.done, w) ∧
        outputOf w.events.toList = "3\n") ∧
      ∃ m, runScript letterNames 9 (emitBody captured) .start = .ok () m ∧ m.output = "0\n") := by
  refine ⟨⟨⟨_, rfl, ?_⟩, exists_of_endedOutput? ?_⟩, ⟨⟨_, rfl, ?_⟩, exists_of_endedOutput? ?_⟩⟩
  all_goals decide +kernel

end VexLang
