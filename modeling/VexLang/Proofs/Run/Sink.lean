import VexLang.Proofs.Run.Shown

/-!
# Runs whose sink closes

Next to a run whose sink takes every write, a run whose sink closes after some lines takes
the same steps until it has a line to write for which there is no room. There it fails, and
its output is made of the lines that found room. All printed texts are supposed to be single
lines, so that the sink is never closed between a text and its line end.
-/

namespace VexLang

open Effect

/-- The same host, whose sink takes every write. -/
def Host.roomy (host : Host) : Host :=
  { host with closeAt := none }

/-- The same host, whose sink takes no more once it holds `n` lines. -/
def Host.closing (host : Host) (n : Nat) : Host :=
  { host with closeAt := some n }

/-! ## Lines of a text -/

def takeLines : Nat → List Char → List Char
  | 0, _ => []
  | _ + 1, [] => []
  | n + 1, c :: cs => c :: takeLines (if c = '\n' then n else n + 1) cs

/-- The text up to and with its `n`-th line end. -/
def firstLines (n : Nat) (text : String) : String :=
  String.ofList (takeLines n text.toList)

/-- A text that is not empty ends with a line end. -/
def WholeLines (cs : List Char) : Prop :=
  ∀ c ∈ cs.getLast?, c = '\n'

theorem WholeLines.append_lineEnd (cs : List Char) : WholeLines (cs ++ ['\n']) := by
  intro c hc
  rw [List.getLast?_concat] at hc
  exact (Option.some.inj hc).symm

theorem WholeLines.of_cons {c d : Char} {cs : List Char} (h : WholeLines (c :: d :: cs)) :
    WholeLines (d :: cs) := by
  intro e he
  apply h
  rwa [List.getLast?_cons_cons]

theorem WholeLines.count_pos {c : Char} {cs : List Char} (h : WholeLines (c :: cs)) :
    0 < (c :: cs).count '\n' := by
  have hlast : (c :: cs).getLast? = some '\n' := by
    rw [List.getLast?_cons, h _ List.getLast?_cons]
  exact List.count_pos_iff.mpr (List.mem_of_getLast? hlast)

theorem takeLines_append {cs : List Char} (h : WholeLines cs) (rest : List Char) :
    takeLines (cs.count '\n') (cs ++ rest) = cs := by
  induction cs with
  | nil => exact takeLines.eq_1 rest
  | cons c cs ih =>
      cases cs with
      | nil =>
          obtain rfl : c = '\n' := h c rfl
          rw [List.count_singleton_self, List.singleton_append, takeLines, if_pos rfl, takeLines]
      | cons d cs =>
          have hrest := h.of_cons
          obtain ⟨k, hk⟩ := Nat.exists_eq_add_of_lt hrest.count_pos
          rw [Nat.zero_add] at hk
          have hih := ih hrest
          by_cases hc : c = '\n'
          · rw [hc, List.count_cons_self, List.cons_append, takeLines, if_pos rfl, hih]
          · rw [List.count_cons_of_ne hc, hk, List.cons_append, takeLines, if_neg hc, ← hk, hih]

/-! ## Effects side by side -/

/-- There are no line ends but those behind the texts: every text shown is a single line. -/
def SingleLines (events : List Event) : Prop :=
  ∀ e ∈ events, e ≠ .lineEnd → e.lineEnds = 0

instance (events : List Event) : Decidable (SingleLines events) :=
  inferInstanceAs (Decidable (∀ e ∈ events, e ≠ .lineEnd → e.lineEnds = 0))

theorem SingleLines.mono {es fs : List Event} (h : SingleLines fs) (hes : es <+: fs) :
    SingleLines es :=
  fun e hmem ↦ h e (hes.subset hmem)

/-- The sink holds whole lines, and not too many of them. -/
structure Flows (n : Nat) (w : World) : Prop where
  counted : w.lines = lineCount w.events.toList
  room : w.lines ≤ n
  whole : WholeLines (outputOf w.events.toList).toList

/-- How the results of an effect compare if the sink closes after `n` lines in the second
case. Nothing is said once the first one has used up its iterations or has shown a text
of several lines. -/
inductive Choked (n : Nat) {α : Type} :
    EStateM.Result Stop World α → EStateM.Result Stop World α → Prop
  | ok {a : α} {w : World} (h : Flows n w) : Choked n (.ok a w) (.ok a w)
  | error {stop : Stop} {w : World} (h : Flows n w) : Choked n (.error stop w) (.error stop w)
  | spent {w : World} {s : EStateM.Result Stop World α} : Choked n (.error .exhausted w) s
  | broken {r s : EStateM.Result Stop World α} (h : ¬ SingleLines (finalWorld r).events.toList) :
      Choked n r s
  | full {r : EStateM.Result Stop World α} {v : World} (h : Flows n v) (hfull : v.lines = n)
      (hevents : v.events.toList <+: (finalWorld r).events.toList)
      (hmore : n < lineCount (finalWorld r).events.toList) :
      Choked n r (.error (.failed .sinkClosed) v)

structure Chokes (n : Nat) {α : Type} (x y : Effect α) : Prop where
  grows : Grows x
  compared : ∀ {w : World}, Flows n w → Choked n (x w) (y w)

namespace Chokes

variable {host : Host} {n : Nat} {α β : Type}

theorem pure (a : α) : Chokes n (pure a) (pure a) where
  grows := .pure a
  compared h := .ok h

theorem throw (stop : Stop) : Chokes n (throw stop : Effect α) (throw stop) where
  grows := .throw stop
  compared h := .error h

theorem bind {x y : Effect α} {f g : α → Effect β} (hx : Chokes n x y)
    (hf : ∀ a, Chokes n (f a) (g a)) : Chokes n (x >>= f) (y >>= g) := by
  have hgrows (w : World) := prefix_bind (x := x) (fun a ↦ (hf a).grows) w
  refine ⟨fun w ↦ (hx.grows w).trans (hgrows w), ?_⟩
  intro w hflows
  have hresult := hx.compared hflows
  have hgrown := hgrows w
  generalize hr : x w = r at hresult hgrown
  generalize hs : y w = s at hresult
  cases hresult with
  | ok h =>
      rw [bind_of_ok hr, bind_of_ok hs]
      exact (hf _).compared h
  | error h =>
      rw [bind_of_error hr, bind_of_error hs]
      exact .error h
  | spent =>
      rw [bind_of_error hr]
      exact .spent
  | broken h => exact .broken fun hsingle ↦ h (hsingle.mono hgrown)
  | full h hfull hevents hmore =>
      -- the first part has one line more, and the second one adds to it
      rw [bind_of_error hs]
      exact .full h hfull (hevents.trans hgrown) (Nat.lt_of_lt_of_le hmore (lineCount_mono hgrown))

theorem of_quiet {x : Effect α} (hgrows : Grows x)
    (hquiet : ∀ w, (finalWorld (x w)).events = w.events ∧ (finalWorld (x w)).lines = w.lines) :
    Chokes n x x where
  grows := hgrows
  compared := by
    intro w h
    obtain ⟨hevents, hlines⟩ := hquiet w
    have hflows : Flows n (finalWorld (x w)) := by
      refine ⟨?_, ?_, ?_⟩
      · rw [hevents, hlines, h.counted]
      · rw [hlines]
        exact h.room
      · rw [hevents]
        exact h.whole
    cases hrun : x w with
    | ok a w' =>
        rw [hrun] at hflows
        exact .ok hflows
    | error stop w' =>
        rw [hrun] at hflows
        exact .error hflows

theorem modifyEnv (f : Environment → Environment) : Chokes n (modifyEnv f) (modifyEnv f) :=
  of_quiet (fun _ ↦ List.prefix_rfl) fun _ ↦ ⟨rfl, rfl⟩

theorem check (host : Host) (name : String) : Chokes n (checkName name) (checkName name) := by
  apply of_quiet ((Grows.congruence host host).check name)
  intro w
  rw [checkName_run]
  cases w.env.checkAssignable name <;> exact ⟨rfl, rfl⟩

theorem assign (host : Host) (name : String) (v : Value) :
    Chokes n (assignName name v) (assignName name v) := by
  apply of_quiet ((Grows.congruence host host).assign name v)
  intro w
  rw [assignName_run]
  cases w.env.assign name v <;> exact ⟨rfl, rfl⟩

theorem manual (host : Host) : Chokes n showManual showManual where
  grows := (Grows.congruence host host).manual
  compared := by
    intro w h
    have hsame : outputOf (w.events.push .manual).toList = outputOf w.events.toList := by
      rw [Array.toList_push, outputOf_append, outputOf_singleton]
      exact String.append_empty
    refine .ok ⟨?_, h.room, ?_⟩
    · rw [lineCount, hsame]
      exact h.counted
    · rw [hsame]
      exact h.whole

theorem flag : Chokes n checkFlag checkFlag := by
  apply of_quiet .flag
  intro w
  rw [checkFlag]
  split <;> exact ⟨rfl, rfl⟩

/-- The world after a line has found its place in the sink. -/
def lineWritten (host : Host) (e : Event) (w : World) : World :=
  (w.accept host e).accept host .lineEnd

theorem writeLine_roomy (e : Event) (w : World) :
    writeLine host.roomy e w = .ok () (lineWritten host e w) := rfl

theorem writeLine_full {e : Event} {w : World} (h : n ≤ w.lines) :
    writeLine (host.closing n) e w = .error (.failed .sinkClosed) w := by
  have hcloses : (host.closing n).closes w.lines = true := decide_eq_true h
  have hwrite : write (host.closing n) e w = .error (.failed .sinkClosed) w := by
    rw [write, hcloses, if_pos rfl]
  exact bind_of_error hwrite _

theorem writeLine_closing {e : Event} {w : World} (he : e.lineEnds = 0) (h : w.lines < n) :
    writeLine (host.closing n) e w = .ok () (lineWritten host e w) := by
  have hopen {v : World} (hv : v.lines = w.lines) (e : Event) :
      write (host.closing n) e v = .ok () (v.accept host e) := by
    have hcloses : (host.closing n).closes v.lines = false := decide_eq_false (by omega)
    rw [write, hcloses]
    rfl
  have hlines : (w.accept host e).lines = w.lines := by
    rw [World.accept, he, Nat.add_zero]
  exact (bind_of_ok (hopen rfl e) _).trans (hopen hlines .lineEnd)

theorem events_lineWritten (e : Event) (w : World) :
    (lineWritten host e w).events.toList = w.events.toList ++ [e, .lineEnd] := by
  simp only [lineWritten, World.accept, Array.toList_push, List.append_assoc, List.cons_append,
    List.nil_append]

theorem toList_outputOf_line (es : List Event) (e : Event) :
    (outputOf (es ++ [e, .lineEnd])).toList =
      (outputOf es).toList ++ e.output.toList ++ ['\n'] := by
  rw [outputOf_append, outputOf_line, String.toList_append, String.toList_append,
    List.append_assoc]
  rfl

theorem lineCount_line {e : Event} (he : e.lineEnds = 0) (es : List Event) :
    lineCount (es ++ [e, .lineEnd]) = lineCount es + 1 := by
  rw [lineCount, toList_outputOf_line, List.count_append, List.count_append,
    List.count_singleton_self]
  have hnone : e.output.toList.count '\n' = 0 := he
  rw [hnone]
  rfl

theorem flows_lineWritten {e : Event} {w : World} (he : e.lineEnds = 0) (h : Flows n w)
    (hroom : w.lines < n) : Flows n (lineWritten host e w) := by
  have hlines : (lineWritten host e w).lines = w.lines + 1 := by
    simp only [lineWritten, World.accept, he, Nat.add_zero]
    rfl
  refine ⟨?_, ?_, ?_⟩
  · rw [hlines, events_lineWritten, lineCount_line he, h.counted]
  · omega
  · rw [events_lineWritten, toList_outputOf_line]
    exact .append_lineEnd _

/-- A line of one piece is written if there is room for it. -/
theorem writeLine {e : Event} (he : e ≠ .lineEnd) :
    Chokes n (writeLine host.roomy e) (writeLine (host.closing n) e) := by
  refine ⟨.writeLine _ e, fun {w} h ↦ ?_⟩
  rw [writeLine_roomy]
  by_cases hsingle : e.lineEnds = 0
  · by_cases hroom : w.lines < n
    · rw [writeLine_closing hsingle hroom]
      exact .ok (flows_lineWritten hsingle h hroom)
    · have hfull : w.lines = n := Nat.le_antisymm h.room (Nat.le_of_not_lt hroom)
      rw [writeLine_full (Nat.le_of_not_lt hroom)]
      refine .full h hfull ?_ ?_
      · rw [finalWorld, events_lineWritten]
        exact List.prefix_append _ _
      · rw [finalWorld, events_lineWritten, lineCount_line hsingle, ← h.counted]
        omega
  · refine .broken fun hlines ↦ hsingle (hlines e ?_ he)
    rw [finalWorld, events_lineWritten]
    exact List.mem_append_right _ List.mem_cons_self

theorem flip : Chokes n (flipSwitch host.roomy) (flipSwitch (host.closing n)) where
  grows := (Grows.congruence host.roomy host).flip
  compared := by
    intro w h
    rw [flipSwitch_run, flipSwitch_run]
    have hstatus : Event.status w.env.toggle.autoStatus ≠ .lineEnd := nofun
    exact (writeLine hstatus).compared ⟨h.counted, h.room, h.whole⟩

theorem congruence (host : Host) : Congruence (Chokes n) host.roomy (host.closing n) where
  pure := pure
  throw stop _ := throw stop
  bind := bind
  read _ := of_quiet (fun _ ↦ List.prefix_rfl) fun _ ↦ ⟨rfl, rfl⟩
  check := check host
  assign := assign host
  declare _ _ _ := modifyEnv _
  unconst _ := modifyEnv _
  erase _ := modifyEnv _
  flip := flip
  print _ := writeLine nofun
  manual := manual host
  draw := of_quiet (fun _ ↦ List.prefix_rfl) fun _ ↦ ⟨rfl, rfl⟩

theorem eval (host : Host) (fuel : Nat) (node : Node) :
    Chokes n (eval host.roomy fuel node) (eval (host.closing n) fuel node) :=
  (congruence host).eval fuel node fun _ ↦ (congruence host).iterates flag (throw _) fuel

end Chokes

/-! ## Whole runs -/

/-- The run fails for want of room, and its output is made of the lines that found room. -/
structure ChokedOff (n : Nat) (healthy ended : Outcome × World) : Prop where
  more : n < lineCount healthy.2.events.toList
  sinkClosed : ∃ statement, ended.1 = .failed .sinkClosed statement
  output : outputOf ended.2.events.toList = firstLines n (outputOf healthy.2.events.toList)

theorem ChokedOff.of_events {n : Nat} {healthy : Outcome × World} {statement : Node} {v : World}
    (h : Flows n v) (hfull : v.lines = n) (hevents : v.events.toList <+: healthy.2.events.toList)
    (hmore : n < lineCount healthy.2.events.toList) :
    ChokedOff n healthy (.failed .sinkClosed statement, v) := by
  refine ⟨hmore, ⟨statement, rfl⟩, ?_⟩
  obtain ⟨rest, hrest⟩ := hevents
  have hcount : n = (outputOf v.events.toList).toList.count '\n' := by
    rw [← hfull, h.counted, lineCount]
  rw [firstLines, ← hrest, outputOf_append, String.toList_append, hcount, takeLines_append h.whole,
    String.ofList_toList]

theorem run_choked {host : Host} {n fuel : Nat} {program : Program} {w : World} (h : Flows n w)
    (hend : (run host.roomy fuel program w).1 ≠ .exhausted)
    (hsingle : SingleLines (run host.roomy fuel program w).2.events.toList) :
    (lineCount (run host.roomy fuel program w).2.events.toList ≤ n ∧
        SameEnd (run host.roomy fuel program w) (run (host.closing n) fuel program w)) ∨
      ChokedOff n (run host.roomy fuel program w) (run (host.closing n) fuel program w) := by
  induction program generalizing w with
  | nil => exact .inl ⟨h.counted ▸ h.room, rfl, rfl, rfl⟩
  | cons node program ih =>
      have hresult := (Chokes.eval host fuel node).compared h
      have hgrows := run_cons_grows host.roomy fuel node program w
      rw [run, EStateM.run] at hend hsingle hgrows ⊢
      rw [run, EStateM.run]
      generalize VexLang.eval host.roomy fuel node w = r at hresult hend hsingle hgrows
      generalize VexLang.eval (host.closing n) fuel node w = s at hresult
      cases hresult with
      | ok h' => exact ih h' hend hsingle
      | error h' => exact .inl ⟨h'.counted ▸ h'.room, rfl, rfl, rfl⟩
      | spent => exact absurd rfl hend
      | broken hbroken => exact absurd (hsingle.mono hgrows) hbroken
      | full h' hfull hevents hmore =>
          exact .inr (.of_events h' hfull (hevents.trans hgrows)
            (Nat.lt_of_lt_of_le hmore (lineCount_mono hgrows)))

/-- A run whose sink closes after `n` lines ends as the one with a healthy sink if this shows
no more than `n` lines. Otherwise it fails because of the sink, and it has shown just the
first `n` lines. -/
theorem run_same_or_choked {host : Host} {n fuel : Nat} {program : Program} {env : Environment}
    {raised : Bool} {healthy ended : Outcome × World}
    (hhealthy : run host.roomy fuel program (.start env raised) = healthy)
    (hended : run (host.closing n) fuel program (.start env raised) = ended)
    (hend : healthy.1 ≠ .exhausted) (hsingle : SingleLines healthy.2.events.toList) :
    (lineCount healthy.2.events.toList ≤ n → SameEnd healthy ended) ∧
      (n < lineCount healthy.2.events.toList →
        (∃ statement, ended.1 = .failed .sinkClosed statement) ∧
          outputOf ended.2.events.toList = firstLines n (outputOf healthy.2.events.toList)) := by
  subst hhealthy hended
  have hstart : Flows n (.start env raised) := ⟨rfl, Nat.zero_le n, nofun⟩
  rcases run_choked hstart hend hsingle with ⟨hfits, hsame⟩ | hchoked
  · exact ⟨fun _ ↦ hsame, fun hmore ↦ absurd hfits (Nat.not_le_of_lt hmore)⟩
  · exact ⟨fun hfits ↦ absurd hchoked.more (Nat.not_lt_of_le hfits),
      fun _ ↦ ⟨hchoked.sinkClosed, hchoked.output⟩⟩

/-- Prints and reports in a loop, and then ends its host. -/
def parting : Program :=
  [.loop (some (.literal (.number 2.0))) [.call printCommand [.text "tick"], .cut none], .bussin]

def plainHost : Host := ⟨none, none, fun _ ↦ 0.0⟩

set_option maxRecDepth 4000 in
theorem run_parting_choked :
    ∃ w v,
      run plainHost.roomy 5 parting (.start .empty false) = (.exit, w) ∧
      outputOf w.events.toList = "tick\n[System] AutoStatus is now: OFF\n" ++
        "tick\n[System] AutoStatus is now: ON\nBussin. Exiting...\n" ∧
      run (plainHost.closing 4) 5 parting (.start .empty false) =
        (.failed .sinkClosed .bussin, v) ∧
      outputOf v.events.toList = firstLines 4 (outputOf w.events.toList) := by
  obtain ⟨w, hhealthy, houtput, hsingle⟩ : ∃ w,
      run plainHost.roomy 5 parting (.start .empty false) = (.exit, w) ∧
      outputOf w.events.toList = "tick\n[System] AutoStatus is now: OFF\n" ++
        "tick\n[System] AutoStatus is now: ON\nBussin. Exiting...\n" ∧
      SingleLines w.events.toList := ⟨_, rfl, by decide +kernel, by decide +kernel⟩
  obtain ⟨v, hended⟩ : ∃ v, run (plainHost.closing 4) 5 parting (.start .empty false) =
      (.failed .sinkClosed .bussin, v) := ⟨_, rfl⟩
  have hmore : 4 < lineCount w.events.toList := by
    rw [lineCount, houtput]
    decide +kernel
  have hchoked := (run_same_or_choked hhealthy hended nofun hsingle).2 hmore
  exact ⟨w, v, hhealthy, houtput, hended, hchoked.2⟩

end VexLang
