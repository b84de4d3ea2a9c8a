import VexLang.Proofs.Run.Shown

/-!
# Cancelled runs

A host can raise the flag before a run, or once the sink holds enough lines. Next to a run
that is left alone, such a run takes the same steps until a loop finds the flag raised
before an iteration; there it ends, and what it has shown is the beginning of what
the other run shows.
-/

namespace VexLang

open Effect

/-- The same host, which never raises the flag. -/
def Host.patient (host : Host) : Host :=
  { host with raiseAt := none }

theorem Host.raises_add {host : Host} {lines : Nat} (h : host.raises lines = true) (more : Nat) :
    host.raises (lines + more) = true := by
  obtain ⟨n, hn, hle⟩ := (Option.any_eq_true _ _).mp h
  refine (Option.any_eq_true _ _).mpr ⟨n, hn, ?_⟩
  simp only [decide_eq_true_eq] at hle ⊢
  omega

/-- Was the flag raised beforehand, or are there enough lines for it? -/
def Raised (host : Host) (raised : Bool) (events : List Event) : Prop :=
  raised = true ∨ host.raises (lineCount events) = true

/-- The flag is down in the undisturbed world, and up in the other, which is the same but
for the flag, only for a reason. -/
structure Watched (host : Host) (raised : Bool) (w : World) (flag : Bool) : Prop where
  quiet : w.interrupted = false
  counted : w.lines = lineCount w.events.toList
  cause : flag = true → Raised host raised w.events.toList

/-- How the results of an undisturbed and a cancelled effect compare. Nothing is said once
the undisturbed one has used up its iterations. -/
inductive Compared (host : Host) (raised : Bool) (cuts : Prop) {α : Type} :
    EStateM.Result Stop World α → EStateM.Result Stop World α → Prop
  | ok {a : α} {w : World} {flag : Bool} (h : Watched host raised w flag) :
      Compared host raised cuts (.ok a w) (.ok a { w with interrupted := flag })
  | error {stop : Stop} {w : World} {flag : Bool} (h : Watched host raised w flag) :
      Compared host raised cuts (.error stop w) (.error stop { w with interrupted := flag })
  | spent {w : World} {s : EStateM.Result Stop World α} :
      Compared host raised cuts (.error .exhausted w) s
  | cut {r : EStateM.Result Stop World α} {v : World} (hcuts : cuts)
      (hevents : v.events.toList <+: (finalWorld r).events.toList)
      (hraised : Raised host raised v.events.toList) :
      Compared host raised cuts r (.error (.failed .interrupted) v)

/-- The second effect does what the first does, unless it is cut short. Cuts are possible
when `cuts` holds. -/
structure Shadows (host : Host) (raised : Bool) (cuts : Prop) {α : Type} (x y : Effect α) :
    Prop where
  grows : ∀ w : World, w.events.toList <+: (finalWorld (x w)).events.toList
  compared : ∀ {w : World} {flag : Bool}, Watched host raised w flag →
    Compared host raised cuts (x w) (y { w with interrupted := flag })

namespace Shadows

variable {host : Host} {raised : Bool} {cuts : Prop} {α β : Type}

theorem pure (a : α) : Shadows host raised cuts (pure a) (pure a) where
  grows _ := List.prefix_rfl
  compared h := .ok h

theorem throw (stop : Stop) :
    Shadows host raised cuts (throw stop : Effect α) (throw stop) where
  grows _ := List.prefix_rfl
  compared h := .error h

theorem bind {x y : Effect α} {f g : α → Effect β} (hx : Shadows host raised cuts x y)
    (hf : ∀ a, Shadows host raised cuts (f a) (g a)) :
    Shadows host raised cuts (x >>= f) (y >>= g) := by
  have hgrows (w : World) := prefix_bind (x := x) (fun a ↦ (hf a).grows) w
  refine ⟨fun w ↦ (hx.grows w).trans (hgrows w), ?_⟩
  intro w flag hwatched
  have hresult := hx.compared hwatched
  have hgrown := hgrows w
  generalize hr : x w = r at hresult hgrown
  generalize hs : y { w with interrupted := flag } = s at hresult
  cases hresult with
  | ok h =>
      rw [bind_of_ok hr, bind_of_ok hs]
      exact (hf _).compared h
  | error h =>
      rw [bind_of_error hr, bind_of_error hs]
      exact .error h
  | spent =>
      rw [bind_of_error hr]
      exact .spent
  | cut hcuts hevents hraised =>
      -- left alone, the first part may have come further, and the second one adds to it
      rw [bind_of_error hs]
      exact .cut hcuts (hevents.trans hgrown) hraised

theorem modifyEnv (f : Environment → Environment) :
    Shadows host raised cuts (modifyEnv f) (modifyEnv f) where
  grows _ := List.prefix_rfl
  compared h := .ok ⟨h.quiet, h.counted, h.cause⟩

theorem read (name : String) :
    Shadows host raised cuts (variableValue name) (variableValue name) where
  grows _ := List.prefix_rfl
  compared h := .ok h

theorem check (name : String) : Shadows host raised cuts (checkName name) (checkName name) := by
  constructor
  · exact (Grows.congruence host host).check name
  · intro w flag h
    rw [checkName_run, checkName_run]
    cases w.env.checkAssignable name with
    | ok _ => exact .ok h
    | error e => exact .error h

theorem assign (name : String) (value : Value) :
    Shadows host raised cuts (assignName name value) (assignName name value) := by
  constructor
  · exact (Grows.congruence host host).assign name value
  · intro w flag h
    rw [assignName_run, assignName_run]
    cases w.env.assign name value with
    | ok env => exact .ok ⟨h.quiet, h.counted, h.cause⟩
    | error e => exact .error h

theorem manual : Shadows host raised cuts showManual showManual := by
  have hlines (w : World) : lineCount (w.events.push .manual).toList = lineCount w.events.toList :=
    lineCount_push w.events .manual
  refine ⟨(Grows.congruence host host).manual, fun h ↦ ?_⟩
  · refine .ok ⟨h.quiet, h.counted.trans (hlines _).symm, fun hflag ↦ ?_⟩
    rw [Raised, hlines]
    exact h.cause hflag

theorem draw : Shadows host raised cuts (draw host.patient) (draw host) where
  grows _ := List.prefix_rfl
  compared h := .ok ⟨h.quiet, h.counted, h.cause⟩

theorem write (e : Event) :
    Shadows host raised cuts (write host.patient e) (write host e) := by
  constructor
  · intro w
    rw [Effect.write]
    split
    · exact List.prefix_rfl
    · exact ⟨[e], (Array.toList_push ..).symm⟩
  · intro w flag h
    have hcloses : host.patient.closes = host.closes := rfl
    rw [Effect.write, Effect.write, hcloses]
    cases host.closes w.lines with
    | true => exact .error h
    | false =>
        refine .ok ⟨?_, ?_, ?_⟩
        · rw [World.accept, h.quiet]
          rfl
        · rw [World.accept, lineCount_push, h.counted]
        · intro hflag
          rw [World.accept, Raised, lineCount_push]
          rcases Bool.or_eq_true_iff.mp hflag with hflag | hflag
          · exact (h.cause hflag).imp_right fun hraises ↦ Host.raises_add hraises _
          · exact .inr (h.counted ▸ hflag)

theorem writeLine (e : Event) :
    Shadows host raised cuts (writeLine host.patient e) (writeLine host e) :=
  bind (write e) fun _ ↦ write .lineEnd

theorem flip : Shadows host raised cuts (flipSwitch host.patient) (flipSwitch host) := by
  have hline (on : Bool) : Shadows host raised cuts (Effect.writeLine host.patient (.status on))
      (Effect.writeLine host (.status on)) := writeLine _
  constructor
  · exact (Grows.congruence host.patient host).flip
  · intro w flag h
    rw [flipSwitch_run, flipSwitch_run]
    exact (hline _).compared ⟨h.quiet, h.counted, h.cause⟩

theorem congruence : Congruence (Shadows host raised cuts) host.patient host where
  pure := pure
  throw stop _ := throw stop
  bind := bind
  read := read
  check := check
  assign := assign
  declare _ _ _ := modifyEnv _
  unconst _ := modifyEnv _
  erase _ := modifyEnv _
  flip := flip
  print _ := writeLine _
  manual := manual
  draw := draw

/-- A loop may find the flag raised. This is where a run is cut short. -/
theorem flag (hcuts : cuts) : Shadows host raised cuts checkFlag checkFlag := by
  have hquiet {w : World} (h : w.interrupted = false) : checkFlag w = .ok () w := by
    rw [checkFlag, h]
    rfl
  constructor
  · intro w
    rw [checkFlag]
    split <;> exact List.prefix_rfl
  · intro w flag h
    rw [hquiet h.quiet]
    cases flag with
    | true => exact .cut hcuts List.prefix_rfl (h.cause rfl)
    | false => exact .ok h

theorem iterates (hcuts : cuts) (fuel : Nat) : Iterates (Shadows host raised cuts) fuel :=
  congruence.iterates (flag hcuts) (throw _) fuel

end Shadows

section Runs

variable {host : Host} {raised : Bool} {fuel : Nat}

/-- The run fails because of the flag, and its output is the beginning of the output of the
one that is left alone. If the flag was down at first, there are enough lines for it. -/
structure CutShort (host : Host) (raised : Bool) (alone ended : Outcome × World) : Prop where
  interrupted : ∃ statement, ended.1 = .failed .interrupted statement
  output : ∃ rest, outputOf alone.2.events.toList = outputOf ended.2.events.toList ++ rest
  lines : raised = false → ∃ n, host.raiseAt = some n ∧ n ≤ lineCount ended.2.events.toList

theorem CutShort.of_events {alone : Outcome × World} {statement : Node} {v : World}
    (hevents : v.events.toList <+: alone.2.events.toList)
    (hraised : Raised host raised v.events.toList) :
    CutShort host raised alone (.failed .interrupted statement, v) := by
  obtain ⟨rest, hrest⟩ := hevents
  refine ⟨⟨statement, rfl⟩, ⟨outputOf rest, ?_⟩, fun hdown ↦ ?_⟩
  · rw [← hrest, outputOf_append]
  · rcases hraised with hup | hraises
    · rw [hdown] at hup
      cases hup
    · obtain ⟨n, hn, hle⟩ := (Option.any_eq_true _ _).mp hraises
      exact ⟨n, hn, of_decide_eq_true hle⟩

theorem run_compared {cuts : Prop} {program : Program}
    (hnodes : ∀ node ∈ program,
      Shadows host raised cuts (eval host.patient fuel node) (eval host fuel node))
    {w : World} {flag : Bool} (h : Watched host raised w flag)
    (hend : (run host.patient fuel program w).1 ≠ .exhausted) :
    SameEnd (run host.patient fuel program w)
        (run host fuel program { w with interrupted := flag }) ∨
      cuts ∧ CutShort host raised (run host.patient fuel program w)
        (run host fuel program { w with interrupted := flag }) := by
  induction program generalizing w flag with
  | nil => exact .inl ⟨rfl, rfl, rfl⟩
  | cons node program ih =>
      have hrest : ∀ node ∈ program, Shadows host raised cuts (eval host.patient fuel node)
          (eval host fuel node) := fun node' hnode' ↦ hnodes node' (List.mem_cons_of_mem _ hnode')
      have hresult := (hnodes node List.mem_cons_self).compared h
      have hgrows := run_cons_grows host.patient fuel node program w
      rw [run, EStateM.run] at hend hgrows ⊢
      rw [run, EStateM.run]
      generalize eval host.patient fuel node w = r at hresult hend hgrows
      generalize eval host fuel node { w with interrupted := flag } = s at hresult
      cases hresult with
      | ok h' => exact ih hrest h' hend
      | error h' => exact .inl ⟨rfl, rfl, rfl⟩
      | spent => exact absurd rfl hend
      | cut hcuts hevents hraised =>
          -- the statements behind this one are run only if the program is left alone
          exact .inr ⟨hcuts, .of_events (hevents.trans hgrows) hraised⟩

/-- Started with the flag raised, the effect keeps it raised and does not run out of
iterations. -/
def Halts {α : Type} (x : Effect α) : Prop :=
  ∀ w : World, w.interrupted = true →
    (∃ a w', x w = .ok a w' ∧ w'.interrupted = true) ∨
      ∃ stop w', x w = .error stop w' ∧ stop ≠ .exhausted

namespace Halts

variable {α β : Type}

theorem pure (a : α) : Halts (pure a : Effect α) :=
  fun w hup ↦ .inl ⟨a, w, rfl, hup⟩

theorem throw {stop : Stop} (hstop : stop ≠ .exhausted) : Halts (throw stop : Effect α) :=
  fun w _ ↦ .inr ⟨stop, w, rfl, hstop⟩

theorem bind {x : Effect α} {f : α → Effect β} (hx : Halts x) (hf : ∀ a, Halts (f a)) :
    Halts (x >>= f) := by
  intro w hup
  rcases hx w hup with ⟨a, w', hrun, hup'⟩ | ⟨stop, w', hrun, hstop⟩
  · rw [bind_of_ok hrun]
    exact hf a w' hup'
  · exact .inr ⟨stop, w', bind_of_error hrun f, hstop⟩

theorem writeLine (e : Event) : Halts (writeLine host e) := by
  have hwrite (e : Event) : Halts (write host e) := by
    intro w hup
    rw [write]
    split
    · exact .inr ⟨_, w, rfl, by decide⟩
    · exact .inl ⟨_, _, rfl, by rw [World.accept, hup, Bool.true_or]⟩
  exact bind (hwrite e) fun _ ↦ hwrite .lineEnd

theorem congruence : Congruence (fun _ y ↦ Halts y) host host where
  pure := pure
  throw _ := throw
  bind hx hf := bind hx hf
  read _ := fun w hup ↦ .inl ⟨_, w, rfl, hup⟩
  check name := by
    intro w hup
    rw [checkName_run]
    cases w.env.checkAssignable name with
    | ok _ => exact .inl ⟨_, w, rfl, hup⟩
    | error e => exact .inr ⟨_, w, rfl, by simp⟩
  assign name v := by
    intro w hup
    rw [assignName_run]
    cases w.env.assign name v with
    | ok env => exact .inl ⟨_, _, rfl, hup⟩
    | error e => exact .inr ⟨_, w, rfl, by simp⟩
  declare _ _ _ := fun w hup ↦ .inl ⟨_, _, rfl, hup⟩
  unconst _ := fun w hup ↦ .inl ⟨_, _, rfl, hup⟩
  erase _ := fun w hup ↦ .inl ⟨_, _, rfl, hup⟩
  flip := by
    intro w hup
    rw [flipSwitch_run]
    exact writeLine _ _ hup
  print _ := writeLine _
  manual := fun w hup ↦ .inl ⟨_, _, rfl, hup⟩
  draw := fun w hup ↦ .inl ⟨_, _, rfl, hup⟩

/-- No iteration begins when the flag is raised. -/
theorem iterates (fuel : Nat) : Iterates (fun _ y ↦ Halts y) (fuel + 1) := by
  intro goesOn x y _ i w hup
  rw [iterate]
  split
  · have hflag : checkFlag w = .error (.failed .interrupted) w := by
      rw [checkFlag, hup]
      rfl
    exact .inr ⟨_, w, bind_of_error hflag _, by decide⟩
  · exact .inl ⟨(), w, rfl, hup⟩

end Halts

theorem run_ne_exhausted (program : Program) {w : World} (hup : w.interrupted = true) :
    (run host (fuel + 1) program w).1 ≠ .exhausted := by
  induction program generalizing w with
  | nil =>
      intro h
      cases h
  | cons node program ih =>
      have hnode : Halts (eval host (fuel + 1) node) :=
        Halts.congruence.eval (fuel + 1) node fun _ ↦ Halts.iterates fuel
      rw [run, EStateM.run]
      rcases hnode w hup with ⟨a, w', hrun, hup'⟩ | ⟨stop, w', hrun, hstop⟩
      · rw [hrun]
        exact ih hup'
      · rw [hrun]
        cases stop with
        | exhausted => exact absurd rfl hstop
        | exit | openFile | failed =>
            intro h
            cases h

/-- A run under a schedule for the flag ends as the run that is left alone or is cut short,
and without loops it cannot be cut short. A flag that is up from the start ends every run,
unbounded loops included. -/
theorem run_same_or_cut_short {host : Host} {fuel : Nat} {program : Program} {env : Environment}
    {raised : Bool} {alone ended : Outcome × World}
    (halone : run host.patient fuel program (.start env false) = alone)
    (hended : run host fuel program (.start env raised) = ended) :
    (alone.1 ≠ .exhausted →
      (SameEnd alone ended ∨ CutShort host raised alone ended) ∧
      (anyHasLoop program = false → SameEnd alone ended)) ∧
    (raised = true → 0 < fuel → ended.1 ≠ .exhausted) := by
  subst halone hended
  have hstart : Watched host raised (.start env false) raised := ⟨rfl, rfl, .inl⟩
  refine ⟨fun hend ↦ ⟨?_, fun hloops ↦ ?_⟩, fun hup hfuel ↦ ?_⟩
  · have hnodes : ∀ node ∈ program,
        Shadows host raised True (eval host.patient fuel node) (eval host fuel node) :=
      fun node _ ↦ Shadows.congruence.eval fuel node fun _ ↦ Shadows.iterates trivial fuel
    exact (run_compared hnodes hstart hend).imp_right And.right
  · have hnodes : ∀ node ∈ program,
        Shadows host raised False (eval host.patient fuel node) (eval host fuel node) := by
      intro node hnode
      refine Shadows.congruence.eval fuel node fun hloop ↦ ?_
      rw [anyHasLoop_of_mem hnode hloop] at hloops
      cases hloops
    exact (run_compared hnodes hstart hend).resolve_right fun hcut ↦ hcut.1
  · obtain ⟨k, rfl⟩ := Nat.exists_eq_succ_of_ne_zero (Nat.ne_of_gt hfuel)
    exact run_ne_exhausted program hup

def ticking : Program :=
  [.loop (some (.literal (.number 2.0)))
    [.loop (some (.literal (.number 2.0))) [.call printCommand [.text "tick"]]]]

def thirdLine : Host := ⟨some 3, none, fun _ ↦ 0.0⟩

set_option maxRecDepth 4000 in
theorem run_ticking_cut_short :
    ∃ w v statement,
      run thirdLine.patient 5 ticking (.start .empty false) = (.done, w) ∧
      outputOf w.events.toList = "tick\ntick\ntick\ntick\n" ∧
      run thirdLine 5 ticking (.start .empty false) = (.failed .interrupted statement, v) ∧
      outputOf v.events.toList = "tick\ntick\ntick\n" ∧
      CutShort thirdLine false (.done, w) (.failed .interrupted statement, v) := by
  obtain ⟨w, halone, hw⟩ : ∃ w, run thirdLine.patient 5 ticking (.start .empty false) = (.done, w) ∧
      outputOf w.events.toList = "tick\ntick\ntick\ntick\n" := ⟨_, rfl, by decide +kernel⟩
  obtain ⟨v, statement, hended, hv⟩ : ∃ v statement,
      run thirdLine 5 ticking (.start .empty false) = (.failed .interrupted statement, v) ∧
        outputOf v.events.toList = "tick\ntick\ntick\n" := ⟨_, _, rfl, by decide +kernel⟩
  have hends := ((run_same_or_cut_short halone hended).1 nofun).1
  exact ⟨w, v, statement, halone, hw, hended, hv, hends.resolve_left fun hsame ↦
    nomatch hsame.outcome⟩

end Runs

end VexLang
