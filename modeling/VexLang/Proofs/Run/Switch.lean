import VexLang.Proofs.Run.Frame

/-!
# The switch changes nothing but its reports

Two runs that start with the same bindings and opposite switches take the same steps. Only
the reports on the switch tell them apart: wherever one says that it is on, the other says
that it is off.
-/

namespace VexLang

open Effect

namespace Environment

/-- The same bindings and opposite switches. -/
structure Switched (env₁ env₂ : Environment) : Prop where
  bindings : ∀ x, env₂.find? x = env₁.find? x
  switch : env₂.autoStatus = !env₁.autoStatus

theorem autoStatus_assign {env env' : Environment} {name : String} {v : Value}
    (h : env.assign name v = .ok env') : env'.autoStatus = env.autoStatus := by
  unfold assign at h
  split at h <;> cases h
  rfl

namespace Switched

variable {env₁ env₂ : Environment}

theorem get_eq (h : Switched env₁ env₂) (x : String) : env₂.get x = env₁.get x := by
  simp only [Environment.get, h.bindings]

theorem checkAssignable_eq (h : Switched env₁ env₂) (x : String) :
    env₂.checkAssignable x = env₁.checkAssignable x := by
  simp only [checkAssignable, h.bindings]

theorem declare (h : Switched env₁ env₂) (name : String) (v : Value) (constant : Bool) :
    Switched (env₁.declare name v constant) (env₂.declare name v constant) := by
  refine ⟨fun x ↦ ?_, h.switch⟩
  rw [find?_declare, find?_declare, h.bindings]

theorem unconst (h : Switched env₁ env₂) (name : String) :
    Switched (env₁.unconst name) (env₂.unconst name) := by
  refine ⟨fun x ↦ ?_, h.switch⟩
  rw [find?_unconst, find?_unconst, h.bindings]

theorem erase (h : Switched env₁ env₂) (name : String) :
    Switched (env₁.erase name) (env₂.erase name) := by
  refine ⟨fun x ↦ ?_, h.switch⟩
  rw [find?_erase, find?_erase, h.bindings]

theorem toggle (h : Switched env₁ env₂) : Switched env₁.toggle env₂.toggle := by
  refine ⟨h.bindings, ?_⟩
  simp only [Environment.toggle, h.switch]

/-- An assignment succeeds in both environments or fails in both for the same cause. -/
theorem assign_cases (h : Switched env₁ env₂) (name : String) (v : Value) :
    (∃ env₁' env₂', env₁.assign name v = .ok env₁' ∧ env₂.assign name v = .ok env₂' ∧
        Switched env₁' env₂') ∨
      ∃ e, env₁.assign name v = .error e ∧ env₂.assign name v = .error e := by
  have hcheck := h.checkAssignable_eq name
  cases hone : env₁.checkAssignable name with
  | error e =>
      refine .inr ⟨e, ?_, ?_⟩
      · rw [assign, hone]
      · rw [assign, hcheck, hone]
  | ok _ =>
      have hfirst : env₁.assign name v = .ok (env₁.bind name ⟨v, false⟩) := by rw [assign, hone]
      have hsecond : env₂.assign name v = .ok (env₂.bind name ⟨v, false⟩) := by
        rw [assign, hcheck, hone]
      refine .inl ⟨_, _, hfirst, hsecond, fun x ↦ ?_, ?_⟩
      · rw [find?_assign hfirst, find?_assign hsecond, h.bindings]
      · rw [autoStatus_assign hfirst, autoStatus_assign hsecond, h.switch]

end Switched

end Environment

namespace Event

/-- A report on the switch says the opposite, and nothing else changes. -/
def switched : Event → Event
  | status on => status !on
  | e => e

theorem lineEnds_status (on : Bool) : (status on).lineEnds = 0 := by
  cases on <;> decide +kernel

@[simp] theorem lineEnds_switched (e : Event) : e.switched.lineEnds = e.lineEnds := by
  cases e with
  | status on => rw [switched, lineEnds_status, lineEnds_status]
  | text | lineEnd | manual => rfl

end Event

theorem manualLines_switched (events : List Event) (lines : Nat) :
    manualLines lines (events.map Event.switched) = manualLines lines events := by
  induction events generalizing lines with
  | nil => rfl
  | cons e events ih =>
      cases e with
      | manual => exact congrArg (lines :: ·) (ih lines)
      | status on =>
          have hlines : (Event.status !on).lineEnds = (Event.status on).lineEnds :=
            Event.lineEnds_switched (.status on)
          rw [List.map_cons, Event.switched, manualLines, manualLines, hlines]
          · exact ih _
          all_goals nofun
      | text content | lineEnd =>
          rw [List.map_cons, Event.switched, manualLines, manualLines]
          · exact ih _
          all_goals nofun

/-- The worlds differ in the switch and in what has been reported about it. -/
structure World.Switched (w₁ w₂ : World) : Prop where
  env : w₁.env.Switched w₂.env
  events : w₂.events.toList = w₁.events.toList.map Event.switched
  lines : w₂.lines = w₁.lines
  interrupted : w₂.interrupted = w₁.interrupted
  drawn : w₂.drawn = w₁.drawn

namespace World.Switched

variable {w₁ w₂ : World}

theorem withEnv (h : Switched w₁ w₂) {env₁ env₂ : Environment} (henv : env₁.Switched env₂) :
    Switched { w₁ with env := env₁ } { w₂ with env := env₂ } :=
  ⟨henv, h.events, h.lines, h.interrupted, h.drawn⟩

theorem accept (h : Switched w₁ w₂) (host : Host) (e : Event) :
    Switched (w₁.accept host e) (w₂.accept host e.switched) := by
  refine ⟨h.env, ?_, ?_, ?_, h.drawn⟩
  · simp only [World.accept, Array.toList_push, h.events, List.map_append, List.map_cons,
      List.map_nil]
  · simp only [World.accept, h.lines, Event.lineEnds_switched]
  · simp only [World.accept, h.lines, h.interrupted, Event.lineEnds_switched]

theorem showManual (h : Switched w₁ w₂) :
    Switched { w₁ with events := w₁.events.push .manual }
      { w₂ with events := w₂.events.push .manual } := by
  refine ⟨h.env, ?_, h.lines, h.interrupted, h.drawn⟩
  simp only [Array.toList_push, h.events, List.map_append, List.map_cons, List.map_nil,
    Event.switched]

end World.Switched

/-- The same value or the same stop, in worlds that differ in the switch. -/
inductive SwitchedResult {α : Type} :
    EStateM.Result Stop World α → EStateM.Result Stop World α → Prop
  | ok {a : α} {w₁ w₂ : World} (h : w₁.Switched w₂) : SwitchedResult (.ok a w₁) (.ok a w₂)
  | error {stop : Stop} {w₁ w₂ : World} (h : w₁.Switched w₂) :
      SwitchedResult (.error stop w₁) (.error stop w₂)

/-- The effects do the same in worlds that differ in the switch. -/
def Inert {α : Type} (x y : Effect α) : Prop :=
  ∀ w₁ w₂ : World, w₁.Switched w₂ → SwitchedResult (x w₁) (y w₂)

namespace Inert

variable {host : Host} {α β : Type}

theorem bind {x y : Effect α} {f g : α → Effect β} (hx : Inert x y)
    (hf : ∀ a, Inert (f a) (g a)) : Inert (x >>= f) (y >>= g) := by
  intro w₁ w₂ h
  have hresult := hx w₁ w₂ h
  generalize hr : x w₁ = r at hresult
  generalize hs : y w₂ = s at hresult
  cases hresult with
  | ok h' =>
      rw [bind_of_ok hr, bind_of_ok hs]
      exact hf _ _ _ h'
  | error h' =>
      rw [bind_of_error hr, bind_of_error hs]
      exact .error h'

theorem modifyEnv {f : Environment → Environment}
    (hf : ∀ env₁ env₂ : Environment, env₁.Switched env₂ → (f env₁).Switched (f env₂)) :
    Inert (modifyEnv f) (modifyEnv f) :=
  fun _ _ h ↦ .ok (h.withEnv (hf _ _ h.env))

theorem read (name : String) : Inert (variableValue name) (variableValue name) := by
  intro w₁ w₂ h
  have hone : variableValue name w₁ = .ok (w₁.env.get name) w₁ := rfl
  have htwo : variableValue name w₂ = .ok (w₂.env.get name) w₂ := rfl
  rw [hone, htwo, h.env.get_eq]
  exact .ok h

theorem check (name : String) : Inert (checkName name) (checkName name) := by
  intro w₁ w₂ h
  rw [checkName_run, checkName_run, h.env.checkAssignable_eq]
  cases w₁.env.checkAssignable name with
  | ok _ => exact .ok h
  | error e => exact .error h

theorem assign (name : String) (v : Value) : Inert (assignName name v) (assignName name v) := by
  intro w₁ w₂ h
  rw [assignName_run, assignName_run]
  rcases h.env.assign_cases name v with ⟨env₁, env₂, hone, htwo, henv⟩ | ⟨e, hone, htwo⟩
  · rw [hone, htwo]
    exact .ok (h.withEnv henv)
  · rw [hone, htwo]
    exact .error h

theorem writeLine (e : Event) : Inert (writeLine host e) (writeLine host e.switched) := by
  have hwrite (e : Event) : Inert (write host e) (write host e.switched) := by
    intro w₁ w₂ h
    rw [write, write, h.lines]
    split
    · exact .error h
    · exact .ok (h.accept host e)
  exact bind (hwrite e) fun _ ↦ hwrite .lineEnd

/-- The reports on the switch are the only events that differ. -/
theorem flip : Inert (flipSwitch host) (flipSwitch host) := by
  intro w₁ w₂ h
  have henv := h.env.toggle
  rw [flipSwitch_run, flipSwitch_run, henv.switch]
  exact writeLine (.status w₁.env.toggle.autoStatus) _ _ (h.withEnv henv)

theorem flag : Inert checkFlag checkFlag := by
  intro w₁ w₂ h
  rw [checkFlag, checkFlag, h.interrupted]
  split
  · exact .error h
  · exact .ok h

theorem draw : Inert (draw host) (draw host) := by
  intro w₁ w₂ h
  rw [Effect.draw, Effect.draw, h.drawn]
  exact .ok ⟨h.env, h.events, h.lines, h.interrupted, rfl⟩

theorem congruence (host : Host) : Congruence Inert host host where
  pure _ := fun _ _ h ↦ .ok h
  throw _ _ := fun _ _ h ↦ .error h
  bind := bind
  read := read
  check := check
  assign := assign
  declare _ _ _ := modifyEnv fun _ _ h ↦ h.declare ..
  unconst _ := modifyEnv fun _ _ h ↦ h.unconst _
  erase _ := modifyEnv fun _ _ h ↦ h.erase _
  flip := flip
  print text := writeLine (.text text)
  manual := fun _ _ h ↦ .ok h.showManual
  draw := draw

theorem eval (host : Host) (fuel : Nat) (node : Node) :
    Inert (eval host fuel node) (eval host fuel node) := by
  apply (congruence host).eval fuel node
  intro _
  exact (congruence host).iterates flag (fun _ _ h ↦ .error h) fuel

end Inert

theorem run_inert (host : Host) (fuel : Nat) (program : Program) {w₁ w₂ : World}
    (h : w₁.Switched w₂) :
    (run host fuel program w₂).1 = (run host fuel program w₁).1 ∧
      (run host fuel program w₁).2.Switched (run host fuel program w₂).2 := by
  induction program generalizing w₁ w₂ with
  | nil => exact ⟨rfl, h⟩
  | cons node program ih =>
      have hresult := Inert.eval host fuel node w₁ w₂ h
      rw [run, run, EStateM.run, EStateM.run]
      generalize eval host fuel node w₁ = r at hresult
      generalize eval host fuel node w₂ = s at hresult
      cases hresult with
      | ok h' => exact ih h'
      | error h' => exact ⟨rfl, h'⟩

/-- What two runs have in common that start with the same bindings and opposite switches. -/
structure SameButSwitch (ended₁ ended₂ : Outcome × World) : Prop where
  outcome : ended₂.1 = ended₁.1
  env : ended₁.2.env.Switched ended₂.2.env
  events : ended₂.2.events.toList = ended₁.2.events.toList.map Event.switched
  manual : manualLines 0 ended₂.2.events.toList = manualLines 0 ended₁.2.events.toList

/-- The switch does not matter to a run: it ends or does not end, with the same outcome and
bindings, and shows the same events, except that every report on the switch says the
opposite. The host is the same in both runs, with its chance, its sink and its flag. -/
theorem run_switched {env₁ env₂ : Environment} (h : env₁.Switched env₂) (host : Host)
    (program : Program) (raised : Bool) :
    ((∃ fuel, (run host fuel program (.start env₁ raised)).1 ≠ .exhausted) ↔
        ∃ fuel, (run host fuel program (.start env₂ raised)).1 ≠ .exhausted) ∧
      ∀ fuel, SameButSwitch (run host fuel program (.start env₁ raised))
        (run host fuel program (.start env₂ raised)) := by
  have hstart : (World.start env₁ raised).Switched (World.start env₂ raised) :=
    ⟨h, rfl, rfl, rfl, rfl⟩
  have hends (fuel : Nat) := run_inert host fuel program hstart
  refine ⟨exists_congr fun fuel ↦ ?_, fun fuel ↦ ?_⟩
  · rw [(hends fuel).1]
  · obtain ⟨houtcome, hworld⟩ := hends fuel
    refine ⟨houtcome, hworld.env, hworld.events, ?_⟩
    rw [hworld.events, manualLines_switched]

/-- Flips the switch in a loop, prints a look-alike of a report, and fails at a constant. -/
def flipping : Program :=
  [.loop (some (.literal (.number 3.0))) [.cut none, .manual],
    .call printCommand [.text "[System] AutoStatus is now: ON"], .assignment "x" (.text "new")]

set_option maxRecDepth 4000 in
theorem run_switched_flipping :
    ∃ w v statement,
      run ⟨some 9, some 9, fun _ ↦ 0.0⟩ 5 flipping (.start guarded false) =
        (.failed (.constant "x") statement, w) ∧
      run ⟨some 9, some 9, fun _ ↦ 0.0⟩ 5 flipping (.start guarded.toggle false) =
        (.failed (.constant "x") statement, v) ∧
      w.events.toList = [.status false, .lineEnd, .manual, .status true, .lineEnd, .manual,
        .status false, .lineEnd, .manual, .text "[System] AutoStatus is now: ON", .lineEnd] ∧
      v.events.toList = [.status true, .lineEnd, .manual, .status false, .lineEnd, .manual,
        .status true, .lineEnd, .manual, .text "[System] AutoStatus is now: ON", .lineEnd] ∧
      guarded.Switched guarded.toggle ∧ w.env.Switched v.env := by
  obtain ⟨w, statement, hone, hevents⟩ : ∃ w statement,
      run ⟨some 9, some 9, fun _ ↦ 0.0⟩ 5 flipping (.start guarded false) =
        (.failed (.constant "x") statement, w) ∧
      w.events.toList = [.status false, .lineEnd, .manual, .status true, .lineEnd, .manual,
        .status false, .lineEnd, .manual, .text "[System] AutoStatus is now: ON", .lineEnd] :=
    ⟨_, _, rfl, rfl⟩
  have hswitched : guarded.Switched guarded.toggle := ⟨fun _ ↦ rfl, rfl⟩
  have hsame := (run_switched hswitched ⟨some 9, some 9, fun _ ↦ 0.0⟩ flipping false).2 5
  rw [hone] at hsame
  generalize htwo : run _ 5 flipping (.start guarded.toggle false) = ended at hsame ⊢
  obtain ⟨outcome, v⟩ := ended
  obtain rfl : outcome = .failed (.constant "x") statement := hsame.outcome
  refine ⟨w, v, statement, hone, rfl, hevents, ?_, hswitched, hsame.env⟩
  exact hsame.events.trans (by rw [hevents]; rfl)

end VexLang
