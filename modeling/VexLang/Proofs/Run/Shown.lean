import VexLang.Proofs.Run.Frame

/-!
# What a run has shown

Nothing that was shown is taken back, so what one part of a run shows stands at the
beginning of what the whole run shows.
-/

namespace VexLang

open Effect

/-- The number of lines that events leave in the sink. -/
def lineCount (events : List Event) : Nat :=
  (outputOf events).toList.count '\n'

theorem lineCount_append (es fs : List Event) : lineCount (es ++ fs) = lineCount es + lineCount fs := by
  rw [lineCount, outputOf_append, String.toList_append, List.count_append]
  rfl

theorem lineCount_push (events : Array Event) (e : Event) :
    lineCount (events.push e).toList = lineCount events.toList + e.lineEnds := by
  rw [Array.toList_push, lineCount_append, lineCount, lineCount, outputOf_singleton]
  rfl

theorem lineCount_mono {es fs : List Event} (h : es <+: fs) : lineCount es ≤ lineCount fs := by
  obtain ⟨rest, rfl⟩ := h
  rw [lineCount_append]
  omega

/-- Whatever the effect shows comes after what was shown before. -/
def Grows {α : Type} (x : Effect α) : Prop :=
  ∀ w : World, w.events.toList <+: (finalWorld (x w)).events.toList

theorem lasting_events (host : Host) (es : List Event) :
    Lasting (fun _ ↦ True) host fun w ↦ es <+: w.events.toList where
  accept w e hw := by
    rw [World.accept, Array.toList_push]
    exact hw.trans (List.prefix_append _ _)
  manual w hw := by
    rw [Array.toList_push]
    exact hw.trans (List.prefix_append _ _)
  draw _ hw := hw
  toggle _ hw := hw
  request _ _ _ _ _ hw := hw

/-- What a sequence shows begins with what its first part shows. -/
theorem prefix_bind {α β : Type} {x : Effect α} {f : α → Effect β} (hf : ∀ a, Grows (f a))
    (w : World) :
    (finalWorld (x w)).events.toList <+: (finalWorld ((x >>= f) w)).events.toList := by
  cases hrun : x w with
  | ok a w' =>
      rw [bind_of_ok hrun]
      exact hf a w'
  | error stop w' =>
      rw [bind_of_error hrun]
      exact List.prefix_rfl

namespace Grows

theorem of_keeps {α : Type} {x : Effect α} (h : ∀ es, Keeps (fun w ↦ es <+: w.events.toList) x) :
    Grows x :=
  fun w ↦ h _ w List.prefix_rfl

theorem pure {α : Type} (a : α) : Grows (pure a : Effect α) :=
  of_keeps fun _ ↦ .pure a

theorem throw {α : Type} (stop : Stop) : Grows (throw stop : Effect α) :=
  of_keeps fun _ ↦ .throw stop

theorem flag : Grows checkFlag :=
  of_keeps fun _ ↦ .flag

theorem writeLine (host : Host) (e : Event) : Grows (writeLine host e) :=
  of_keeps fun es ↦ (lasting_events host es).writeLine e

theorem congruence (h₁ h₂ : Host) : Congruence (fun x _ ↦ Grows x) h₁ h₂ :=
  have hkeeps (es : List Event) := (lasting_events h₁ es).congruence
  { pure := pure
    throw stop _ := throw stop
    bind hx hf w := (hx w).trans (prefix_bind hf w)
    read name := of_keeps fun es ↦ (hkeeps es).read name
    check name := of_keeps fun es ↦ (hkeeps es).check name
    assign name v := of_keeps fun es ↦ (hkeeps es).respects (.assign name) trivial v
    declare name v constant := of_keeps fun es ↦
      (hkeeps es).respects (.declare name) trivial v constant
    unconst name := of_keeps fun es ↦ (hkeeps es).respects (.unconst name) trivial
    erase name := of_keeps fun es ↦ (hkeeps es).respects (.erase name) trivial
    flip := of_keeps fun es ↦ (hkeeps es).flip
    print text := of_keeps fun es ↦ (hkeeps es).print text
    manual := of_keeps fun es ↦ (hkeeps es).manual
    draw := of_keeps fun es ↦ (hkeeps es).draw }

end Grows

theorem run_grows (host : Host) (fuel : Nat) (program : Program) (w : World) :
    w.events.toList <+: (run host fuel program w).2.events.toList :=
  (lasting_events host _).run fuel (fun _ _ ↦ trivial) List.prefix_rfl

/-- What a program shows begins with what its first statement shows. -/
theorem run_cons_grows (host : Host) (fuel : Nat) (node : Node) (program : Program) (w : World) :
    (finalWorld (eval host fuel node w)).events.toList <+:
      (run host fuel (node :: program) w).2.events.toList := by
  rw [run, EStateM.run]
  cases eval host fuel node w with
  | ok a w' => exact run_grows host fuel program w'
  | error stop w' => exact List.prefix_rfl

/-- The run ends as the one that is left alone. -/
structure SameEnd (alone ended : Outcome × World) : Prop where
  outcome : ended.1 = alone.1
  events : ended.2.events = alone.2.events
  env : ended.2.env = alone.2.env

end VexLang
