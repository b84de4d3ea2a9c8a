import VexLang.Proofs.Run.Relation

/-!
# Runs with more fuel

Fuel is no part of the language. A run that ends within the iterations granted to its loops
takes the same steps when more are granted, so how a program ends does not depend on
the fuel it was found to end with.
-/

namespace VexLang

open Effect

/-- Has the effect used up the iterations granted to a loop? -/
def Spent {α : Type} (r : EStateM.Result Stop World α) : Prop :=
  ∃ w, r = .error .exhausted w

/-- Where the first effect ends within its iterations, the second one does the same. -/
def Prolongs {α : Type} (x y : Effect α) : Prop :=
  ∀ w, ¬Spent (x w) → y w = x w

namespace Prolongs

variable {α β : Type}

theorem refl (x : Effect α) : Prolongs x x := fun _ _ ↦ rfl

theorem throw_spent (y : Effect α) : Prolongs (throw .exhausted) y :=
  fun w hend ↦ absurd ⟨w, rfl⟩ hend

theorem bind {x y : Effect α} {f g : α → Effect β} (hx : Prolongs x y)
    (hf : ∀ a, Prolongs (f a) (g a)) : Prolongs (x >>= f) (y >>= g) := by
  intro w hend
  cases hrun : x w with
  | ok a w' =>
      have hy : y w = .ok a w' := (hx w (by rw [hrun]; rintro ⟨_, ⟨⟩⟩)).trans hrun
      rw [bind_of_ok hrun] at hend ⊢
      rw [bind_of_ok hy]
      exact hf a w' hend
  | error stop w' =>
      rw [bind_of_error hrun] at hend ⊢
      have hfirst : ¬Spent (x w) := by
        rw [hrun]
        rintro ⟨w'', hstop⟩
        cases hstop
        exact hend ⟨w', rfl⟩
      rw [bind_of_error ((hx w hfirst).trans hrun)]

theorem congruence (host : Host) : Congruence Prolongs host host where
  pure _ := refl _
  throw _ _ := refl _
  bind := bind
  read _ := refl _
  check _ := refl _
  assign _ _ := refl _
  declare _ _ _ := refl _
  unconst _ := refl _
  erase _ := refl _
  flip := refl _
  print _ := refl _
  manual := refl _
  draw := refl _

theorem iterates {fuel₁ fuel₂ : Nat} (hfuel : fuel₁ ≤ fuel₂) :
    IteratesAcross Prolongs fuel₁ fuel₂ := by
  intro goesOn x y hbody
  induction fuel₁ generalizing fuel₂ with
  | zero =>
      intro i
      cases fuel₂ <;> rw [iterate, iterate] <;> split
      · exact refl _
      · exact refl _
      · exact throw_spent _
      · exact refl _
  | succ fuel₁ ih =>
      obtain ⟨fuel₂, rfl⟩ := Nat.exists_eq_add_of_lt hfuel
      intro i
      rw [iterate, iterate]
      split
      · exact bind (refl _) fun _ ↦ bind hbody fun _ ↦ ih (Nat.le_add_right ..) _
      · exact refl _

theorem eval (host : Host) {fuel₁ fuel₂ : Nat} (hfuel : fuel₁ ≤ fuel₂) (node : Node) :
    Prolongs (eval host fuel₁ node) (eval host fuel₂ node) :=
  ((congruence host).on fun _ ↦ True).eval_across node (fun _ _ ↦ trivial) fun _ ↦ iterates hfuel

end Prolongs

/-- More fuel changes nothing about a run that ends. -/
theorem run_prolongs {host : Host} {fuel₁ fuel₂ : Nat} (hfuel : fuel₁ ≤ fuel₂) {program : Program}
    {w : World} (hend : (run host fuel₁ program w).1 ≠ .exhausted) :
    run host fuel₂ program w = run host fuel₁ program w := by
  induction program generalizing w with
  | nil => rfl
  | cons node program ih =>
      have hnode := Prolongs.eval host hfuel node w
      rw [run, EStateM.run] at hend ⊢
      rw [run, EStateM.run]
      cases heval : eval host fuel₁ node w with
      | ok a w' =>
          rw [heval] at hnode hend
          rw [hnode (by rintro ⟨_, ⟨⟩⟩)]
          exact ih hend
      | error stop w' =>
          rw [heval] at hnode hend
          have hstop : ¬Spent (.error stop w' : EStateM.Result Stop World Value) := by
            rintro ⟨_, ⟨⟩⟩
            exact hend rfl
          rw [hnode hstop]

end VexLang
