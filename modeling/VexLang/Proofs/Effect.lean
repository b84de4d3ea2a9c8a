/-!
# Effects in sequence

What a sequence of two effects does, said through the results of its parts. Effects of
the interpreter and of generated code are both of this kind.
-/

namespace VexLang

variable {ε σ α β : Type}

theorem bind_of_ok {x : EStateM ε σ α} {s s' : σ} {a : α} (h : x s = .ok a s')
    (f : α → EStateM ε σ β) : (x >>= f) s = f a s' := by
  simp only [bind, EStateM.bind, h]

theorem bind_of_error {x : EStateM ε σ α} {s s' : σ} {e : ε} (h : x s = .error e s')
    (f : α → EStateM ε σ β) : (x >>= f) s = .error e s' := by
  simp only [bind, EStateM.bind, h]

/-- A sequence succeeds when both of its parts do. -/
theorem bind_eq_ok_iff {x : EStateM ε σ α} {f : α → EStateM ε σ β} {s s'' : σ} {b : β} :
    (x >>= f) s = .ok b s'' ↔ ∃ a s', x s = .ok a s' ∧ f a s' = .ok b s'' := by
  cases hx : x s with
  | ok a s' =>
      rw [bind_of_ok hx]
      constructor
      · intro h
        exact ⟨a, s', rfl, h⟩
      · rintro ⟨a', s₁, hx', h⟩
        cases hx'
        exact h
  | error e s' =>
      rw [bind_of_error hx]
      constructor
      · intro h
        cases h
      · rintro ⟨a', s₁, hx', -⟩
        cases hx'

end VexLang
