import VexLang.Proofs.Compile.Portable
import VexLang.Proofs.JavaScript.Meaning

/-!
# Actions that keep to a course

An action keeps track of the moments of a course in two ways. If all of them are steady,
it passes them one by one and comes to its end, given enough iterations. And if
it comes to its end and no test contradicts the course, then they are steady. The two are proved together, along the sequence of the parts of an action.
-/

namespace VexLang

open JavaScript

theorem outcomes_of_trace {moments : List Moment} {m m' : Machine}
    (h : m'.trace = m.trace ++ moments.map Moment.mark) :
    m'.outcomes = m.outcomes ++ moments.map Moment.outcome? := by
  rw [Machine.outcomes, h, List.map_append, List.map_map]
  rfl

/-- The action takes two bounds, one on the iterations of inner loops and one on those of
the loop that it is the rest of. -/
structure Tracks (moments : List Moment) (reached : Machine → Prop)
    (action : Nat → Nat → Action Unit) (m : Machine) : Prop where
  forward : (∀ moment ∈ moments, moment.Steady) → ∃ m', reached m' ∧
    m'.trace = m.trace ++ moments.map Moment.mark ∧
    ∃ enough, ∀ fuel grant, enough ≤ fuel → enough ≤ grant → action fuel grant m = .ok () m'
  backward : ∀ (fuel grant : Nat) {m' : Machine} {outcomes : List (Option Bool)},
    action fuel grant m = .ok () m' → m'.outcomes <+: outcomes →
    m.outcomes ++ moments.map Moment.outcome? <+: outcomes →
    (∀ moment ∈ moments, moment.Steady) ∧ reached m' ∧
      m'.trace = m.trace ++ moments.map Moment.mark

namespace Tracks

variable {moments moments₁ moments₂ : List Moment} {reached reached₁ : Machine → Prop}
  {action action₁ action₂ : Nat → Nat → Action Unit} {m m' : Machine}

theorem of_ok (haction : ∀ fuel grant, action fuel grant m = .ok () m')
    (hsteady : ∀ moment ∈ moments, moment.Steady) (hreached : reached m')
    (htrace : m'.trace = m.trace ++ moments.map Moment.mark) :
    Tracks moments reached action m := by
  constructor
  · intro _
    exact ⟨m', hreached, htrace, 0, fun fuel grant _ _ ↦ haction fuel grant⟩
  · intro fuel grant m₁ outcomes hm₁ _ _
    rw [haction] at hm₁
    cases hm₁
    exact ⟨hsteady, hreached, htrace⟩

theorem mono {reached' : Machine → Prop} (h : Tracks moments reached action m)
    (himp : ∀ m', reached m' → reached' m') : Tracks moments reached' action m := by
  constructor
  · intro hsteady
    obtain ⟨m', hreached, hrest⟩ := h.forward hsteady
    exact ⟨m', himp m' hreached, hrest⟩
  · intro fuel grant m' outcomes hm' hprefix houtcomes
    obtain ⟨hsteady, hreached, htrace⟩ := h.backward _ _ hm' hprefix houtcomes
    exact ⟨hsteady, himp m' hreached, htrace⟩

theorem bind (h₁ : Tracks moments₁ reached₁ action₁ m)
    (h₂ : ∀ m₁, reached₁ m₁ → Tracks moments₂ reached action₂ m₁)
    (hgrows : ∀ fuel grant, Grows (action₂ fuel grant)) :
    Tracks (moments₁ ++ moments₂) reached
      (fun fuel grant ↦ do action₁ fuel grant; action₂ fuel grant) m := by
  constructor
  · intro hsteady
    obtain ⟨m₁, hreached₁, htrace₁, enough₁, hok₁⟩ :=
      h₁.forward fun moment hmoment ↦ hsteady moment (List.mem_append_left _ hmoment)
    obtain ⟨m₂, hreached₂, htrace₂, enough₂, hok₂⟩ := (h₂ m₁ hreached₁).forward
      fun moment hmoment ↦ hsteady moment (List.mem_append_right _ hmoment)
    refine ⟨m₂, hreached₂, ?_, max enough₁ enough₂, fun fuel grant hfuel hgrant ↦ ?_⟩
    · rw [htrace₂, htrace₁, List.map_append, List.append_assoc]
    · rw [bind_of_ok (hok₁ fuel grant (by omega) (by omega))]
      exact hok₂ fuel grant (by omega) (by omega)
  · intro fuel grant m₂ outcomes hm₂ hprefix houtcomes
    obtain ⟨u, m₁, hm₁, hm₂⟩ := bind_eq_ok_iff.mp hm₂
    rw [List.map_append, ← List.append_assoc] at houtcomes
    obtain ⟨hsteady₁, hreached₁, htrace₁⟩ := h₁.backward _ _ hm₁
      (((hgrows fuel grant).outcomes hm₂).trans hprefix)
      ((List.prefix_append _ _).trans houtcomes)
    rw [← outcomes_of_trace htrace₁] at houtcomes
    obtain ⟨hsteady₂, hreached₂, htrace₂⟩ :=
      (h₂ m₁ hreached₁).backward _ _ hm₂ hprefix houtcomes
    refine ⟨fun moment hmoment ↦ ?_, hreached₂, ?_⟩
    · rcases List.mem_append.mp hmoment with hmoment | hmoment
      · exact hsteady₁ moment hmoment
      · exact hsteady₂ moment hmoment
    · rw [htrace₂, htrace₁, List.map_append, List.append_assoc]

theorem congr {action' : Nat → Nat → Action Unit} (h : Tracks moments reached action m)
    (heq : ∀ fuel grant, action' fuel grant m = action fuel grant m) :
    Tracks moments reached action' m := by
  constructor
  · intro hsteady
    obtain ⟨m', hreached, htrace, enough, hok⟩ := h.forward hsteady
    refine ⟨m', hreached, htrace, enough, fun fuel grant hfuel hgrant ↦ ?_⟩
    rw [heq, hok fuel grant hfuel hgrant]
  · intro fuel grant m' outcomes hm' hprefix houtcomes
    rw [heq] at hm'
    exact h.backward _ _ hm' hprefix houtcomes

/-- One bound can serve for both. -/
theorem diagonal (h : Tracks moments reached action m) :
    Tracks moments reached (fun fuel _ ↦ action fuel fuel) m := by
  constructor
  · intro hsteady
    obtain ⟨m', hreached, htrace, enough, hok⟩ := h.forward hsteady
    exact ⟨m', hreached, htrace, enough, fun fuel _ hfuel _ ↦ hok fuel fuel hfuel hfuel⟩
  · intro fuel grant m' outcomes hm' hprefix houtcomes
    exact h.backward _ _ hm' hprefix houtcomes

/-- An iteration is granted by the outer bound. -/
theorem iteration (h : Tracks moments reached action m) :
    Tracks moments reached (fun fuel grant ↦ match grant with
      | 0 => throw .exhausted
      | grant + 1 => action fuel grant) m := by
  constructor
  · intro hsteady
    obtain ⟨m', hreached, htrace, enough, hok⟩ := h.forward hsteady
    refine ⟨m', hreached, htrace, enough + 1, fun fuel grant hfuel hgrant ↦ ?_⟩
    obtain ⟨grant, rfl⟩ := Nat.exists_eq_add_of_lt hgrant
    exact hok fuel _ (by omega) (by omega)
  · intro fuel grant m' outcomes hm' hprefix houtcomes
    cases grant with
    | zero => cases hm'
    | succ grant => exact h.backward _ _ hm' hprefix houtcomes

/-- The names that a block declares are given back when it is left. -/
theorem inScope {names : List String}
    (h : Tracks moments (fun m' ↦ reached (m'.giveBack names m)) action (m.hide names)) :
    Tracks moments reached (fun fuel grant ↦ Action.inScope names (action fuel grant)) m := by
  constructor
  · intro hsteady
    obtain ⟨m', hreached, htrace, enough, hok⟩ := h.forward hsteady
    refine ⟨_, hreached, htrace, enough, fun fuel grant hfuel hgrant ↦ ?_⟩
    rw [Action.inScope, hok fuel grant hfuel hgrant]
  · intro fuel grant m' outcomes hm' hprefix houtcomes
    rw [Action.inScope] at hm'
    split at hm'
    case h_1 m₁ haction =>
      cases hm'
      exact h.backward _ _ haction hprefix houtcomes
    case h_2 => cases hm'

theorem test_eq_of_prefix {before outcomes : List (Option Bool)} {a b : Bool}
    (ha : before ++ [some a] <+: outcomes) (hb : before ++ [some b] <+: outcomes) : a = b := by
  have hequal := (List.prefix_of_prefix_length_le ha hb (by simp)).eq_of_length (by simp)
  simpa using hequal

/-- A test and what follows it. If the test does not come out as it does on the course, this is
to be seen in the trace for ever. -/
theorem test {times : Node} {count limit : Float} {env : Environment}
    {condition : Nat → Action Bool} {rest : Bool → Nat → Nat → Action Unit}
    (hcondition : ∀ fuel, condition fuel m = .ok (decide (count < (times.value env).toNumber))
      { m with trace := m.trace ++ [.test (decide (count < (times.value env).toNumber))] })
    (hgrows : ∀ again fuel grant, Grows (rest again fuel grant))
    (hrest : Tracks moments reached (rest (decide (count < limit)))
      { m with trace := m.trace ++ [.test (decide (count < limit))] }) :
    Tracks (.test times count limit env :: moments) reached
      (fun fuel grant ↦ do rest (← condition fuel) fuel grant) m := by
  constructor
  · intro hsteady
    have heq : decide (count < (times.value env).toNumber) = decide (count < limit) :=
      decide_eq_decide.mpr (hsteady _ (List.mem_cons_self ..))
    obtain ⟨m', hreached, htrace, enough, hok⟩ :=
      hrest.forward fun moment hmoment ↦ hsteady moment (List.mem_cons_of_mem _ hmoment)
    refine ⟨m', hreached, ?_, enough, fun fuel grant hfuel hgrant ↦ ?_⟩
    · rw [htrace, List.append_assoc]
      rfl
    · rw [bind_of_ok (hcondition fuel), heq]
      exact hok fuel grant hfuel hgrant
  · intro fuel grant m' outcomes hm' hprefix houtcomes
    rw [bind_of_ok (hcondition fuel)] at hm'
    have hnoted (again : Bool) : Machine.outcomes { m with trace := m.trace ++ [.test again] } =
        m.outcomes ++ [some again] := List.map_append
    rw [← List.singleton_append, List.map_append, ← List.append_assoc] at houtcomes
    have hanew := ((hgrows _ fuel grant).outcomes hm').trans hprefix
    rw [hnoted] at hanew
    have heq : decide (count < (times.value env).toNumber) = decide (count < limit) :=
      test_eq_of_prefix hanew ((List.prefix_append _ _).trans houtcomes)
    rw [heq] at hm'
    obtain ⟨hsteady, hreached, htrace⟩ := hrest.backward _ _ hm' hprefix (by
      rw [hnoted]
      exact houtcomes)
    refine ⟨fun moment hmoment ↦ ?_, hreached, ?_⟩
    · rcases List.mem_cons.mp hmoment with rfl | hmoment
      · exact decide_eq_decide.mp heq
      · exact hsteady moment hmoment
    · rw [htrace, List.append_assoc]
      rfl

/-- All outcomes are those of the course exactly if the course is steady, and then the trace is
known. -/
theorem exists_iff (h : Tracks moments reached action m) (p : List Mark → Prop) :
    (∃ bound m', action bound bound m = .ok () m' ∧
      m'.outcomes = m.outcomes ++ moments.map Moment.outcome? ∧ p m'.trace) ↔
        (∀ moment ∈ moments, moment.Steady) ∧ p (m.trace ++ moments.map Moment.mark) := by
  constructor
  · rintro ⟨bound, m', hok, houtcomes, hp⟩
    have hprefix : m.outcomes ++ moments.map Moment.outcome? <+: m'.outcomes :=
      ⟨[], by rw [houtcomes, List.append_nil]⟩
    obtain ⟨hsteady, -, htrace⟩ := h.backward bound bound hok List.prefix_rfl hprefix
    rw [htrace] at hp
    exact ⟨hsteady, hp⟩
  · rintro ⟨hsteady, hp⟩
    obtain ⟨m', -, htrace, enough, hok⟩ := h.forward hsteady
    rw [← htrace] at hp
    exact ⟨enough, m', hok enough enough (Nat.le_refl _) (Nat.le_refl _),
      outcomes_of_trace htrace, hp⟩

end Tracks

end VexLang
