import Mathlib.Data.List.Induction
import VexLang.Environment.Operation
import VexLang.Proofs.Run.Frame
import VexLang.Session

/-!
# Environments and their histories

What a name is bound to can be read off the history of operations, and only those that are
about the name matter. All the laws have the same shape: something has happened, and since
then something else has not. Every run of a program makes a history of this kind, so the laws
hold of what a session leaves behind, too.
-/

namespace VexLang

namespace Environment

/-! ## One operation -/

namespace Operation

/-- The name that the operation is about. -/
def name? : Operation → Option String
  | declare name _ _ | assign name _ | checkAssignable name => some name
  | get name | contains name | isConstant name => some name
  | unconst name | banish name => some name
  | autoStatus | toggle => none

/-- What an operation makes of the binding of a name. -/
def rebind (x : String) (b : Option Binding) : Operation → Option Binding
  | declare name v constant => if x = name then some ⟨v, constant⟩ else b
  | assign name v => if x = name then b.map fun b ↦ if b.constant then b else ⟨v, false⟩ else b
  | unconst name => if x = name then b.map fun b ↦ ⟨b.value, false⟩ else b
  | banish name => if x = name then none else b
  | checkAssignable _ | get _ | contains _ | isConstant _ | autoStatus | toggle => b

theorem rebind_of_ne {op : Operation} {x : String} (h : op.name? ≠ some x) (b : Option Binding) :
    op.rebind x b = b := by
  cases op with
  | declare name | assign name | unconst name | banish name =>
      have hne : x ≠ name := fun hx ↦ h (congrArg some hx.symm)
      exact if_neg hne
  | checkAssignable | get | contains | isConstant | autoStatus | toggle => rfl

end Operation

/-- The answer to an attempt at an assignment. -/
def permission (env : Environment) (x : String) : Answer :=
  if env.contains x then
    if env.isConstant x then .failed (.constant x) else .done
  else .failed (.undeclared x)

theorem permission_eq_done_iff (env : Environment) (x : String) :
    env.permission x = .done ↔ ∃ v, env.find? x = some ⟨v, false⟩ := by
  rw [permission, contains, isConstant_eq]
  rcases env.find? x with _ | ⟨v, _ | _⟩ <;> simp

theorem perform_checkAssignable (env : Environment) (x : String) :
    env.perform (.checkAssignable x) = (env.permission x, env) := by
  rw [perform, permission, contains, isConstant_eq, checkAssignable]
  rcases env.find? x with _ | ⟨v, _ | _⟩ <;> rfl

theorem perform_assign (env : Environment) (x : String) (v : Value) :
    env.perform (.assign x v) =
      (env.permission x, if env.permission x = .done then env.bind x ⟨v, false⟩ else env) := by
  rw [perform, permission, contains, isConstant_eq, assign, checkAssignable]
  rcases env.find? x with _ | ⟨v, _ | _⟩ <;> rfl

theorem find?_perform (env : Environment) (op : Operation) (x : String) :
    (env.perform op).2.find? x = op.rebind x (env.find? x) := by
  cases op with
  | declare name v constant => exact find?_declare ..
  | assign name v =>
      rw [perform_assign, Operation.rebind]
      split
      · rename_i hdone
        obtain ⟨old, hold⟩ := (permission_eq_done_iff env name).mp hdone
        rw [find?_bind]
        split
        · rename_i hx
          rw [hx, hold]
          rfl
        · rfl
      · rename_i hrefused
        split
        · rename_i hx
          subst hx
          rcases hfound : env.find? x with _ | ⟨old, _ | _⟩
          · rfl
          · exact absurd ((permission_eq_done_iff env x).mpr ⟨old, hfound⟩) hrefused
          · rfl
        · rfl
  | checkAssignable name => rw [perform_checkAssignable, Operation.rebind]
  | unconst name => exact find?_unconst ..
  | banish name => exact find?_erase ..
  | get | contains | isConstant | autoStatus | toggle => rfl

/-! ## Histories -/

theorem performAll_concat (env : Environment) (history : List Operation) (op : Operation) :
    env.performAll (history ++ [op]) = ((env.performAll history).perform op).2 := by
  rw [performAll_append, performAll_cons, performAll_nil]

theorem find?_performAll (env : Environment) (history : List Operation) (x : String) :
    (env.performAll history).find? x =
      history.foldl (fun b op ↦ op.rebind x b) (env.find? x) := by
  induction history generalizing env with
  | nil => rfl
  | cons op history ih => rw [performAll_cons, ih, find?_perform, List.foldl_cons]

/-- Operations on other names do not matter. -/
theorem find?_performAll_filter (env : Environment) (history : List Operation) (x : String) :
    (env.performAll (history.filter fun op ↦ op.name? = some x)).find? x =
      (env.performAll history).find? x := by
  rw [find?_performAll, find?_performAll, List.foldl_filter]
  congr 1
  funext b op
  split
  · rfl
  · rename_i hname
    exact (Operation.rebind_of_ne (by simpa using hname) b).symm

/-- The first has happened, and since then the second has not. Both may look at the operations
before the one in question. -/
def Since (start stop : List Operation → Operation → Prop) (history : List Operation) : Prop :=
  ∃ earlier op later, history = earlier ++ op :: later ∧ start earlier op ∧
    ∀ between next rest, later = between ++ next :: rest →
      ¬ stop (earlier ++ op :: between) next

section Since

variable {start stop : List Operation → Operation → Prop}

/-- The last operation is the one in question, or it comes after that. -/
theorem concat_eq_append_cons {history earlier later : List Operation} {last op : Operation}
    (h : history ++ [last] = earlier ++ op :: later) :
    (history = earlier ∧ last = op ∧ later = []) ∨
      ∃ later', later = later' ++ [last] ∧ history = earlier ++ op :: later' := by
  cases later using List.reverseRecOn with
  | nil =>
      obtain ⟨hhistory, hlast⟩ := List.append_inj' h rfl
      exact .inl ⟨hhistory, List.singleton_inj.mp hlast, rfl⟩
  | append_singleton later' op' =>
      rw [← List.cons_append, ← List.append_assoc] at h
      obtain ⟨hhistory, hlast⟩ := List.append_inj' h rfl
      exact .inr ⟨later', by rw [List.singleton_inj.mp hlast], hhistory⟩

theorem not_since_nil : ¬ Since start stop [] := by
  rintro ⟨earlier, op, later, h, -⟩
  exact List.append_ne_nil_of_right_ne_nil earlier (List.cons_ne_nil op later) h.symm

theorem since_concat (history : List Operation) (last : Operation) :
    Since start stop (history ++ [last]) ↔
      start history last ∨ Since start stop history ∧ ¬ stop history last := by
  constructor
  · rintro ⟨earlier, op, later, h, hstart, hstop⟩
    rcases concat_eq_append_cons h with ⟨rfl, rfl, -⟩ | ⟨later, rfl, rfl⟩
    · exact .inl hstart
    · refine .inr ⟨⟨earlier, op, later, rfl, hstart, ?_⟩, hstop later last [] rfl⟩
      rintro between next rest rfl
      exact hstop between next (rest ++ [last]) (List.append_assoc ..)
  · rintro (hstart | ⟨⟨earlier, op, later, rfl, hstart, hstop⟩, hlast⟩)
    · refine ⟨history, last, [], rfl, hstart, fun between next rest h ↦ ?_⟩
      cases between <;> cases h
    · refine ⟨earlier, op, later ++ [last], List.append_assoc .., hstart, ?_⟩
      intro between next rest h
      rcases concat_eq_append_cons h with ⟨rfl, rfl, -⟩ | ⟨rest, -, rfl⟩
      · exact hlast
      · exact hstop between next rest rfl

/-- The second event starts with one that starts the first and ends with every such one. If
neither has ended, the second has been going on without any end of the first. -/
theorem since_and_since_iff {start' stop' : List Operation → Operation → Prop}
    (hstart : ∀ earlier op, start' earlier op → start earlier op)
    (hstop : ∀ earlier op, start earlier op → stop' earlier op) (history : List Operation) :
    Since start stop history ∧ Since start' stop' history ↔
      Since start' (fun earlier op ↦ stop earlier op ∨ stop' earlier op) history := by
  induction history using List.reverseRecOn with
  | nil => exact iff_of_false (fun h ↦ not_since_nil h.1) not_since_nil
  | append_singleton history op ih =>
      have hstarts := hstart history op
      have hstops := hstop history op
      simp only [since_concat, ← ih]
      tauto

/-- A property of the binding of a name that comes about and ends with operations on this name
holds if it has come about since it last ended. -/
theorem performAll_iff_since {x : String} {P : Option Binding → Prop} (hnone : ¬ P none)
    (hstart : ∀ history op, start history op → op.name? = some x)
    (hstop : ∀ history op, stop history op → op.name? = some x)
    (hstep : ∀ history op, op.name? = some x →
      (P (op.rebind x ((empty.performAll history).find? x)) ↔
        start history op ∨ P ((empty.performAll history).find? x) ∧ ¬ stop history op))
    (history : List Operation) :
    P ((empty.performAll history).find? x) ↔ Since start stop history := by
  induction history using List.reverseRecOn with
  | nil => exact iff_of_false hnone not_since_nil
  | append_singleton history op ih =>
      rw [since_concat, ← ih, performAll_concat, find?_perform]
      by_cases hname : op.name? = some x
      · exact hstep history op hname
      · have hno : ¬ start history op := fun h ↦ hname (hstart history op h)
        have hon : ¬ stop history op := fun h ↦ hname (hstop history op h)
        rw [Operation.rebind_of_ne hname]
        simp only [hno, hon, false_or, not_false_eq_true, and_true]

end Since

/-! ## What the history says about a name -/

variable (x : String)

/-- The operation gives the name the value, by declaring it or by an assignment that is
allowed. -/
inductive Gives (v : Value) : List Operation → Operation → Prop
  | declare (earlier : List Operation) (constant : Bool) : Gives v earlier (.declare x v constant)
  | assign {earlier : List Operation}
      (h : ((empty.performAll earlier).perform (.assign x v)).1 = .done) :
      Gives v earlier (.assign x v)

/-- A name is bound if it has been declared since it was last banished. -/
theorem contains_performAll_iff (history : List Operation) :
    (empty.performAll history).contains x = true ↔
      Since (fun _ op ↦ ∃ v constant, op = .declare x v constant) (fun _ op ↦ op = .banish x)
        history := by
  apply performAll_iff_since (P := fun b ↦ b.isSome = true) (by simp)
  · rintro _ _ ⟨v, constant, rfl⟩
    rfl
  · rintro _ _ rfl
    rfl
  · intro history op hname
    cases op with
    | autoStatus | toggle => cases hname
    | _ =>
        obtain rfl := Option.some.inj hname
        simp [Operation.rebind]

theorem gives_iff {v : Value} {earlier : List Operation} {op : Operation} :
    Gives x v earlier op ↔ (∃ constant, op = .declare x v constant) ∨
      op = .assign x v ∧ ∃ old, (empty.performAll earlier).find? x = some ⟨old, false⟩ := by
  rw [← permission_eq_done_iff]
  constructor
  · intro h
    cases h with
    | declare constant => exact .inl ⟨constant, rfl⟩
    | assign h =>
        rw [perform_assign] at h
        exact .inr ⟨rfl, h⟩
  · rintro (⟨constant, rfl⟩ | ⟨rfl, h⟩)
    · exact .declare earlier constant
    · apply Gives.assign
      rwa [perform_assign]

/-- A bound name has the value it was last given, unless it was banished since. -/
theorem value_performAll_iff (history : List Operation) (v : Value) :
    ((empty.performAll history).find? x).map Binding.value = some v ↔
      Since (Gives x v) (fun earlier op ↦ op = .banish x ∨ ∃ w, Gives x w earlier op) history := by
  have hgives {w : Value} {earlier : List Operation} {op : Operation} (h : Gives x w earlier op) :
      op.name? = some x := by
    cases h <;> rfl
  apply performAll_iff_since (P := fun b ↦ b.map Binding.value = some v) (by simp)
  · exact fun _ _ ↦ hgives
  · rintro _ _ (rfl | ⟨w, h⟩)
    · rfl
    · exact hgives h
  · intro history op hname
    simp only [gives_iff]
    cases op with
    | autoStatus | toggle => cases hname
    | assign name w =>
        obtain rfl := Option.some.inj hname
        -- the assignment is allowed in the second of the three cases
        rcases (empty.performAll history).find? name with _ | ⟨old, _ | _⟩ <;>
          simp [Operation.rebind]
    | _ =>
        obtain rfl := Option.some.inj hname
        simp [Operation.rebind]

/-- A name is constant if the last declaration of it was one of a constant, it was not cut
since, and it is bound. -/
theorem isConstant_performAll_iff (history : List Operation) :
    (empty.performAll history).isConstant x = true ↔
      (empty.performAll history).contains x = true ∧
        Since (fun _ op ↦ ∃ v, op = .declare x v true)
          (fun _ op ↦ (∃ v constant, op = .declare x v constant) ∨ op = .unconst x) history := by
  rw [isConstant_eq, contains_performAll_iff, since_and_since_iff]
  · apply performAll_iff_since (P := fun b ↦ (b.map Binding.constant).getD false = true) nofun
    · rintro _ _ ⟨v, rfl⟩
      rfl
    · rintro _ _ (rfl | ⟨v, constant, rfl⟩ | rfl) <;> rfl
    · intro history op hname
      cases op with
      | autoStatus | toggle => cases hname
      | _ =>
          obtain rfl := Option.some.inj hname
          rcases (empty.performAll history).find? _ with _ | ⟨old, _ | _⟩ <;>
            simp [Operation.rebind]
  · rintro _ _ ⟨v, rfl⟩
    exact ⟨v, true, rfl⟩
  · exact fun _ _ ↦ .inl

theorem value_eq_some_iff (env : Environment) (v : Value) :
    (env.find? x).map Binding.value = some v ↔ env.contains x = true ∧ env.get x = v := by
  rw [contains, get]
  cases env.find? x <;> simp

/-- At the name, the environment is what the history says. -/
structure ToldBy (env : Environment) (history : List Operation) (x : String) : Prop where
  bound : env.contains x = true ↔
    Since (fun _ op ↦ ∃ v constant, op = .declare x v constant) (fun _ op ↦ op = .banish x) history
  value : ∀ v, env.contains x = true ∧ env.get x = v ↔
    Since (Gives x v) (fun earlier op ↦ op = .banish x ∨ ∃ w, Gives x w earlier op) history
  unbound : env.contains x = false → env.get x = .undefined
  constant : env.isConstant x = true ↔ env.contains x = true ∧
    Since (fun _ op ↦ ∃ v, op = .declare x v true)
      (fun _ op ↦ (∃ v constant, op = .declare x v constant) ∨ op = .unconst x) history
  constant_bound : env.isConstant x = true → env.contains x = true
  check : env.perform (.checkAssignable x) = (env.permission x, env)
  assign : ∀ v, (env.perform (.assign x v)).1 = env.permission x ∧
    (env.permission x ≠ .done → (env.perform (.assign x v)).2 = env)
  others : env.find? x =
    (empty.performAll (history.filter fun op ↦ op.name? = some x)).find? x

theorem toldBy_performAll (history : List Operation) (x : String) :
    (empty.performAll history).ToldBy history x where
  bound := contains_performAll_iff x history
  value v := by rw [← value_eq_some_iff, value_performAll_iff]
  unbound h := by
    have hnone : (empty.performAll history).find? x = none :=
      Option.isSome_eq_false_iff.mp h |> Option.isNone_iff_eq_none.mp
    rw [get, hnone]
    rfl
  constant := isConstant_performAll_iff x history
  constant_bound h := ((isConstant_performAll_iff x history).mp h).1
  check := perform_checkAssignable _ x
  assign v := by
    rw [perform_assign]
    exact ⟨rfl, fun h ↦ if_neg h⟩
  others := (find?_performAll_filter empty history x).symm

/-! ## Sessions -/

/-- The environments that are left behind by runs one after the other, the first of which
starts afresh. Nothing is said about the programs, their hosts and how the runs end. -/
inductive LeftBehind : Environment → Prop
  | fresh : LeftBehind empty
  | ran {env : Environment} (h : LeftBehind env) (host : Host) (fuel : Nat) (program : Program)
      (raised : Bool) : LeftBehind (run host fuel program (.start env raised)).2.env

/-- Every change of the environment that a program can ask for is an operation. -/
theorem exists_operation_of_leads {q : Request} {env env' : Environment} (h : q.Leads env env') :
    ∃ op, env' = (env.perform op).2 := by
  cases h with
  | declare name v constant => exact ⟨.declare name v constant, rfl⟩
  | @assign name v _ _ hassign =>
      refine ⟨.assign name v, ?_⟩
      rw [perform, hassign]
  | unconst name => exact ⟨.unconst name, rfl⟩
  | erase name => exact ⟨.banish name, rfl⟩

theorem lasting_history (host : Host) :
    Lasting (fun _ ↦ True) host fun w ↦ ∃ history, w.env = empty.performAll history where
  accept _ _ hw := hw
  manual _ hw := hw
  draw _ hw := hw
  toggle w := by
    rintro ⟨history, hw⟩
    refine ⟨history ++ [.toggle], ?_⟩
    rw [performAll_concat, ← hw]
    rfl
  request q _ w env hleads := by
    rintro ⟨history, hw⟩
    obtain ⟨op, hop⟩ := exists_operation_of_leads hleads
    refine ⟨history ++ [op], ?_⟩
    rw [performAll_concat, ← hw]
    exact hop

theorem LeftBehind.exists_history {env : Environment} (h : LeftBehind env) :
    ∃ history, env = empty.performAll history := by
  induction h with
  | fresh => exact ⟨[], rfl⟩
  | ran _ host fuel program raised ih =>
      exact (lasting_history host).run fuel (fun _ _ ↦ trivial) ih

theorem LeftBehind.perform {env : Environment} (h : LeftBehind env) (chance : Nat → Float)
    (fuel : Nat) (step : SessionStep) : LeftBehind (step.perform chance fuel env).env := by
  rw [SessionStep.perform]
  split
  · exact h
  · exact h.ran ..

theorem LeftBehind.session {env : Environment} (h : LeftBehind env) (chance : Nat → Float)
    (fuel : Nat) (steps : List SessionStep) :
    ∀ report ∈ session chance fuel env steps, LeftBehind report.env := by
  induction steps generalizing env chance with
  | nil => exact List.forall_mem_nil _
  | cons step steps ih =>
      have hstep := h.perform chance fuel step
      exact List.forall_mem_cons.mpr ⟨hstep, ih hstep _⟩

/-- A history of operations determines the environment name by name, and whatever a session
does to its environment is such a history. -/
theorem toldBy_history (history : List Operation) :
    (∀ x, (empty.performAll history).ToldBy history x) ∧
      (∀ env, LeftBehind env → ∃ told, ∀ x, env.ToldBy told x) ∧
      ∀ chance fuel steps, ∀ report ∈ session chance fuel empty steps, LeftBehind report.env := by
  refine ⟨toldBy_performAll history, ?_, LeftBehind.fresh.session⟩
  intro env h
  obtain ⟨told, rfl⟩ := h.exists_history
  exact ⟨told, toldBy_performAll told⟩

end Environment

end VexLang
