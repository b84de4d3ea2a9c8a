import VexLang.Proofs.Run.Relation

/-!
# What a run leaves as it was

A property of the world that no single step can end holds after every run, however the
run ends. Which steps a program can take on the environment is read off its tree, so a
name that the tree neither declares nor cuts nor banishes keeps its binding: an assignment
changes only a name that is bound and not constant.
-/

namespace VexLang

open Effect

/-- What a request can make of an environment. An assignment that fails makes nothing of it. -/
inductive Request.Leads : Request → Environment → Environment → Prop
  | declare (name : String) (v : Value) (constant : Bool) (env : Environment) :
      Leads (.declare name) env (env.declare name v constant)
  | assign {name : String} {v : Value} {env env' : Environment} (h : env.assign name v = .ok env') :
      Leads (.assign name) env env'
  | unconst (name : String) (env : Environment) : Leads (.unconst name) env (env.unconst name)
  | erase (name : String) (env : Environment) : Leads (.erase name) env (env.erase name)

def finalWorld {α : Type} : EStateM.Result Stop World α → World
  | .ok _ w => w
  | .error _ w => w

/-- The effect keeps the property, however it ends. -/
def Keeps (P : World → Prop) {α : Type} (x : Effect α) : Prop :=
  ∀ w, P w → P (finalWorld (x w))

/-- No step of a run ends the property, as long as the requests are allowed ones. -/
structure Lasting (allowed : Request → Prop) (host : Host) (P : World → Prop) : Prop where
  accept : ∀ w e, P w → P (w.accept host e)
  manual : ∀ w, P w → P { w with events := w.events.push .manual }
  draw : ∀ w, P w → P { w with drawn := w.drawn + 1 }
  toggle : ∀ w, P w → P { w with env := w.env.toggle }
  request : ∀ q, allowed q → ∀ w env, q.Leads w.env env → P w → P { w with env }

namespace Keeps

variable {P : World → Prop} {α β : Type}

theorem pure (a : α) : Keeps P (pure a : Effect α) := fun _ hw ↦ hw

theorem throw (stop : Stop) : Keeps P (throw stop : Effect α) := fun _ hw ↦ hw

theorem bind {x : Effect α} {f : α → Effect β} (hx : Keeps P x) (hf : ∀ a, Keeps P (f a)) :
    Keeps P (x >>= f) := by
  intro w hw
  have hfirst := hx w hw
  cases hrun : x w with
  | ok a w' =>
      rw [hrun] at hfirst
      rw [bind_of_ok hrun]
      exact hf a w' hfirst
  | error stop w' =>
      rw [hrun] at hfirst
      rw [bind_of_error hrun]
      exact hfirst

theorem flag : Keeps P checkFlag := by
  intro w hw
  rw [checkFlag]
  split <;> exact hw

end Keeps

namespace Lasting

variable {allowed : Request → Prop} {host : Host} {P : World → Prop}

theorem writeLine (hP : Lasting allowed host P) (e : Event) : Keeps P (writeLine host e) := by
  have hwrite (e : Event) : Keeps P (write host e) := by
    intro w hw
    rw [write]
    split
    · exact hw
    · exact hP.accept w e hw
  exact .bind (hwrite e) fun _ ↦ hwrite .lineEnd

theorem congruence (hP : Lasting allowed host P) :
    CongruenceOn allowed (fun _ y ↦ Keeps P y) host host where
  pure := .pure
  throw stop _ := .throw stop
  bind hx hf := .bind hx hf
  read _ := fun _ hw ↦ hw
  check name := by
    intro w hw
    rw [checkName_run]
    cases w.env.checkAssignable name <;> exact hw
  respects q hq := by
    cases q with
    | declare name => exact fun v constant w ↦ hP.request _ hq w _ (.declare name v constant w.env)
    | assign name =>
        intro v w hw
        rw [assignName_run]
        cases hassign : w.env.assign name v with
        | ok env => exact hP.request _ hq w env (.assign hassign) hw
        | error e => exact hw
    | unconst name => exact fun w ↦ hP.request _ hq w _ (.unconst name w.env)
    | erase name => exact fun w ↦ hP.request _ hq w _ (.erase name w.env)
  flip := by
    intro w hw
    rw [flipSwitch_run]
    exact hP.writeLine _ _ (hP.toggle w hw)
  print _ := hP.writeLine _
  manual := hP.manual
  draw := hP.draw

theorem eval (hP : Lasting allowed host P) (fuel : Nat) {node : Node}
    (hask : ∀ q ∈ node.requests, allowed q) : Keeps P (eval host fuel node) :=
  hP.congruence.eval fuel node hask fun _ ↦ hP.congruence.iterates .flag (.throw _) fuel

theorem run (hP : Lasting allowed host P) (fuel : Nat) {program : Program}
    (hask : ∀ q ∈ requestsOf program, allowed q) {w : World} (hw : P w) :
    P (run host fuel program w).2 := by
  induction program generalizing w with
  | nil => exact hw
  | cons node program ih =>
      obtain ⟨hnode, hrest⟩ := List.forall_mem_append.mp hask
      have hkept := hP.eval fuel hnode w hw
      rw [VexLang.run, EStateM.run]
      cases heval : VexLang.eval host fuel node w with
      | ok a w' =>
          rw [heval] at hkept
          exact ih hrest hkept
      | error stop w' =>
          rw [heval] at hkept
          exact hkept

end Lasting

/-! ## Names that keep their binding -/

namespace Environment

theorem find?_assign {env env' : Environment} {name : String} {v : Value}
    (h : env.assign name v = .ok env') (x : String) :
    env'.find? x = if x = name then some ⟨v, false⟩ else env.find? x := by
  unfold assign at h
  split at h
  · cases h
    exact find?_bind env name x ⟨v, false⟩
  · cases h

/-- Only a bound name that is not constant is assigned to. -/
theorem exists_variable_of_assign {env env' : Environment} {name : String} {v : Value}
    (h : env.assign name v = .ok env') : ∃ old, env.find? name = some ⟨old, false⟩ := by
  unfold assign at h
  split at h
  · exact (checkAssignable_eq_ok_iff env name).mp ‹_›
  · cases h

end Environment

/-- Assignments fail on such a binding, and where there is none. -/
def Unassignable (b : Option Binding) : Prop :=
  ∀ v, b ≠ some ⟨v, false⟩

/-- The requests that leave the binding of a name as it is. -/
def Request.Spares (x : String) (b : Option Binding) : Request → Prop
  | .declare name => name ≠ x
  | .assign name => name = x → Unassignable b
  | .unconst name => name ≠ x
  | .erase name => name ≠ x

theorem Request.Leads.find?_eq {q : Request} {env env' : Environment} (h : q.Leads env env')
    {x : String} (hq : q.Spares x (env.find? x)) : env'.find? x = env.find? x := by
  cases h with
  | declare name v constant =>
      rw [Environment.find?_declare, if_neg (Ne.symm hq)]
  | @assign name v _ _ hassign =>
      rw [Environment.find?_assign hassign]
      split
      · rename_i hx
        obtain ⟨old, hold⟩ := Environment.exists_variable_of_assign hassign
        subst hx
        exact absurd hold (hq rfl old)
      · rfl
  | unconst name =>
      rw [Environment.find?_unconst, if_neg (Ne.symm hq)]
  | erase name =>
      rw [Environment.find?_erase, if_neg (Ne.symm hq)]

theorem lasting_find? (host : Host) (x : String) (b : Option Binding) :
    Lasting (Request.Spares x b) host fun w ↦ w.env.find? x = b where
  accept _ _ hw := hw
  manual _ hw := hw
  draw _ hw := hw
  toggle _ hw := hw
  request q hq w env hleads hw := by
    subst hw
    exact hleads.find?_eq hq

/-- A name that the program neither declares nor cuts nor banishes is bound after the run as
it was before, if it is not assigned to, or is constant, or is not bound. It does not matter
how the run ends. -/
theorem run_binding_eq {program : Program} {x : String} (hdeclare : .declare x ∉ requestsOf program)
    (hcut : .unconst x ∉ requestsOf program) (hbanish : .erase x ∉ requestsOf program)
    {w : World} (hassign : .assign x ∉ requestsOf program ∨ w.env.isConstant x = true ∨
      w.env.contains x = false) (host : Host) (fuel : Nat) :
    (run host fuel program w).2.env.contains x = w.env.contains x ∧
      (run host fuel program w).2.env.get x = w.env.get x ∧
      (run host fuel program w).2.env.isConstant x = w.env.isConstant x := by
  have hfixed (hmem : .assign x ∈ requestsOf program) : Unassignable (w.env.find? x) := by
    intro v hv
    rcases hassign with hnot | hconstant | hunbound
    · exact hnot hmem
    · rw [Environment.isConstant_eq, hv] at hconstant
      cases hconstant
    · rw [Environment.contains, hv] at hunbound
      cases hunbound
  have hspares : ∀ q ∈ requestsOf program, q.Spares x (w.env.find? x) := by
    intro q hq
    cases q with
    | declare name => exact fun hname ↦ hdeclare (hname ▸ hq)
    | assign name => exact fun hname ↦ hfixed (hname ▸ hq)
    | unconst name => exact fun hname ↦ hcut (hname ▸ hq)
    | erase name => exact fun hname ↦ hbanish (hname ▸ hq)
  have hfind := (lasting_find? host x (w.env.find? x)).run fuel hspares rfl
  exact ⟨by rw [Environment.contains, hfind, Environment.contains],
    by rw [Environment.get, hfind, Environment.get],
    by rw [Environment.isConstant_eq, hfind, Environment.isConstant_eq]⟩

/-- A loop that declares a name while it assigns to another. -/
def meddling : Program :=
  [.loop (some (.literal (.number 2.0))) [.declaration "y" (.assignment "x" (.text "new")) false]]

def guarded : Environment := Environment.empty.declare "x" (.text "old") true

theorem run_binding_meddling :
    ∃ w statement,
      run ⟨none, none, fun _ ↦ 0.0⟩ 5 meddling (.start guarded false) =
        (.failed (.constant "x") statement, w) ∧
      .assign "x" ∈ requestsOf meddling ∧ guarded.isConstant "x" = true ∧
      w.env.contains "x" = true ∧ w.env.get "x" = .text "old" ∧ w.env.isConstant "x" = true := by
  obtain ⟨w, statement, hrun⟩ : ∃ w statement,
      run ⟨none, none, fun _ ↦ 0.0⟩ 5 meddling (.start guarded false) =
        (.failed (.constant "x") statement, w) := ⟨_, _, rfl⟩
  have hdeclare : .declare "x" ∉ requestsOf meddling := by decide
  have hcut : .unconst "x" ∉ requestsOf meddling := by decide
  have hbanish : .erase "x" ∉ requestsOf meddling := by decide
  have hconstant : (World.start guarded false).env.isConstant "x" = true := by decide
  obtain ⟨hcontains, hget, hisConstant⟩ := run_binding_eq hdeclare hcut hbanish
    (.inr (.inl hconstant)) ⟨none, none, fun _ ↦ 0.0⟩ 5
  rw [hrun] at hcontains hget hisConstant
  exact ⟨w, statement, hrun, by decide, hconstant, hcontains.trans (by decide),
    hget.trans (by decide), hisConstant.trans hconstant⟩

end VexLang
