import VexLang.Proofs.Compile.Interpreted
import VexLang.Proofs.Compile.Terms
import VexLang.Proofs.Compile.Tracks

/-!
# Courses of compiled programs

The code that a portable program is compiled to is accepted, and it keeps track of the
course of the program. The counter of a loop hides the variable of its name, which
is given back unchanged when the loop is left.
-/

namespace VexLang

open JavaScript

variable {engine : Engine} {fuel : Nat} {loops : Bool} {scope : Scope} {env : Environment}
  {m : Machine}

theorem isYup_eq (v : Value) : JavaScript.isYup v = v.isYup := by
  cases v with
  | boolean b => cases b <;> rfl
  | text s => simp [JavaScript.isYup, Value.isYup, Value.strictEq]
  | _ => rfl

theorem inScope_nil {α : Type} (action : Action α) : Action.inScope [] action = action := by
  funext m
  have hhide : m.hide [] = m := by
    simp only [Machine.hide, List.not_mem_nil, if_false]
  rw [Action.inScope, hhide]
  cases action m with
  | ok a m' => simp only [Machine.giveBack, List.not_mem_nil, if_false]
  | error e m' => rfl

theorem PortableNode.toStmt_ne_declare {node : Node} (h : PortableNode loops scope node)
    (constant : Bool) (name : String) (value : Expr) :
    (emit .quoted node).toStmt ≠ .declare constant name value := by
  cases h with
  | assignment hname hvalue => simp [emit, Piece.toStmt]
  | print hparams => simp [emit, Piece.toStmt, printCommand]
  | branch kind hcondition hbody halternate => simp [emit, Piece.toStmt]
  | loop hloops htimes hbody => simp [emit, Piece.toStmt]

theorem declaredNames_cons_of_ne {s : Stmt} (h : ∀ c name value, s ≠ .declare c name value)
    (ss : List Stmt) : declaredNames (s :: ss) = declaredNames ss := by
  cases s with
  | declare c name value => exact absurd rfl (h c name value)
  | _ => rfl

theorem declaredNames_body {nodes : List Node}
    (h : ∀ node ∈ nodes, PortableNode loops scope node) : declaredNames (emitBody nodes) = [] := by
  induction nodes with
  | nil => rfl
  | cons node nodes ih =>
      rw [emitBody, declaredNames_cons_of_ne (h node (by simp)).toStmt_ne_declare,
        ih fun n hn ↦ h n (List.mem_cons_of_mem _ hn)]

/-- The alternate of a condition is run like a body of its own. -/
theorem execOtherwise_eq {alternate : Option Node}
    (h : ∀ node ∈ alternate, PortableNode loops scope node) :
    execOtherwise engine fuel (emitAlternate alternate) =
      execAll engine fuel (emitBody alternate.toList) := by
  cases alternate with
  | none => rfl
  | some node =>
      have hnames : declaredNames (emitBody [node]) = [] :=
        declaredNames_body fun n hn ↦ h n (List.mem_singleton.mp hn ▸ rfl)
      rw [emitBody, emitBody] at hnames
      rw [emitAlternate, execOtherwise, hnames, inScope_nil, Option.toList, emitBody, emitBody,
        execAll, execAll]
      funext m
      simp only [bind, EStateM.bind]
      cases (emit .quoted node).toStmt.exec engine fuel m <;> rfl

theorem logAll_values {params : List Node} (h : ∀ param ∈ params, PortableValue scope param)
    {m : Machine} (hholds : Holds scope env m) :
    logAll engine fuel (emitExprs .quoted params) m =
      .ok () { m with
        trace := m.trace ++ params.map fun p ↦ .line (printedText (p.value env)) } := by
  induction params generalizing m with
  | nil =>
      rw [List.map_nil, List.append_nil]
      rfl
  | cons param params ih =>
      have hparam : ((emit .quoted param).toExpr param).eval engine fuel m =
          .ok (param.kept env) m := (h param (by simp)).eval_code hholds
      have hnote : Action.note (.line (printedText (param.kept env))) m = .ok ()
          { m with trace := m.trace ++ [.line (printedText (param.value env))] } := by
        rw [printedText_kept (h param (by simp))]
        rfl
      have hlater : Holds scope env
        { m with trace := m.trace ++ [.line (printedText (param.value env))] } := hholds
      rw [emitExprs, logAll, bind_of_ok hparam, bind_of_ok hnote,
        ih (fun p hp ↦ h p (List.mem_cons_of_mem _ hp)) hlater, List.map_cons, List.append_assoc]
      rfl

def compiledLimit (engine : Engine) (times : Node) (fuel : Nat) : Action Value :=
  ((emit .bare times).toExpr times).eval engine fuel

def compiledBlock (engine : Engine) (nodes : List Node) (fuel : Nat) : Action Unit :=
  Action.inScope (declaredNames (emitBody nodes)) (execAll engine fuel (emitBody nodes))

/-- The task in generated code. -/
def Task.action (engine : Engine) : Task → Nat → Nat → Action Unit
  | .body nodes, fuel, _ => execAll engine fuel (emitBody nodes)
  | .rounds times _ nodes _, fuel, grant =>
    Action.countUp (compiledLimit engine times fuel) (compiledBlock engine nodes fuel) grant

theorem compiledBlock_eq {nodes : List Node}
    (h : ∀ node ∈ nodes, PortableNode loops scope node) :
    compiledBlock engine nodes fuel = execAll engine fuel (emitBody nodes) := by
  rw [compiledBlock, declaredNames_body h, inScope_nil]

theorem Task.grows_action (task : Task) (fuel grant : Nat) :
    Grows (task.action engine fuel grant) := by
  cases task with
  | body nodes => exact grows_execAll engine fuel _
  | rounds times limit nodes count =>
      exact .countUp (Expr.grows engine fuel _) ((grows_execAll engine fuel _).inScope _) grant

/-- The names in scope hold what they have in the environment; no other has changed. -/
structure Settled (scope : Scope) (env : Environment) (m m' : Machine) : Prop where
  holds : Holds scope env m'
  frame : ∀ x, (∀ c, (x, c) ∉ scope) → m'.vars x = m.vars x

theorem Settled.trans {env₁ env₂ : Environment} {m₁ m₂ : Machine}
    (h₁ : Settled scope env₁ m m₁) (h₂ : Settled scope env₂ m₁ m₂) : Settled scope env₂ m m₂ :=
  ⟨h₂.holds, fun x hx ↦ (h₂.frame x hx).trans (h₁.frame x hx)⟩

namespace Task

/-- The counter of a loop is a variable of its own. -/
def Ready (scope : Scope) (m : Machine) : Task → Prop
  | .body _ => True
  | .rounds times _ _ count => PortableTerm scope times ∧ (∀ c, (Action.counter, c) ∉ scope) ∧
      m.vars Action.counter = some ⟨false, some (.number count)⟩

def Reached (scope : Scope) (env : Environment) (m : Machine) : Task → Machine → Prop
  | .body _, m' => Settled scope env m m'
  | .rounds .., m' => Holds scope env m' ∧
      ∀ x, (∀ c, (x, c) ∉ scope) → x ≠ Action.counter → m'.vars x = m.vars x

end Task

theorem tracks_cons {node : Node} {nodes : List Node} {env₁ env₂ : Environment}
    {moments₁ moments₂ : List Moment}
    (hnode : Tracks moments₁ (Settled scope env₁ m)
      (fun fuel _ ↦ (emit .quoted node).toStmt.exec engine fuel) m)
    (hnodes : ∀ {m₁ : Machine}, Holds scope env₁ m₁ →
      Tracks moments₂ (Settled scope env₂ m₁) ((Task.body nodes).action engine) m₁) :
    Tracks (moments₁ ++ moments₂) (Settled scope env₂ m)
      ((Task.body (node :: nodes)).action engine) m := by
  have hrest : ∀ m₁, Settled scope env₁ m m₁ →
      Tracks moments₂ (Settled scope env₂ m) ((Task.body nodes).action engine) m₁ := by
    intro m₁ hsettled
    exact (hnodes hsettled.holds).mono fun m₂ hsettled₂ ↦ hsettled.trans hsettled₂
  have hbind := hnode.bind hrest (Task.body nodes).grows_action
  exact hbind.congr fun fuel grant ↦ rfl

theorem Holds.set {name : String} (h : Holds scope env m) (hname : (name, false) ∈ scope)
    (v : Value) : Holds scope (env.bind name ⟨v, false⟩) (m.set name ⟨false, some v⟩) := by
  intro x c hx
  rw [Environment.find?_bind, Machine.set_vars]
  by_cases heq : x = name
  · subst heq
    obtain ⟨v₁, hv₁, -⟩ := h hx
    obtain ⟨v₂, hv₂, -⟩ := h hname
    rw [hv₁, Option.some.injEq, Binding.mk.injEq] at hv₂
    exact ⟨v, by rw [if_pos rfl, hv₂.2], by rw [if_pos rfl, hv₂.2]⟩
  · rw [if_neg heq, if_neg heq]
    exact h hx

theorem Holds.binds (h : Holds scope env m) : Binds scope env := by
  intro x c hx
  obtain ⟨v, hv, -⟩ := h hx
  exact ⟨v, hv⟩

theorem tracks_assignment {name : String} {value : Node} (hname : (name, false) ∈ scope)
    (hvalue : PortableValue scope value) (hholds : Holds scope env m) :
    Tracks [] (Settled scope (env.bind name ⟨value.kept env, false⟩) m)
      (fun fuel _ ↦ (emit .quoted (.assignment name value)).toStmt.exec engine fuel) m := by
  have hexec : ∀ fuel (grant : Nat), (emit .quoted (.assignment name value)).toStmt.exec engine fuel m =
      .ok () (m.set name ⟨false, some (value.kept env)⟩) := by
    intro fuel grant
    obtain ⟨v, -, hvars⟩ := hholds hname
    rw [emit, Piece.toStmt, Stmt.exec, bind_of_ok (hvalue.eval_code hholds), Action.assign, hvars]
  refine .of_ok hexec (by simp) ⟨hholds.set hname _, fun x hx ↦ ?_⟩ (by simp)
  have hne : x ≠ name := by
    rintro rfl
    exact hx false hname
  rw [Machine.set_vars, if_neg hne]

theorem tracks_print {params : List Node} (hparams : ∀ param ∈ params, PortableValue scope param)
    (hholds : Holds scope env m) :
    Tracks (params.map fun p ↦ .line (p.value env)) (Settled scope env m)
      (fun fuel _ ↦ (emit .quoted (.call printCommand params)).toStmt.exec engine fuel) m := by
  have hexec : ∀ fuel (grant : Nat),
      (emit .quoted (.call printCommand params)).toStmt.exec engine fuel m = .ok ()
        { m with
          trace := m.trace ++ params.map fun p ↦ .line (printedText (p.value env)) } := by
    intro fuel grant
    exact logAll_values hparams hholds
  refine .of_ok hexec (fun moment hmoment ↦ ?_) ⟨hholds, fun x _ ↦ rfl⟩ ?_
  · obtain ⟨param, -, rfl⟩ := List.mem_map.mp hmoment
    trivial
  · rw [List.map_map]
    rfl

theorem tracks_branch {kind : BranchKind} {condition : Node} {body : List Node}
    {alternate : Option Node} {env₁ : Environment} {moments : List Moment}
    (hcondition : PortableTerm scope condition)
    (hbody : ∀ node ∈ body, PortableNode loops scope node)
    (halternate : ∀ node ∈ alternate, PortableNode loops scope node)
    (hholds : Holds scope env m)
    (hchosen : Tracks moments (Settled scope env₁ m) ((Task.body (if (condition.value env).isYup
      then body else alternate.toList)).action engine) m) :
    Tracks moments (Settled scope env₁ m) (fun fuel _ ↦
      (emit .quoted (.branch kind condition body alternate)).toStmt.exec engine fuel) m := by
  refine hchosen.congr fun fuel grant ↦ ?_
  have htest : ((emit .bare condition).toExpr condition).eval engine fuel m =
      .ok (condition.value env) m := hcondition.eval_code hholds .bare
  rw [emit, Piece.toStmt, Stmt.exec, bind_of_ok htest, isYup_eq, declaredNames_body hbody,
    inScope_nil, execOtherwise_eq halternate]
  cases (condition.value env).isYup with
  | true => rfl
  | false => rfl

/-- What a counting loop does after a test, with the iterations that are left to it. -/
def afterTest (limit : Action Value) (body : Action Unit) (again : Bool) (grant : Nat) :
    Action Unit :=
  if again then
    match grant with
    | 0 => throw .exhausted
    | grant + 1 => do
      body
      Action.increment
      Action.countUp limit body grant
  else pure ()

theorem countUp_eq (limit : Action Value) (body : Action Unit) (grant : Nat) :
    Action.countUp limit body grant =
      (do afterTest limit body (← Action.test limit) grant) := by
  cases grant with
  | zero => rfl
  | succ grant => rfl

theorem grows_afterTest {limit : Action Value} {body : Action Unit} (hlimit : Grows limit)
    (hbody : Grows body) (again : Bool) (grant : Nat) :
    Grows (afterTest limit body again grant) := by
  cases again with
  | false => exact .pure ()
  | true =>
      cases grant with
      | zero => exact .throw _
      | succ grant =>
          exact hbody.bind fun _ ↦ Grows.increment.bind fun _ ↦ .countUp hlimit hbody grant

theorem test_counter (engine : Engine) {times : Node} {count : Float} (htimes : PortableTerm scope times)
    (hholds : Holds scope env m)
    (hcounter : m.vars Action.counter = some ⟨false, some (.number count)⟩) (fuel : Nat) :
    Action.test (compiledLimit engine times fuel) m =
      .ok (decide (count < (times.value env).toNumber))
        { m with trace := m.trace ++ [.test (decide (count < (times.value env).toNumber))] } := by
  have hread : Action.read Action.counter m = .ok (.number count) m := by
    rw [Action.read, hcounter]
  have hlimit : compiledLimit engine times fuel m = .ok (times.value env) m :=
    htimes.eval_code hholds .bare
  rw [Action.test, bind_of_ok hread, bind_of_ok hlimit]
  rfl

theorem increment_counter {count : Float}
    (hcounter : m.vars Action.counter = some ⟨false, some (.number count)⟩) :
    Action.increment m =
      .ok () (m.set Action.counter ⟨false, some (.number (count + 1.0))⟩) := by
  have hread : Action.read Action.counter m = .ok (.number count) m := by
    rw [Action.read, hcounter]
  rw [Action.increment, bind_of_ok hread, Action.assign, hcounter]
  rfl

/-- Variables other than those in scope do not matter. -/
theorem Holds.set_of_not_mem {name : String} (h : Holds scope env m)
    (hname : ∀ c, (name, c) ∉ scope) (slot : Slot) : Holds scope env (m.set name slot) := by
  intro x c hx
  have hne : x ≠ name := by
    rintro rfl
    exact hname c hx
  rw [Machine.set_vars, if_neg hne]
  exact h hx

/-- A test, and the rest of the loop in the machine that has noted how it came out. -/
theorem tracks_rounds {times : Node} {limit count : Float} {body : List Node}
    {moments : List Moment} {reached : Machine → Prop} (htimes : PortableTerm scope times)
    (hholds : Holds scope env m)
    (hcounter : m.vars Action.counter = some ⟨false, some (.number count)⟩)
    (hrest : Tracks moments reached (fun fuel grant ↦ afterTest (compiledLimit engine times fuel)
        (compiledBlock engine body fuel) (decide (count < limit)) grant)
      { m with trace := m.trace ++ [.test (decide (count < limit))] }) :
    Tracks (.test times count limit env :: moments) reached
      ((Task.rounds times limit body count).action engine) m := by
  have hgrows : ∀ again fuel grant, Grows (afterTest (compiledLimit engine times fuel)
      (compiledBlock engine body fuel) again grant) := fun again fuel grant ↦
    grows_afterTest (Expr.grows engine fuel _) ((grows_execAll engine fuel _).inScope _) again grant
  have htest := Tracks.test (test_counter engine htimes hholds hcounter) hgrows hrest
  refine htest.congr fun fuel grant ↦ ?_
  rw [Task.action, countUp_eq]

theorem tracks_iteration {times : Node} {limit count : Float} {body : List Node}
    {env₁ env₂ : Environment} {moments₁ moments₂ : List Moment}
    (hportable : ∀ node ∈ body, PortableNode loops scope node)
    (hfresh : ∀ c, (Action.counter, c) ∉ scope)
    (hcounter : m.vars Action.counter = some ⟨false, some (.number count)⟩)
    (hbody : Tracks moments₁ (Settled scope env₁ m) ((Task.body body).action engine) m)
    (hrounds : ∀ {m₁ : Machine}, Holds scope env₁ m₁ →
      m₁.vars Action.counter = some ⟨false, some (.number (count + 1.0))⟩ →
      Tracks moments₂ ((Task.rounds times limit body (count + 1.0)).Reached scope env₂ m₁)
        ((Task.rounds times limit body (count + 1.0)).action engine) m₁) :
    Tracks (moments₁ ++ moments₂) ((Task.rounds times limit body count).Reached scope env₂ m)
      (fun fuel grant ↦ afterTest (compiledLimit engine times fuel)
        (compiledBlock engine body fuel) true grant) m := by
  -- between the body and the next test stands the increment of the counter
  have hnext : ∀ m₁, Settled scope env₁ m m₁ →
      Tracks ([] ++ moments₂) ((Task.rounds times limit body count).Reached scope env₂ m)
        (fun fuel grant ↦ do
          Action.increment
          (Task.rounds times limit body (count + 1.0)).action engine fuel grant) m₁ := by
    intro m₁ hsettled
    have hcounter₁ : m₁.vars Action.counter = some ⟨false, some (.number count)⟩ :=
      (hsettled.frame _ hfresh).trans hcounter
    have hincrement : Tracks [] (· = m₁.set Action.counter ⟨false, some (.number (count + 1.0))⟩)
        (fun _ _ ↦ Action.increment) m₁ :=
      .of_ok (fun _ _ ↦ increment_counter hcounter₁) (by simp) rfl (by simp)
    refine hincrement.bind ?_ (Task.rounds times limit body (count + 1.0)).grows_action
    rintro m₂ rfl
    refine (hrounds (hsettled.holds.set_of_not_mem hfresh _) (by simp)).mono ?_
    rintro m₃ ⟨hholds₃, hframe₃⟩
    refine ⟨hholds₃, fun x hx hne ↦ ?_⟩
    rw [hframe₃ x hx hne, Machine.set_vars, if_neg hne, hsettled.frame x hx]
  have hbind := hbody.bind hnext fun fuel grant ↦
    Grows.increment.bind fun _ ↦ Task.grows_action _ fuel grant
  refine hbind.iteration.congr fun fuel grant ↦ ?_
  cases grant with
  | zero => rfl
  | succ grant =>
      simp only [afterTest, if_pos, Task.action, compiledBlock_eq hportable]

/-- The counter hides the variable of its name, which is given back in the end. -/
theorem tracks_loop {times : Node} {body : List Node} {env₁ : Environment}
    {moments : List Moment} (hholds : Holds scope env m)
    (hkept : env₁.find? Action.counter = env.find? Action.counter)
    (hrounds : ∀ {m₁ : Machine}, Holds scope.inLoop env m₁ →
      m₁.vars Action.counter = some ⟨false, some (.number 0.0)⟩ →
      Tracks moments ((Task.rounds times (times.value env).toNumber body 0.0).Reached
          scope.inLoop env₁ m₁)
        ((Task.rounds times (times.value env).toNumber body 0.0).action engine) m₁) :
    Tracks moments (Settled scope env₁ m)
      (fun fuel _ ↦ (emit .quoted (.loop (some times) body)).toStmt.exec engine fuel) m := by
  have hfresh : ∀ c, (Action.counter, c) ∉ scope.inLoop :=
    fun c hc ↦ (Scope.mem_inLoop.mp hc).2 rfl
  have hinit : ∀ m₀ : Machine, Tracks []
      (· = m₀.set Action.counter ⟨false, some (.number 0.0)⟩)
      (fun _ _ ↦ Action.initialise false Action.counter (.number 0.0)) m₀ :=
    fun m₀ ↦ .of_ok (fun _ _ ↦ rfl) (by simp) rfl (by simp)
  refine Tracks.inScope (Tracks.bind (hinit _) ?_ fun fuel _ ↦
    Task.grows_action (.rounds times (times.value env).toNumber body 0.0) fuel fuel)
  rintro m₁ rfl
  have hholds₁ : Holds scope.inLoop env (m.hide [Action.counter]) := by
    intro x c hx
    have hne : x ∉ [Action.counter] := fun hmem ↦
      (Scope.mem_inLoop.mp hx).2 (List.mem_singleton.mp hmem)
    rw [Machine.hide_vars, if_neg hne]
    exact hholds (Scope.mem_inLoop.mp hx).1
  refine (hrounds (hholds₁.set_of_not_mem hfresh _) (by simp)).diagonal.mono ?_
  rintro m₂ ⟨hholds₂, hframe₂⟩
  constructor
  · intro x c hx
    rw [Machine.giveBack_vars]
    by_cases hcounter : x = Action.counter
    · rw [if_pos (List.mem_singleton.mpr hcounter), hcounter, hkept, ← hcounter]
      exact hholds hx
    · rw [if_neg (fun hmem ↦ hcounter (List.mem_singleton.mp hmem))]
      exact hholds₂ (Scope.mem_inLoop.mpr ⟨hx, hcounter⟩)
  · intro x hx
    rw [Machine.giveBack_vars]
    by_cases hcounter : x = Action.counter
    · rw [if_pos (List.mem_singleton.mpr hcounter)]
    · have hne : x ∉ [Action.counter] := fun hmem ↦ hcounter (List.mem_singleton.mp hmem)
      rw [if_neg hne, hframe₂ x (fun c hc ↦ hx c (Scope.mem_inLoop.mp hc).1) hcounter,
        Machine.set_vars, if_neg hcounter, Machine.hide_vars, if_neg hne]

theorem Course.tracks {task : Task} {env env' : Environment} {moments : List Moment}
    (h : Course task env moments env') :
    ∀ {scope : Scope} {m : Machine}, (∀ node ∈ task.nodes, PortableNode loops scope node) →
      Holds scope env m → task.Ready scope m →
      Tracks moments (task.Reached scope env' m) (task.action engine) m := by
  induction h with
  | done =>
      intro scope m _ hholds _
      exact .of_ok (fun fuel grant ↦ rfl) (by simp) ⟨hholds, fun x _ ↦ rfl⟩ (by simp)
  | declaration hrest ih =>
      intro scope m hportable hholds _
      cases hportable _ (List.mem_cons_self ..)
  | @assignment env env₁ env' name value nodes moments hassign hrest ih =>
      intro scope m hportable hholds _
      cases hportable _ (List.mem_cons_self ..) with
      | assignment hname hvalue =>
          rw [hholds.binds.assign hname, Except.ok.injEq] at hassign
          subst hassign
          exact tracks_cons (tracks_assignment hname hvalue hholds) fun hholds₁ ↦
            ih (fun n hn ↦ hportable n (List.mem_cons_of_mem _ hn)) hholds₁ trivial
  | print hrest ih =>
      intro scope m hportable hholds _
      cases hportable _ (List.mem_cons_self ..) with
      | print hparams =>
          exact tracks_cons (tracks_print hparams hholds) fun hholds₁ ↦
            ih (fun n hn ↦ hportable n (List.mem_cons_of_mem _ hn)) hholds₁ trivial
  | branch hchosen hrest ihchosen ihrest =>
      intro scope m hportable hholds _
      cases hportable _ (List.mem_cons_self ..) with
      | branch kind hcondition hbody halternate =>
          have htracks := ihchosen (forall_chosen hbody halternate _) hholds trivial
          exact tracks_cons (tracks_branch hcondition hbody halternate hholds htracks)
            fun hholds₁ ↦
              ihrest (fun n hn ↦ hportable n (List.mem_cons_of_mem _ hn)) hholds₁ trivial
  | @loop env env₁ env' times body nodes moments₁ moments hrounds hrest ihrounds ihrest =>
      intro scope m hportable hholds _
      cases hportable _ (List.mem_cons_self ..) with
      | loop hloops htimes hbody =>
          have hfresh : ∀ c, (Action.counter, c) ∉ scope.inLoop :=
            fun c hc ↦ (Scope.mem_inLoop.mp hc).2 rfl
          have hkept := (hrounds.keeps hbody hholds.binds.inLoop).2 Action.counter hfresh
          refine tracks_cons (tracks_loop hholds hkept fun hholds₁ hcounter ↦ ?_) fun hholds₁ ↦ ?_
          · exact ihrounds hbody hholds₁ ⟨htimes, hfresh, hcounter⟩
          · exact ihrest (fun n hn ↦ hportable n (List.mem_cons_of_mem _ hn)) hholds₁ trivial
  | @last env times limit count body hlimit =>
      rintro scope m hportable hholds ⟨htimes, hfresh, hcounter⟩
      refine tracks_rounds htimes hholds hcounter ?_
      rw [decide_eq_false hlimit]
      exact .of_ok (fun fuel grant ↦ rfl) (by simp) ⟨hholds, fun x _ _ ↦ rfl⟩ (by simp)
  | @next env env₁ env' times limit count body moments₁ moments hlimit hbody hrounds ihbody
      ihrounds =>
      rintro scope m hportable hholds ⟨htimes, hfresh, hcounter⟩
      refine tracks_rounds htimes hholds hcounter ?_
      rw [decide_eq_true hlimit]
      have hiteration := tracks_iteration (m := { m with trace := m.trace ++ [.test true] })
        hportable hfresh hcounter (ihbody hportable hholds trivial)
        fun hholds₁ hcounter₁ ↦ ihrounds hportable hholds₁ ⟨htimes, hfresh, hcounter₁⟩
      exact hiteration

theorem Course.uncons {node : Node} {nodes : List Node} {env env' : Environment}
    {moments : List Moment} (h : Course (.body (node :: nodes)) env moments env') :
    ∃ moments₁ moments₂ env₁, moments = moments₁ ++ moments₂ ∧
      Course (.body [node]) env moments₁ env₁ ∧ Course (.body nodes) env₁ moments₂ env' := by
  cases h with
  | declaration hrest => exact ⟨[], moments, _, rfl, .declaration .done, hrest⟩
  | assignment hassign hrest => exact ⟨[], moments, _, rfl, .assignment hassign .done, hrest⟩
  | @print _ _ params _ moments hrest =>
      have hnode : Course (.body [.call printCommand params]) env _ env := .print .done
      rw [List.append_nil] at hnode
      exact ⟨_, _, _, rfl, hnode, hrest⟩
  | @branch _ _ _ kind condition body _ alternate _ _ hchosen hrest =>
      have hnode : Course (.body [.branch kind condition body alternate]) env _ _ :=
        .branch hchosen .done
      rw [List.append_nil] at hnode
      exact ⟨_, _, _, rfl, hnode, hrest⟩
  | loop hrounds hrest =>
      have hnode := Course.loop hrounds .done
      rw [List.append_nil] at hnode
      exact ⟨_, _, _, rfl, hnode, hrest⟩

theorem Holds.declare {name : String} (h : Holds scope env m) (hfresh : ∀ c, (name, c) ∉ scope)
    (v : Value) (constant : Bool) : Holds ((name, constant) :: scope)
      (env.declare name v constant) (m.set name ⟨constant, some v⟩) := by
  intro x c hx
  rw [Environment.find?_declare, Machine.set_vars]
  rcases List.mem_cons.mp hx with heq | hscope
  · obtain ⟨rfl, rfl⟩ := Prod.mk.inj heq
    exact ⟨v, if_pos rfl, if_pos rfl⟩
  · have hne : x ≠ name := by
      rintro rfl
      exact hfresh c hscope
    rw [if_neg hne, if_neg hne]
    exact h hscope

theorem PortableProgram.tracks {usable : String → Bool} {program : Program}
    (h : PortableProgram usable loops scope program) :
    ∀ {env env' : Environment} {moments : List Moment} {m : Machine},
      Course (.body program) env moments env' → Holds scope env m →
      Tracks moments (fun _ ↦ True) ((Task.body program).action engine) m := by
  induction h with
  | nil =>
      intro env env' moments m hcourse _
      cases hcourse
      exact .of_ok (fun _ _ ↦ rfl) (by simp) trivial (by simp)
  | @declaration scope name value constant program husable hfresh hvalue hrest ih =>
      intro env env' moments m hcourse hholds
      cases hcourse with
      | declaration hcourse =>
          have hdeclare : Tracks [] (· = m.set name ⟨constant, some (value.kept env)⟩)
              (fun fuel _ ↦ (emit .quoted (.declaration name value constant)).toStmt.exec
                engine fuel) m := by
            refine .of_ok (fun fuel _ ↦ ?_) (by simp) rfl (by simp)
            rw [emit, Piece.toStmt, Stmt.exec, bind_of_ok (hvalue.eval_code hholds)]
            rfl
          have hbind := hdeclare.bind (fun m₁ hm₁ ↦ by
            subst hm₁
            exact ih hcourse (hholds.declare hfresh _ constant)) (Task.body program).grows_action
          exact hbind.congr fun _ _ ↦ rfl
  | @statement scope node program hnode hrest ih =>
      intro env env' moments m hcourse hholds
      obtain ⟨moments₁, moments₂, env₁, rfl, hcourse₁, hcourse₂⟩ := hcourse.uncons
      have hstatement : Tracks moments₁ (Settled scope env₁ m)
          ((Task.body [node]).action engine) m :=
        hcourse₁.tracks (fun n hn ↦ List.mem_singleton.mp hn ▸ hnode) hholds trivial
      have hbind := hstatement.bind (fun m₁ hsettled ↦ ih hcourse₂ hsettled.holds)
        (Task.body program).grows_action
      refine hbind.congr fun fuel grant ↦ ?_
      simp only [Task.action, emitBody, execAll, bind, EStateM.bind]
      cases (emit .quoted node).toStmt.exec engine fuel m <;> rfl

theorem acceptedStmts_body {nodes : List Node}
    (h : ∀ node ∈ nodes, (emit .quoted node).toStmt.accepted engine = true) :
    acceptedStmts engine (emitBody nodes) = true := by
  induction nodes with
  | nil => rfl
  | cons node nodes ih =>
      rw [emitBody, acceptedStmts, h node (by simp),
        ih fun n hn ↦ h n (List.mem_cons_of_mem _ hn)]
      rfl

theorem PortableNode.accepted {node : Node} (h : PortableNode loops scope node)
    (husable : Usable engine scope) : (emit .quoted node).toStmt.accepted engine = true := by
  induction h with
  | assignment hname hvalue =>
      rw [emit, Piece.toStmt, Stmt.accepted, husable hname, hvalue.accepted husable]
      rfl
  | @print scope params hparams =>
      rw [emit, printCommand, if_pos rfl, Piece.toStmt, Stmt.accepted, acceptedExprs_eq_true_iff,
        emitExprs_eq_map]
      intro e he
      obtain ⟨param, hparam, rfl⟩ := List.mem_map.mp he
      exact (hparams param hparam).accepted husable
  | @branch scope condition body alternate kind hcondition hbody halternate ihbody ihalternate =>
      have hotherwise : acceptedOtherwise engine (emitAlternate alternate) = true := by
        cases alternate with
        | none => rfl
        | some node => exact ihalternate node rfl husable
      rw [emit, Piece.toStmt, Stmt.accepted, hcondition.accepted husable,
        acceptedStmts_body fun n hn ↦ ihbody n hn husable, declaredNames_body hbody, hotherwise]
      rfl
  | loop hloops htimes hbody ihbody =>
      rw [emit, Piece.toStmt, Stmt.accepted, htimes.accepted husable.inLoop,
        acceptedStmts_body fun n hn ↦ ihbody n hn husable.inLoop, declaredNames_body hbody]
      rfl

/-- The code of a program declares its names once each, and has no early errors. -/
theorem PortableProgram.accepted {program : Program}
    (h : PortableProgram engine.usable loops scope program) (husable : Usable engine scope) :
    acceptedStmts engine (emitBody program) = true ∧
      (declaredNames (emitBody program)).Nodup ∧
      ∀ name ∈ declaredNames (emitBody program), ∀ c, (name, c) ∉ scope := by
  induction h with
  | nil => exact ⟨rfl, .nil, by simp [emitBody, declaredNames]⟩
  | @declaration scope name value constant program hname hfresh hvalue hrest ih =>
      have husable' : Usable engine ((name, constant) :: scope) := by
        intro x c hx
        rcases List.mem_cons.mp hx with heq | hscope
        · obtain ⟨rfl, rfl⟩ := Prod.mk.inj heq
          exact hname
        · exact husable hscope
      obtain ⟨haccepted, hnodup, hapart⟩ := ih husable'
      have hnames : declaredNames (emitBody (.declaration name value constant :: program)) =
        name :: declaredNames (emitBody program) := rfl
      refine ⟨?_, ?_, ?_⟩
      · rw [emitBody, acceptedStmts, haccepted, emit, Piece.toStmt, Stmt.accepted, hname,
          hvalue.accepted husable]
        rfl
      · rw [hnames, List.nodup_cons]
        exact ⟨fun hmem ↦ hapart name hmem constant (List.mem_cons_self ..), hnodup⟩
      · intro x hx c hscope
        rw [hnames] at hx
        rcases List.mem_cons.mp hx with rfl | hx
        · exact hfresh c hscope
        · exact hapart x hx c (List.mem_cons_of_mem _ hscope)
  | @statement scope node program hnode hrest ih =>
      obtain ⟨haccepted, hnodup, hapart⟩ := ih husable
      rw [emitBody, declaredNames_cons_of_ne hnode.toStmt_ne_declare, acceptedStmts,
        hnode.accepted husable, haccepted]
      exact ⟨rfl, hnodup, hapart⟩

/-- The code of a program keeps track of the course that the program takes from the empty
environment. -/
theorem PortableProgram.tracks_script {program : Program} {moments : List Moment}
    (h : PortableProgram engine.usable loops [] program) {env : Environment}
    (hcourse : Course (.body program) .empty moments env) :
    Tracks moments (fun _ ↦ True) (fun fuel _ ↦ runScript engine fuel (emitBody program))
      .start := by
  obtain ⟨haccepted, hnodup, -⟩ := h.accepted fun x c hx ↦ absurd hx (List.not_mem_nil)
  have hscript : ∀ fuel, runScript engine fuel (emitBody program) =
      Action.inScope (declaredNames (emitBody program))
        ((Task.body program).action engine fuel fuel) := by
    intro fuel
    rw [runScript, haccepted, decide_eq_true hnodup]
    rfl
  have hholds : Holds [] .empty (Machine.start.hide (declaredNames (emitBody program))) :=
    fun x c hx ↦ absurd hx List.not_mem_nil
  have htracks : Tracks moments (fun _ ↦ True) ((Task.body program).action engine)
      (Machine.start.hide (declaredNames (emitBody program))) := h.tracks hcourse hholds
  refine (Tracks.inScope htracks.diagonal).congr fun fuel _ ↦ ?_
  rw [hscript]

end VexLang
