import VexLang.Proofs.Compile.Portable
import VexLang.Proofs.Effect
import VexLang.Run

/-!
# Courses of interpreted programs

With a host that does not interfere, the interpreter follows the course of a portable
program to its end, unless it runs out of iterations in one of its loops. A course
changes only the variables that are in scope.
-/

namespace VexLang

open Effect

def Binds (scope : Scope) (env : Environment) : Prop :=
  ∀ ⦃name c⦄, (name, c) ∈ scope → ∃ v, env.find? name = some ⟨v, c⟩

theorem Binds.inLoop {scope : Scope} {env : Environment} (h : Binds scope env) :
    Binds scope.inLoop env :=
  fun _ _ hname ↦ h (Scope.mem_inLoop.mp hname).1

theorem Binds.assign {scope : Scope} {env : Environment} (h : Binds scope env) {name : String}
    (hname : (name, false) ∈ scope) (v : Value) :
    env.assign name v = .ok (env.bind name ⟨v, false⟩) := by
  have hcheck := (env.checkAssignable_eq_ok_iff name).mpr (h hname)
  rw [Environment.assign, hcheck]

theorem Binds.bind {scope : Scope} {env : Environment} (h : Binds scope env) {name : String}
    (hname : (name, false) ∈ scope) (v : Value) : Binds scope (env.bind name ⟨v, false⟩) := by
  intro x c hx
  rw [Environment.find?_bind]
  by_cases heq : x = name
  · subst heq
    obtain ⟨v₁, hv₁⟩ := h hx
    obtain ⟨v₂, hv₂⟩ := h hname
    rw [hv₁, Option.some.injEq, Binding.mk.injEq] at hv₂
    exact ⟨v, by rw [if_pos rfl, hv₂.2]⟩
  · rw [if_neg heq]
    exact h hx

/-- The statements that a task is made of. -/
def Task.nodes : Task → List Node
  | .body nodes => nodes
  | .rounds _ _ nodes _ => nodes

theorem forall_chosen {p : Node → Prop} {body : List Node} {alternate : Option Node}
    (hbody : ∀ node ∈ body, p node) (halternate : ∀ node ∈ alternate, p node) (chosen : Bool) :
    ∀ node ∈ (if chosen then body else alternate.toList), p node := by
  cases chosen with
  | true => exact hbody
  | false => exact fun node hnode ↦ halternate node (Option.mem_toList.mp hnode)

namespace Course

/-- A course keeps the names in scope bound and does not touch any others. -/
theorem keeps {loops : Bool} {task : Task} {env env' : Environment} {moments : List Moment}
    (h : Course task env moments env') :
    ∀ {scope : Scope}, (∀ node ∈ task.nodes, PortableNode loops scope node) → Binds scope env →
      Binds scope env' ∧ ∀ x, (∀ c, (x, c) ∉ scope) → env'.find? x = env.find? x := by
  induction h with
  | done => exact fun _ hbinds ↦ ⟨hbinds, fun _ _ ↦ rfl⟩
  | declaration hrest ih =>
      intro scope hwithin hbinds
      cases hwithin _ (List.mem_cons_self ..)
  | @assignment env env₁ env' name value nodes moments hassign hrest ih =>
      intro scope hwithin hbinds
      cases hwithin _ (List.mem_cons_self ..) with
      | assignment hname hvalue =>
          rw [hbinds.assign hname, Except.ok.injEq] at hassign
          subst hassign
          obtain ⟨hbinds', hframe⟩ := ih (fun n hn ↦ hwithin n (List.mem_cons_of_mem _ hn))
            (hbinds.bind hname _)
          refine ⟨hbinds', fun x hx ↦ ?_⟩
          have hne : x ≠ name := by
            rintro rfl
            exact hx false hname
          rw [hframe x hx, Environment.find?_bind, if_neg hne]
  | print hrest ih =>
      intro scope hwithin hbinds
      exact ih (fun n hn ↦ hwithin n (List.mem_cons_of_mem _ hn)) hbinds
  | branch hchosen hrest ihchosen ihrest =>
      intro scope hwithin hbinds
      cases hwithin _ (List.mem_cons_self ..) with
      | branch kind hcondition hbody halternate =>
          obtain ⟨hbinds₁, hframe₁⟩ :=
            ihchosen (forall_chosen hbody halternate _) hbinds
          obtain ⟨hbinds', hframe⟩ :=
            ihrest (fun n hn ↦ hwithin n (List.mem_cons_of_mem _ hn)) hbinds₁
          exact ⟨hbinds', fun x hx ↦ (hframe x hx).trans (hframe₁ x hx)⟩
  | @loop env env₁ env' times body nodes moments₁ moments hrounds hrest ihrounds ihrest =>
      intro scope hwithin hbinds
      cases hwithin _ (List.mem_cons_self ..) with
      | loop hloops htimes hbody =>
          obtain ⟨hinner, hframe₁⟩ := ihrounds hbody hbinds.inLoop
          -- the counter's name is out of reach inside, so it is still bound as before
          have hbinds₁ : Binds scope env₁ := by
            intro x c hx
            by_cases hcounter : x = JavaScript.Action.counter
            · rw [hframe₁ x fun c' hc' ↦ (Scope.mem_inLoop.mp hc').2 hcounter]
              exact hbinds hx
            · exact hinner (Scope.mem_inLoop.mpr ⟨hx, hcounter⟩)
          obtain ⟨hbinds', hframe⟩ :=
            ihrest (fun n hn ↦ hwithin n (List.mem_cons_of_mem _ hn)) hbinds₁
          refine ⟨hbinds', fun x hx ↦ (hframe x hx).trans (hframe₁ x fun c hc ↦ ?_)⟩
          exact hx c (Scope.mem_inLoop.mp hc).1
  | last hlimit => exact fun _ hbinds ↦ ⟨hbinds, fun _ _ ↦ rfl⟩
  | next hlimit hbody hrounds ihbody ihrounds =>
      intro scope hwithin hbinds
      obtain ⟨hbinds₁, hframe₁⟩ := ihbody hwithin hbinds
      obtain ⟨hbinds', hframe⟩ := ihrounds hwithin hbinds₁
      exact ⟨hbinds', fun x hx ↦ (hframe x hx).trans (hframe₁ x hx)⟩

theorem cons {node : Node} {nodes : List Node} {env env₁ env' : Environment}
    {moments₁ moments : List Moment} (hnode : Course (.body [node]) env moments₁ env₁)
    (hrest : Course (.body nodes) env₁ moments env') :
    Course (.body (node :: nodes)) env (moments₁ ++ moments) env' := by
  cases hnode with
  | declaration hdone =>
      cases hdone
      exact .declaration hrest
  | assignment hassign hdone =>
      cases hdone
      exact .assignment hassign hrest
  | print hdone =>
      cases hdone
      rw [List.append_nil]
      exact .print hrest
  | branch hchosen hdone =>
      cases hdone
      rw [List.append_nil]
      exact .branch hchosen hrest
  | loop hrounds hdone =>
      cases hdone
      rw [List.append_nil]
      exact .loop hrounds hrest

end Course

/-- The moments have come to pass between two worlds. -/
structure Advances (w : World) (moments : List Moment) (w' : World) : Prop where
  events : w'.events.toList = w.events.toList ++ moments.flatMap Moment.events
  interrupted : w'.interrupted = w.interrupted

namespace Advances

theorem refl (w : World) : Advances w [] w := ⟨by simp, rfl⟩

theorem trans {w w₁ w₂ : World} {moments₁ moments₂ : List Moment}
    (h₁ : Advances w moments₁ w₁) (h₂ : Advances w₁ moments₂ w₂) :
    Advances w (moments₁ ++ moments₂) w₂ := by
  refine ⟨?_, h₂.interrupted.trans h₁.interrupted⟩
  rw [h₂.events, h₁.events, List.append_assoc, List.flatMap_append]

theorem setEnv {w w' : World} {moments : List Moment} (env : Environment)
    (h : Advances { w with env := env } moments w') : Advances w moments w' :=
  ⟨h.events, h.interrupted⟩

end Advances

/-- The host does not interfere. -/
def Host.quiet (chance : Nat → Float) : Host := ⟨none, none, chance⟩

/-- The effect follows the course of the task, unless a loop runs out of iterations. -/
def Follows {α : Type} (loops : Bool) (task : Task) (effect : Effect α) (w : World) : Prop :=
  (∃ a moments w', effect w = .ok a w' ∧ Course task w.env moments w'.env ∧
    Advances w moments w') ∨ (loops = true ∧ ∃ w', effect w = .error .exhausted w')

section

variable {chance : Nat → Float} {fuel : Nat} {loops : Bool} {scope : Scope}

theorem eval_term {node : Node} (h : PortableTerm scope node) (w : World) :
    eval (.quiet chance) fuel node w = .ok (node.value w.env) w := by
  induction h with
  | literal hv => rfl
  | @cast v status hv hvar hword =>
      simp only [eval, Node.value, if_neg hvar]
      rfl
  | word hname => rfl
  | quoted hname => rfl
  | comparison hleft hright ihleft ihright =>
      rw [eval, bind_of_ok ihleft, bind_of_ok ihright]
      rfl
  | arithmetic op hleft hright ihleft ihright =>
      rw [eval, bind_of_ok ihleft, bind_of_ok ihright]
      rfl

theorem evalEach_terms {parts : List Node} (h : ∀ part ∈ parts, PortableTerm scope part)
    (w : World) :
    evalEach (.quiet chance) fuel parts w = .ok (parts.map (Node.value w.env)) w := by
  induction parts with
  | nil => rfl
  | cons part parts ih =>
      rw [evalEach, bind_of_ok (eval_term (h part (by simp)) w),
        bind_of_ok (ih fun p hp ↦ h p (List.mem_cons_of_mem _ hp))]
      rfl

theorem eval_value {node : Node} (h : PortableValue scope node) (w : World) :
    eval (.quiet chance) fuel node w = .ok (node.value w.env) w := by
  cases h with
  | term hnode => exact eval_term hnode w
  | phrase hparts =>
      rw [eval, bind_of_ok (evalEach_terms hparts w), Node.value, partTexts_eq_map]
      rfl

theorem writeLine_quiet (chance : Nat → Float) (v : Value) (w : World) :
    ∃ w', writeLine (.quiet chance) (.text v.toText) w = .ok () w' ∧ w'.env = w.env ∧
      Advances w [.line v] w' := by
  refine ⟨_, rfl, rfl, ?_, ?_⟩
  · simp [World.accept, Moment.events]
  · simp [World.accept, Host.raises, Host.quiet]

theorem evalPrinted_values {params : List Node}
    (h : ∀ param ∈ params, PortableValue scope param) (w : World) :
    ∃ w', evalPrinted (.quiet chance) fuel params w = .ok () w' ∧ w'.env = w.env ∧
      Advances w (params.map fun p ↦ .line (p.value w.env)) w' := by
  induction params generalizing w with
  | nil => exact ⟨w, rfl, rfl, .refl w⟩
  | cons param params ih =>
      obtain ⟨w₁, hwrite, henv₁, hadvance₁⟩ :=
        writeLine_quiet chance (param.value w.env) w
      obtain ⟨w₂, hrest, henv₂, hadvance₂⟩ :=
        ih (fun p hp ↦ h p (List.mem_cons_of_mem _ hp)) w₁
      refine ⟨w₂, ?_, henv₂.trans henv₁, ?_⟩
      · rw [evalPrinted, bind_of_ok (eval_value (h param (by simp)) w), bind_of_ok hwrite, hrest]
      · rw [henv₁] at hadvance₂
        exact hadvance₁.trans hadvance₂

theorem follows_body {nodes : List Node}
    (hportable : ∀ node ∈ nodes, PortableNode loops scope node)
    (hnodes : ∀ node ∈ nodes, ∀ w : World, w.interrupted = false → Binds scope w.env →
      Follows loops (.body [node]) (eval (.quiet chance) fuel node) w) :
    ∀ w : World, w.interrupted = false → Binds scope w.env →
      Follows loops (.body nodes) (evalBody (.quiet chance) fuel nodes) w := by
  induction nodes with
  | nil => exact fun w _ _ ↦ .inl ⟨(), [], w, rfl, .done, .refl w⟩
  | cons node nodes ih =>
      intro w hflag hbinds
      have hnode := hportable node (by simp)
      rw [Follows, evalBody]
      rcases hnodes node (by simp) w hflag hbinds with
        ⟨a, moments₁, w₁, heval, hcourse, hadvance⟩ | ⟨hloops, w₁, heval⟩
      · have hbinds₁ := (hcourse.keeps (fun n hn ↦ List.mem_singleton.mp hn ▸ hnode) hbinds).1
        rw [bind_of_ok heval]
        rcases ih (fun n hn ↦ hportable n (List.mem_cons_of_mem _ hn))
            (fun n hn ↦ hnodes n (List.mem_cons_of_mem _ hn)) w₁
            (hadvance.interrupted.trans hflag) hbinds₁ with
          ⟨u, moments, w₂, hrest, hcourse₂, hadvance₂⟩ | hexhausted
        · exact .inl ⟨u, _, w₂, hrest, hcourse.cons hcourse₂, hadvance.trans hadvance₂⟩
        · exact .inr hexhausted
      · rw [bind_of_error heval]
        exact .inr ⟨hloops, w₁, rfl⟩

theorem checkFlag_quiet {w : World} (hflag : w.interrupted = false) :
    checkFlag w = .ok () w := by
  rw [checkFlag, if_neg (by simp [hflag])]

/-- One iteration after the other, each with the environment that the last one left. -/
theorem follows_rounds (times : Node) {body : List Node} (hloops : loops = true)
    (hportable : ∀ node ∈ body, PortableNode loops scope node)
    (hbody : ∀ w : World, w.interrupted = false → Binds scope w.env →
      Follows loops (.body body) (evalBody (.quiet chance) fuel body) w) (limit : Float)
    (grant : Nat) :
    ∀ (count : Float) (w : World), w.interrupted = false → Binds scope w.env →
      Follows loops (.rounds times limit body count)
        (iterate (· < limit) (evalBody (.quiet chance) fuel body) grant count) w := by
  have hlast : ∀ (count : Float) (w : World), ¬count < limit →
      Follows loops (.rounds times limit body count) (pure () : Effect Unit) w := by
    intro count w hcount
    refine .inl ⟨(), _, w, rfl, .last hcount, ?_, rfl⟩
    simp [Moment.events]
  induction grant with
  | zero =>
      intro count w hflag hbinds
      rw [iterate]
      by_cases hcount : count < limit
      · rw [if_pos (decide_eq_true hcount)]
        exact .inr ⟨hloops, w, rfl⟩
      · rw [if_neg (by simpa using hcount)]
        exact hlast count w hcount
  | succ grant ih =>
      intro count w hflag hbinds
      rw [iterate]
      by_cases hcount : count < limit
      · rw [if_pos (decide_eq_true hcount), Follows, bind_of_ok (checkFlag_quiet hflag)]
        rcases hbody w hflag hbinds with
          ⟨u, moments₁, w₁, heval, hcourse, hadvance⟩ | ⟨-, w₁, heval⟩
        · have hbinds₁ := (hcourse.keeps hportable hbinds).1
          rw [bind_of_ok heval]
          rcases ih (count + 1.0) w₁ (hadvance.interrupted.trans hflag) hbinds₁ with
            ⟨u, moments, w₂, hrest, hcourse₂, hadvance₂⟩ | hexhausted
          · refine .inl ⟨u, _, w₂, hrest, .next hcount hcourse hcourse₂, ?_⟩
            exact ⟨(hadvance.trans hadvance₂).events, (hadvance.trans hadvance₂).interrupted⟩
          · exact .inr hexhausted
        · rw [bind_of_error heval]
          exact .inr ⟨hloops, w₁, rfl⟩
      · rw [if_neg (by simpa using hcount)]
        exact hlast count w hcount

/-- A statement gives `undefined`, whatever the effect that it comes down to gives. -/
theorem Follows.statement {α : Type} {task : Task} {node : Node} {effect : Effect α} {w : World}
    (h : Follows loops task effect w)
    (hcourse : ∀ {moments env'}, Course task w.env moments env' →
      Course (.body [node]) w.env moments env') :
    Follows loops (.body [node]) (do let _ ← effect; return Value.undefined) w := by
  rcases h with ⟨a, moments, w', heffect, htask, hadvance⟩ | ⟨hloops, w', heffect⟩
  · exact .inl ⟨.undefined, moments, w', bind_of_ok heffect _, hcourse htask, hadvance⟩
  · exact .inr ⟨hloops, w', bind_of_error heffect _⟩

theorem evalAlternate_eq (host : Host) (fuel : Nat) (alternate : Option Node) :
    evalAlternate host fuel alternate = evalBody host fuel alternate.toList := by
  cases alternate with
  | none => rfl
  | some node => rfl

theorem eval_assignment {name : String} {value : Node} (hname : (name, false) ∈ scope)
    (hvalue : PortableValue scope value) {w : World} (hbinds : Binds scope w.env) :
    eval (.quiet chance) fuel (.assignment name value) w =
      .ok .undefined { w with env := w.env.bind name ⟨value.kept w.env, false⟩ } := by
  have hget : (get : Effect World) w = .ok w w := rfl
  have hcheck : ofExcept (w.env.checkAssignable name) w = .ok () w := by
    rw [(w.env.checkAssignable_eq_ok_iff name).mpr (hbinds hname)]
    rfl
  rw [eval, bind_of_ok hget, bind_of_ok hcheck, bind_of_ok (eval_value hvalue w),
    bind_of_ok hget, hbinds.assign hname]
  rfl

theorem PortableNode.follows {node : Node} (h : PortableNode loops scope node) :
    ∀ w : World, w.interrupted = false → Binds scope w.env →
      Follows loops (.body [node]) (eval (.quiet chance) fuel node) w := by
  induction h with
  | @assignment scope name value hname hvalue =>
      intro w hflag hbinds
      refine .inl ⟨_, [], _, eval_assignment hname hvalue hbinds,
        .assignment (hbinds.assign hname _) .done, ?_, rfl⟩
      simp
  | @print scope params hparams =>
      intro w hflag hbinds
      obtain ⟨w', hprinted, henv, hadvance⟩ := evalPrinted_values hparams w
      rw [eval, if_pos rfl]
      have hfollows : Follows loops (.body [.call printCommand params])
          (evalPrinted (.quiet chance) fuel params) w := by
        have hcourse : Course (.body [.call printCommand params]) w.env _ w.env := .print .done
        rw [List.append_nil] at hcourse
        exact .inl ⟨(), _, w', hprinted, henv ▸ hcourse, hadvance⟩
      exact hfollows.statement id
  | @branch scope condition body alternate kind hcondition hbody halternate ihbody ihalternate =>
      intro w hflag hbinds
      rw [eval, Follows, bind_of_ok (eval_term hcondition w), evalAlternate_eq]
      have hchosen := follows_body (forall_chosen hbody halternate _)
        (forall_chosen ihbody ihalternate (condition.value w.env).isYup) w hflag hbinds
      have hbranch : ∀ {moments env'}, Course (.body (if (condition.value w.env).isYup then body
          else alternate.toList)) w.env moments env' →
          Course (.body [.branch kind condition body alternate]) w.env moments env' := by
        intro moments env' hcourse
        have hbranch : Course (.body [.branch kind condition body alternate]) w.env _ _ :=
          .branch hcourse .done
        rwa [List.append_nil] at hbranch
      have hstatement := hchosen.statement hbranch
      generalize (condition.value w.env).isYup = chosen at hstatement ⊢
      cases chosen with
      | true => exact hstatement
      | false => exact hstatement
  | @loop scope times body hloops htimes hbody ihbody =>
      intro w hflag hbinds
      rw [eval, Follows, bind_of_ok (eval_term htimes w)]
      have hrounds := follows_rounds times hloops hbody (follows_body hbody ihbody)
        (times.value w.env).toNumber fuel 0.0 w hflag hbinds.inLoop
      refine hrounds.statement fun hcourse ↦ ?_
      have hloop : Course (.body [.loop (some times) body]) w.env _ _ := .loop hcourse .done
      rwa [List.append_nil] at hloop

theorem Binds.declare {env : Environment} (h : Binds scope env) {name : String}
    (hfresh : ∀ c, (name, c) ∉ scope) (v : Value) (constant : Bool) :
    Binds ((name, constant) :: scope) (env.declare name v constant) := by
  intro x c hx
  rw [Environment.find?_declare]
  rcases List.mem_cons.mp hx with heq | hscope
  · obtain ⟨rfl, rfl⟩ := Prod.mk.inj heq
    exact ⟨v, if_pos rfl⟩
  · have hne : x ≠ name := by
      rintro rfl
      exact hfresh c hscope
    rw [if_neg hne]
    exact h hscope

theorem run_of_ok {host : Host} {node : Node} {w w' : World} {v : Value}
    (h : eval host fuel node w = .ok v w') (program : Program) :
    run host fuel (node :: program) w = run host fuel program w' := by
  rw [run, EStateM.run, h]

theorem run_of_error {host : Host} {node : Node} {w w' : World} {stop : Stop}
    (h : eval host fuel node w = .error stop w') (program : Program) :
    run host fuel (node :: program) w = (.ofStop node stop, w') := by
  rw [run, EStateM.run, h]

theorem PortableProgram.follows {usable : String → Bool} {program : Program}
    (h : PortableProgram usable loops scope program) (chance : Nat → Float) (fuel : Nat) :
    ∀ w : World, w.interrupted = false → Binds scope w.env →
      (∃ moments w', run (.quiet chance) fuel program w = (.done, w') ∧
        Course (.body program) w.env moments w'.env ∧ Advances w moments w') ∨
      (loops = true ∧ ∃ w', run (.quiet chance) fuel program w = (.exhausted, w')) := by
  induction h with
  | nil => exact fun w _ _ ↦ .inl ⟨[], w, rfl, .done, .refl w⟩
  | @declaration scope name value constant program husable hfresh hvalue hrest ih =>
      intro w hflag hbinds
      have heval : eval (.quiet chance) fuel (.declaration name value constant) w =
          .ok .undefined { w with env := w.env.declare name (value.kept w.env) constant } := by
        rw [eval, bind_of_ok (eval_value hvalue w)]
        rfl
      rw [run_of_ok heval]
      have hbinds₁ := hbinds.declare hfresh (value.kept w.env) constant
      rcases ih { w with env := w.env.declare name (value.kept w.env) constant } hflag hbinds₁ with
        ⟨moments, w', hrun, hcourse, hadvance⟩ | hexhausted
      · exact .inl ⟨moments, w', hrun, .declaration hcourse, hadvance.setEnv _⟩
      · exact .inr hexhausted
  | @statement scope node program hnode hrest ih =>
      intro w hflag hbinds
      rcases hnode.follows w hflag hbinds with
        ⟨v, moments₁, w₁, heval, hcourse, hadvance⟩ | ⟨hloops, w₁, heval⟩
      · have hbinds₁ := (hcourse.keeps (fun n hn ↦ List.mem_singleton.mp hn ▸ hnode) hbinds).1
        rw [run_of_ok heval]
        rcases ih w₁ (hadvance.interrupted.trans hflag) hbinds₁ with
          ⟨moments, w', hrun, hcourse₂, hadvance₂⟩ | hexhausted
        · exact .inl ⟨_, w', hrun, hcourse.cons hcourse₂, hadvance.trans hadvance₂⟩
        · exact .inr hexhausted
      · rw [run_of_error heval]
        exact .inr ⟨hloops, w₁, rfl⟩

end

end VexLang
