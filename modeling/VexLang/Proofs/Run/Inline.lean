import VexLang.Proofs.Number.Counting
import VexLang.Proofs.Run.Frame
import VexLang.Proofs.Run.Fuel

/-!
# Loops and conditions written out

There is one namespace, and bodies have no scope of their own. A loop with a literal count
therefore does what its body does when it is written down so many times in the place of the
loop, and a condition that is literally true what its body does in its place. Only the
statement that an error is reported for can tell them apart.
-/

namespace VexLang

open Effect

/-- A loop whose count is a literal natural number. -/
def countedLoop (count : Nat) (body : Program) : Node :=
  .loop (some (.literal (.number (Float.ofNat count)))) body

/-- A condition that is literally true. -/
def takenBranch (kind : BranchKind) (body : Program) (alternate : Option Node) : Node :=
  .branch kind (.literal (.boolean true)) body alternate

/-! ## Ends of runs without the statement -/

/-- What stopped a run before its end, whatever the statement it arose in. -/
def Outcome.stop? : Outcome → Option Stop
  | .done => none
  | .exit => some .exit
  | .requestFile => some .openFile
  | .failed e _ => some (.failed e)
  | .exhausted => some .exhausted

theorem Outcome.stop?_ofStop (statement : Node) (stop : Stop) :
    (ofStop statement stop).stop? = some stop := by
  cases stop <;> rfl

theorem Outcome.stop?_eq_exhausted_iff (outcome : Outcome) :
    outcome.stop? = some .exhausted ↔ outcome = .exhausted := by
  cases outcome <;> simp [stop?]

/-- How an effect ends, and the world it leaves. -/
def ended {α : Type} : EStateM.Result Stop World α → Option Stop × World
  | .ok _ w => (none, w)
  | .error stop w => (some stop, w)

/-- A program ends as the body does that consists of its statements. -/
theorem run_ended (host : Host) (fuel : Nat) (program : Program) (w : World) :
    ((run host fuel program w).1.stop?, (run host fuel program w).2) =
      ended (evalBody host fuel program w) := by
  induction program generalizing w with
  | nil => rfl
  | cons node program ih =>
      rw [run, EStateM.run, evalBody]
      cases heval : eval host fuel node w with
      | ok a w' =>
          rw [bind_of_ok heval]
          exact ih w'
      | error stop w' =>
          rw [bind_of_error heval, Outcome.stop?_ofStop]
          rfl

theorem evalBody_append (host : Host) (fuel : Nat) (p q : Program) :
    evalBody host fuel (p ++ q) = (evalBody host fuel p >>= fun _ ↦ evalBody host fuel q) := by
  induction p with
  | nil => rfl
  | cons node p ih =>
      rw [List.cons_append, evalBody, ih, evalBody]
      exact (bind_assoc ..).symm

/-! ## Without interruptions -/

theorem lasting_unflagged {host : Host} (hquiet : host.raiseAt = none) :
    Lasting (fun _ ↦ True) host fun w ↦ w.interrupted = false where
  accept w e hw := by
    rw [World.accept, Host.raises, hquiet]
    exact (Bool.or_false _).trans hw
  manual _ hw := hw
  draw _ hw := hw
  toggle _ hw := hw
  request _ _ _ _ _ hw := hw

theorem evalBody_unflagged {host : Host} (hquiet : host.raiseAt = none) (fuel : Nat)
    (body : Program) : Keeps (fun w ↦ w.interrupted = false) (evalBody host fuel body) :=
  have hr := (lasting_unflagged hquiet).congruence
  hr.evalBody_across body (fun _ _ ↦ trivial) fun _ ↦ hr.iterates .flag (.throw _) fuel

/-- The effects do the same in every world whose flag is down. -/
def SameUnflagged {α : Type} (x y : Effect α) : Prop :=
  ∀ w : World, w.interrupted = false → x w = y w

theorem SameUnflagged.bind {α β : Type} {x : Effect α} {f g : α → Effect β}
    (hx : Keeps (fun w ↦ w.interrupted = false) x) (hf : ∀ a, SameUnflagged (f a) (g a)) :
    SameUnflagged (x >>= f) (x >>= g) := by
  intro w hw
  have hkept := hx w hw
  cases hrun : x w with
  | ok a w' =>
      rw [hrun] at hkept
      rw [bind_of_ok hrun, bind_of_ok hrun]
      exact hf a w' hkept
  | error stop w' => rw [bind_of_error hrun, bind_of_error hrun]

theorem checkFlag_unflagged (x : Effect Unit) :
    SameUnflagged (do checkFlag; x) x := by
  intro w hw
  have hpass : checkFlag w = .ok () w := by
    rw [checkFlag, hw]
    rfl
  rw [bind_of_ok hpass]

/-- The last `more` of `count` iterations, if as many are granted. -/
theorem iterate_unflagged {host : Host} (hquiet : host.raiseAt = none) (fuel : Nat)
    (body : Program) {count : Nat} (hcount : count < countLimit) {passed more grant : Nat}
    (hmore : passed + more = count) (hgrant : more ≤ grant) :
    SameUnflagged
      (iterate (· < Float.ofNat count) (evalBody host fuel body) grant (Float.ofNat passed))
      (evalBody host fuel (List.replicate more body).flatten) := by
  induction more generalizing passed grant with
  | zero =>
      have hover : ¬Float.ofNat passed < Float.ofNat count := by
        rw [ofNat_lt_ofNat (by omega) hcount]
        omega
      intro w _
      cases grant <;> rw [iterate, decide_eq_false hover] <;> rfl
  | succ more ih =>
      obtain ⟨grant, rfl⟩ := Nat.exists_eq_add_of_lt hgrant
      have hgoesOn : Float.ofNat passed < Float.ofNat count := by
        rw [ofNat_lt_ofNat (by omega) hcount]
        omega
      have hnext : Float.ofNat passed + 1.0 = Float.ofNat (passed + 1) :=
        ofNat_add_one (by omega)
      have hrest := @ih (passed + 1) (more + grant) (by omega) (by omega)
      rw [List.replicate_succ, List.flatten_cons, evalBody_append, iterate,
        if_pos (decide_eq_true hgoesOn), hnext]
      intro w hw
      rw [checkFlag_unflagged _ w hw]
      exact SameUnflagged.bind (evalBody_unflagged hquiet fuel body) (fun _ ↦ hrest) w hw

theorem evalBody_countedLoop {host : Host} (hquiet : host.raiseAt = none) {fuel count : Nat}
    (hcount : count < countLimit) (hfuel : count ≤ fuel) (body q : Program) :
    SameUnflagged (evalBody host fuel (countedLoop count body :: q))
      (evalBody host fuel ((List.replicate count body).flatten ++ q)) := by
  have hloop := iterate_unflagged hquiet fuel body hcount (Nat.zero_add count) hfuel
  have heval : eval host fuel (countedLoop count body) = do
      iterate (· < Float.ofNat count) (evalBody host fuel body) fuel (Float.ofNat 0)
      return .undefined := by
    rw [countedLoop, eval, eval]
    rfl
  intro w hw
  rw [evalBody, heval, evalBody_append, bind_assoc]
  have hw' := hloop w hw
  cases hrun : evalBody host fuel (List.replicate count body).flatten w with
  | ok a w' =>
      rw [hrun] at hw'
      rw [bind_of_ok hw', bind_of_ok hrun]
      rfl
  | error stop w' =>
      rw [hrun] at hw'
      rw [bind_of_error hw', bind_of_error hrun]

theorem evalBody_takenBranch (host : Host) (fuel : Nat) (kind : BranchKind) (body : Program)
    (alternate : Option Node) (q : Program) :
    evalBody host fuel (takenBranch kind body alternate :: q) = evalBody host fuel (body ++ q) := by
  have heval : eval host fuel (takenBranch kind body alternate) = do
      evalBody host fuel body
      return .undefined := by
    rw [takenBranch, eval, eval]
    rfl
  rw [evalBody, heval, evalBody_append, bind_assoc]
  rfl

/-! ## Programs that run alike -/

/-- Both programs end in this world or neither does. They end alike but for the statement in
which an error arose, and leave the same world: the same output, the same showings of the
manual at the same places, and the same environment. -/
structure RunAlike (host : Host) (w : World) (program₁ program₂ : Program) : Prop where
  ends : (∃ fuel, (run host fuel program₁ w).1 ≠ .exhausted) ↔
    ∃ fuel, (run host fuel program₂ w).1 ≠ .exhausted
  alike : ∀ fuel₁ fuel₂, (run host fuel₁ program₁ w).1 ≠ .exhausted →
    (run host fuel₂ program₂ w).1 ≠ .exhausted →
      (run host fuel₁ program₁ w).1.stop? = (run host fuel₂ program₂ w).1.stop? ∧
        (run host fuel₁ program₁ w).2 = (run host fuel₂ program₂ w).2

/-- Programs that agree on being spent once there is enough fuel end together. -/
theorem exists_ends {host : Host} {w : World} {program₁ program₂ : Program} {least : Nat}
    (h : ∀ fuel, least ≤ fuel →
      ((run host fuel program₁ w).1 = .exhausted ↔ (run host fuel program₂ w).1 = .exhausted))
    (hends : ∃ fuel, (run host fuel program₁ w).1 ≠ .exhausted) :
    ∃ fuel, (run host fuel program₂ w).1 ≠ .exhausted := by
  obtain ⟨fuel, hend⟩ := hends
  refine ⟨max fuel least, fun hspent ↦ hend ?_⟩
  rw [← run_prolongs (Nat.le_max_left fuel least) hend]
  exact (h _ (Nat.le_max_right ..)).mpr hspent

/-- It is enough that the statements do the same in sequence once there is enough fuel. -/
theorem runAlike_of_evalBody {host : Host} {w : World} {program₁ program₂ : Program} (least : Nat)
    (h : ∀ fuel, least ≤ fuel → evalBody host fuel program₁ w = evalBody host fuel program₂ w) :
    RunAlike host w program₁ program₂ := by
  have hsame (fuel : Nat) (hfuel : least ≤ fuel) :
      ((run host fuel program₁ w).1.stop?, (run host fuel program₁ w).2) =
        ((run host fuel program₂ w).1.stop?, (run host fuel program₂ w).2) := by
    rw [run_ended, run_ended, h fuel hfuel]
  have hspent (fuel : Nat) (hfuel : least ≤ fuel) :
      (run host fuel program₁ w).1 = .exhausted ↔ (run host fuel program₂ w).1 = .exhausted := by
    rw [← Outcome.stop?_eq_exhausted_iff, ← Outcome.stop?_eq_exhausted_iff,
      (Prod.mk.inj (hsame fuel hfuel)).1]
  refine ⟨⟨exists_ends hspent, exists_ends fun fuel hfuel ↦ (hspent fuel hfuel).symm⟩, ?_⟩
  intro fuel₁ fuel₂ hend₁ hend₂
  let enough := max (max fuel₁ fuel₂) least
  have henough₁ : fuel₁ ≤ enough := by omega
  have henough₂ : fuel₂ ≤ enough := by omega
  rw [← run_prolongs henough₁ hend₁, ← run_prolongs henough₂ hend₂]
  exact Prod.mk.inj (hsame enough (Nat.le_max_right ..))

/-- Counted loops and conditions that are true are inlining. Without an interruption, and
with the same chance, a loop with a literal count can be written out that many times, and
a condition that is literally true can be replaced with its body, wherever they stand among
the statements of a program. -/
theorem inlined_run_alike {host : Host} (hquiet : host.raiseAt = none) {w : World}
    (hw : w.interrupted = false) {count : Nat} (hcount : count < countLimit)
    (p body q : Program) (kind : BranchKind) (alternate : Option Node) :
    RunAlike host w (p ++ countedLoop count body :: q)
        (p ++ (List.replicate count body).flatten ++ q) ∧
      RunAlike host w (p ++ takenBranch kind body alternate :: q) (p ++ body ++ q) := by
  constructor
  · refine runAlike_of_evalBody count fun fuel hfuel ↦ ?_
    rw [List.append_assoc, evalBody_append, evalBody_append]
    exact SameUnflagged.bind (evalBody_unflagged hquiet fuel p)
      (fun _ ↦ evalBody_countedLoop hquiet hcount hfuel body q) w hw
  · refine runAlike_of_evalBody 0 fun fuel _ ↦ ?_
    rw [List.append_assoc, evalBody_append, evalBody_append, evalBody_takenBranch]

/-- Uses up a variable and flips the switch. Without the variable it fails. -/
def consuming : Program :=
  [.assignment "x" (.text "used"), .banish "x", .cut none]

theorem inlined_run_alike_consuming :
    ∃ w,
      run ⟨none, none, fun _ ↦ 0.0⟩ 2
        ([.declaration "x" (.text "new") false] ++ countedLoop 2 consuming :: [.manual])
        (.start .empty false) = (.failed (.undeclared "x") (countedLoop 2 consuming), w) ∧
      run ⟨none, none, fun _ ↦ 0.0⟩ 0
        ([.declaration "x" (.text "new") false] ++ (List.replicate 2 consuming).flatten ++
          [.manual])
        (.start .empty false) =
          (.failed (.undeclared "x") (.assignment "x" (.text "used")), w) ∧
      w.events.toList = [.status false, .lineEnd] ∧ w.env.contains "x" = false := by
  obtain ⟨w, hloop, hevents, henv⟩ : ∃ w,
      run ⟨none, none, fun _ ↦ 0.0⟩ 2
        ([.declaration "x" (.text "new") false] ++ countedLoop 2 consuming :: [.manual])
        (.start .empty false) = (.failed (.undeclared "x") (countedLoop 2 consuming), w) ∧
      w.events.toList = [.status false, .lineEnd] ∧ w.env.contains "x" = false :=
    ⟨_, rfl, rfl, by decide⟩
  obtain ⟨v, hwritten⟩ : ∃ v,
      run ⟨none, none, fun _ ↦ 0.0⟩ 0
        ([.declaration "x" (.text "new") false] ++ (List.replicate 2 consuming).flatten ++
          [.manual])
        (.start .empty false) =
          (.failed (.undeclared "x") (.assignment "x" (.text "used")), v) := ⟨_, rfl⟩
  have hquiet : (⟨none, none, fun _ ↦ 0.0⟩ : Host).raiseAt = none := rfl
  have hdown : (World.start .empty false).interrupted = false := rfl
  have hcount : 2 < countLimit := by decide
  have hsame := (inlined_run_alike hquiet hdown hcount
    [.declaration "x" (.text "new") false] consuming [.manual] .opening none).1.alike 2 0
    (by rw [hloop]; simp) (by rw [hwritten]; simp)
  rw [hloop, hwritten] at hsame
  obtain rfl : w = v := hsame.2
  exact ⟨w, hloop, hwritten, hevents, henv⟩

end VexLang
