import VexLang.Proofs.Effect
import VexLang.Run

/-!
# Two interpreters side by side

Interpreters that differ in their host take the same steps. A relation between effects
that holds of every single step and passes from parts to sequences therefore
holds of whole nodes. The flag and the fuel matter in loops only, so a relation that does
not pass to loops still holds of nodes without them. In the same way a relation may fail for
some changes of the environment, as long as the node asks for none of them.
-/

namespace VexLang

open Effect

mutual

/-- Is there a loop anywhere in the node? -/
def Node.hasLoop : Node → Bool
  | .loop .. => true
  | .cast operand _ => operand.hasLoop
  | .phrase parts => anyHasLoop parts
  | .comparison left right => left.hasLoop || right.hasLoop
  | .arithmetic left _ right => left.hasLoop || right.hasLoop
  | .random low high => low.hasLoop || high.hasLoop
  | .declaration _ value _ => value.hasLoop
  | .assignment _ value => value.hasLoop
  | .call _ params => anyHasLoop params
  | .branch _ condition body alternate =>
    condition.hasLoop || anyHasLoop body || alternateHasLoop alternate
  | .literal _ | .identifier _ | .cut _ | .banish _ | .bussin | .manual | .openFile => false

def anyHasLoop : List Node → Bool
  | [] => false
  | node :: nodes => node.hasLoop || anyHasLoop nodes

def alternateHasLoop : Option Node → Bool
  | none => false
  | some node => node.hasLoop

end

/-- What a node can ask of the environment. -/
inductive Request where
  | declare (name : String)
  | assign (name : String)
  | unconst (name : String)
  | erase (name : String)
  deriving DecidableEq, Repr

mutual

/-- All that is asked of the environment anywhere in the node. -/
def Node.requests : Node → List Request
  | .cast operand _ => operand.requests
  | .phrase parts => requestsOf parts
  | .comparison left right => left.requests ++ right.requests
  | .arithmetic left _ right => left.requests ++ right.requests
  | .random low high => low.requests ++ high.requests
  | .declaration name value _ => .declare name :: value.requests
  | .assignment name value => .assign name :: value.requests
  | .call _ params => requestsOf params
  | .loop times body => optionRequests times ++ requestsOf body
  | .branch _ condition body alternate =>
    condition.requests ++ (requestsOf body ++ optionRequests alternate)
  | .cut (some target) => [.unconst target]
  | .banish target => [.erase target]
  | .literal _ | .identifier _ | .cut none | .bussin | .manual | .openFile => []

def requestsOf : List Node → List Request
  | [] => []
  | node :: nodes => node.requests ++ requestsOf nodes

def optionRequests : Option Node → List Request
  | none => []
  | some node => node.requests

end

theorem anyHasLoop_of_mem {node : Node} {nodes : List Node} (hmem : node ∈ nodes)
    (hloop : node.hasLoop = true) : anyHasLoop nodes = true := by
  induction hmem with
  | head => rw [anyHasLoop, hloop, Bool.true_or]
  | tail _ _ ih => rw [anyHasLoop, ih, Bool.or_true]

def checkName (name : String) : Effect Unit := do
  ofExcept ((← get).env.checkAssignable name)

def assignName (name : String) (v : Value) : Effect Unit := do
  let env ← ofExcept ((← get).env.assign name v)
  modifyEnv fun _ ↦ env

def flipSwitch (host : Host) : Effect Unit := do
  modifyEnv Environment.toggle
  writeLine host (.status (← get).env.autoStatus)

theorem checkName_run (name : String) (w : World) :
    checkName name w = ofExcept (w.env.checkAssignable name) w := rfl

theorem assignName_run (name : String) (v : Value) (w : World) :
    assignName name v w = match w.env.assign name v with
      | .ok env => .ok () { w with env }
      | .error e => .error (.failed e) w := by
  have hbind : assignName name v w =
    (ofExcept (w.env.assign name v) >>= fun env ↦ modifyEnv fun _ ↦ env) w := rfl
  rw [hbind]
  cases w.env.assign name v <;> rfl

theorem flipSwitch_run (host : Host) (w : World) :
    flipSwitch host w = writeLine host (.status w.env.toggle.autoStatus)
      { w with env := w.env.toggle } := rfl

theorem eval_assignment_eq (host : Host) (fuel : Nat) (name : String) (value : Node) :
    eval host fuel (.assignment name value) = do
      checkName name
      let v ← eval host fuel value
      assignName name (storedValue value v)
      return .undefined := by
  rw [eval]
  simp only [checkName, assignName, bind_assoc]

theorem eval_cut_eq (host : Host) (fuel : Nat) :
    eval host fuel (.cut none) = do
      flipSwitch host
      return .undefined := by
  rw [eval]
  simp only [flipSwitch, bind_assoc]

/-- The relation passes from the bodies of loops to the loops, with different numbers of
iterations granted. -/
def IteratesAcross (r : Effect Unit → Effect Unit → Prop) (fuel₁ fuel₂ : Nat) : Prop :=
  ∀ (goesOn : Float → Bool) {x y : Effect Unit}, r x y →
    ∀ i, r (iterate goesOn x fuel₁ i) (iterate goesOn y fuel₂ i)

/-- The relation passes from the bodies of loops to the loops. -/
def Iterates (r : Effect Unit → Effect Unit → Prop) (fuel : Nat) : Prop :=
  IteratesAcross r fuel fuel

/-- A relation between the steps of interpreters with two hosts. -/
structure Congruence (r : ∀ {α : Type}, Effect α → Effect α → Prop) (h₁ h₂ : Host) : Prop where
  pure : ∀ {α : Type} (a : α), r (pure a) (pure a)
  throw : ∀ {α : Type} (stop : Stop), stop ≠ .exhausted → r (throw stop : Effect α) (throw stop)
  bind : ∀ {α β : Type} {x y : Effect α} {f g : α → Effect β}, r x y → (∀ a, r (f a) (g a)) →
    r (x >>= f) (y >>= g)
  read : ∀ name, r (variableValue name) (variableValue name)
  check : ∀ name, r (checkName name) (checkName name)
  assign : ∀ name v, r (assignName name v) (assignName name v)
  declare : ∀ name v constant, r (modifyEnv fun env ↦ env.declare name v constant)
    (modifyEnv fun env ↦ env.declare name v constant)
  unconst : ∀ name, r (modifyEnv fun env ↦ env.unconst name) (modifyEnv fun env ↦ env.unconst name)
  erase : ∀ name, r (modifyEnv fun env ↦ env.erase name) (modifyEnv fun env ↦ env.erase name)
  flip : r (flipSwitch h₁) (flipSwitch h₂)
  print : ∀ text, r (writeLine h₁ (.text text)) (writeLine h₂ (.text text))
  manual : r showManual showManual
  draw : r (draw h₁) (draw h₂)

/-- What the relation has to satisfy for the sake of a request. -/
def Respects (r : Effect Unit → Effect Unit → Prop) : Request → Prop
  | .declare name => ∀ v constant, r (modifyEnv fun env ↦ env.declare name v constant)
      (modifyEnv fun env ↦ env.declare name v constant)
  | .assign name => ∀ v, r (assignName name v) (assignName name v)
  | .unconst name => r (modifyEnv fun env ↦ env.unconst name) (modifyEnv fun env ↦ env.unconst name)
  | .erase name => r (modifyEnv fun env ↦ env.erase name) (modifyEnv fun env ↦ env.erase name)

/-- A relation between the steps of interpreters with two hosts, for programs that ask no
more of the environment than is allowed. -/
structure CongruenceOn (allowed : Request → Prop)
    (r : ∀ {α : Type}, Effect α → Effect α → Prop) (h₁ h₂ : Host) : Prop where
  pure : ∀ {α : Type} (a : α), r (pure a) (pure a)
  throw : ∀ {α : Type} (stop : Stop), stop ≠ .exhausted → r (throw stop : Effect α) (throw stop)
  bind : ∀ {α β : Type} {x y : Effect α} {f g : α → Effect β}, r x y → (∀ a, r (f a) (g a)) →
    r (x >>= f) (y >>= g)
  read : ∀ name, r (variableValue name) (variableValue name)
  check : ∀ name, r (checkName name) (checkName name)
  respects : ∀ q, allowed q → Respects r q
  flip : r (flipSwitch h₁) (flipSwitch h₂)
  print : ∀ text, r (writeLine h₁ (.text text)) (writeLine h₂ (.text text))
  manual : r showManual showManual
  draw : r (draw h₁) (draw h₂)

namespace CongruenceOn

variable {allowed : Request → Prop} {r : ∀ {α : Type}, Effect α → Effect α → Prop} {h₁ h₂ : Host}

theorem iterates (hr : CongruenceOn allowed r h₁ h₂) (hflag : r checkFlag checkFlag)
    (hspent : r (MonadExcept.throw .exhausted : Effect Unit) (MonadExcept.throw .exhausted))
    (fuel : Nat) : Iterates r fuel := by
  intro goesOn x y hbody
  induction fuel with
  | zero =>
      intro i
      rw [iterate, iterate]
      split
      · exact hspent
      · exact hr.pure ()
  | succ fuel ih =>
      intro i
      rw [iterate, iterate]
      split
      · exact hr.bind hflag fun _ ↦ hr.bind hbody fun _ ↦ ih _
      · exact hr.pure ()

theorem word (hr : CongruenceOn allowed r h₁ h₂) (name : String) :
    r (wordValue name) (wordValue name) := by
  unfold wordValue
  split
  · exact hr.pure _
  · exact hr.pure _
  · exact hr.throw _ (by simp)

theorem random (hr : CongruenceOn allowed r h₁ h₂) (low high : Float) :
    r (randomBetween h₁ low high) (randomBetween h₂ low high) :=
  hr.bind hr.draw fun _ ↦ hr.pure _

/-- A cast evaluates its operand, unless it is a bare word that names a variable. -/
theorem eval_cast_cases (operand : Node) (status : Status) :
    (∃ name, ∀ host fuel, eval host fuel (.cast operand status) = variableValue name) ∨
      ∀ host fuel, eval host fuel (.cast operand status) = do
        let v ← eval host fuel operand
        if status = .var then variableValue v.toText else return v.cast status := by
  by_cases hword : ∃ name, operand = .identifier name ∧ status = .var
  · obtain ⟨name, rfl, rfl⟩ := hword
    exact .inl ⟨name, fun host fuel ↦ by rw [eval]⟩
  · refine .inr fun host fuel ↦ ?_
    rw [eval]
    intro name hoperand hstatus
    exact hword ⟨name, hoperand, hstatus⟩

mutual

theorem eval_across (hr : CongruenceOn allowed r h₁ h₂) {fuel₁ fuel₂ : Nat} :
    ∀ node : Node, (∀ q ∈ node.requests, allowed q) →
      (node.hasLoop = true → IteratesAcross r fuel₁ fuel₂) →
      r (VexLang.eval h₁ fuel₁ node) (VexLang.eval h₂ fuel₂ node)
  | .literal value, _, _ => hr.pure value
  | .identifier name, _, _ => hr.word name
  | .cast operand status, hask, hloop => by
      have hoperand := hr.eval_across operand hask hloop
      rcases eval_cast_cases operand status with ⟨name, hcast⟩ | hcast
      · rw [hcast, hcast]
        exact hr.read name
      · rw [hcast, hcast]
        refine hr.bind hoperand fun v ↦ ?_
        split
        · exact hr.read _
        · exact hr.pure _
  | .phrase parts, hask, hloop => by
      rw [VexLang.eval, VexLang.eval]
      exact hr.bind (hr.evalEach_across parts hask hloop) fun _ ↦ hr.pure _
  | .comparison left right, hask, hloop => by
      obtain ⟨haskl, haskr⟩ := List.forall_mem_append.mp hask
      have hleft := hr.eval_across left haskl fun h ↦ hloop (by rw [Node.hasLoop, h, Bool.true_or])
      have hright := hr.eval_across right haskr fun h ↦
        hloop (by rw [Node.hasLoop, h, Bool.or_true])
      rw [VexLang.eval, VexLang.eval]
      exact hr.bind hleft fun _ ↦ hr.bind hright fun _ ↦ hr.pure _
  | .arithmetic left op right, hask, hloop => by
      obtain ⟨haskl, haskr⟩ := List.forall_mem_append.mp hask
      have hleft := hr.eval_across left haskl fun h ↦ hloop (by rw [Node.hasLoop, h, Bool.true_or])
      have hright := hr.eval_across right haskr fun h ↦
        hloop (by rw [Node.hasLoop, h, Bool.or_true])
      rw [VexLang.eval, VexLang.eval]
      exact hr.bind hleft fun _ ↦ hr.bind hright fun _ ↦ hr.pure _
  | .random low high, hask, hloop => by
      obtain ⟨haskl, haskh⟩ := List.forall_mem_append.mp hask
      have hlow := hr.eval_across low haskl fun h ↦ hloop (by rw [Node.hasLoop, h, Bool.true_or])
      have hhigh := hr.eval_across high haskh fun h ↦ hloop (by rw [Node.hasLoop, h, Bool.or_true])
      rw [VexLang.eval, VexLang.eval]
      exact hr.bind hlow fun _ ↦ hr.bind hhigh fun _ ↦ hr.random _ _
  | .declaration name value constant, hask, hloop => by
      obtain ⟨hname, haskv⟩ := List.forall_mem_cons.mp hask
      have hvalue := hr.eval_across value haskv hloop
      rw [VexLang.eval, VexLang.eval]
      exact hr.bind hvalue fun _ ↦ hr.bind (hr.respects _ hname _ _) fun _ ↦ hr.pure _
  | .assignment name value, hask, hloop => by
      obtain ⟨hname, haskv⟩ := List.forall_mem_cons.mp hask
      have hvalue := hr.eval_across value haskv hloop
      rw [eval_assignment_eq, eval_assignment_eq]
      exact hr.bind (hr.check name) fun _ ↦ hr.bind hvalue fun _ ↦
        hr.bind (hr.respects _ hname _) fun _ ↦ hr.pure _
  | .call name params, hask, hloop => by
      have hprinted := hr.evalPrinted_across params hask hloop
      have hbody := hr.evalBody_across params hask hloop
      rw [VexLang.eval, VexLang.eval]
      split
      · exact hr.bind hprinted fun _ ↦ hr.pure _
      · exact hr.bind hbody fun _ ↦ hr.pure _
  | .loop none body, hask, hloop => by
      have hbody := hr.evalBody_across body hask fun _ ↦ hloop rfl
      rw [VexLang.eval, VexLang.eval]
      exact hr.bind (hloop rfl _ hbody _) fun _ ↦ hr.pure _
  | .loop (some times) body, hask, hloop => by
      obtain ⟨haskt, haskb⟩ := List.forall_mem_append.mp hask
      have htimes := hr.eval_across times haskt fun _ ↦ hloop rfl
      have hbody := hr.evalBody_across body haskb fun _ ↦ hloop rfl
      rw [VexLang.eval, VexLang.eval]
      exact hr.bind htimes fun _ ↦ hr.bind (hloop rfl _ hbody _) fun _ ↦ hr.pure _
  | .branch kind condition body alternate, hask, hloop => by
      obtain ⟨haskc, haskba⟩ := List.forall_mem_append.mp hask
      obtain ⟨haskb, haska⟩ := List.forall_mem_append.mp haskba
      have hcondition := hr.eval_across condition haskc fun h ↦ hloop (by simp [Node.hasLoop, h])
      have hbody := hr.evalBody_across body haskb fun h ↦ hloop (by simp [Node.hasLoop, h])
      have halternate := hr.evalAlternate_across alternate haska fun h ↦
        hloop (by simp [Node.hasLoop, h])
      rw [VexLang.eval, VexLang.eval]
      refine hr.bind hcondition fun v ↦ ?_
      split
      · exact hr.bind hbody fun _ ↦ hr.pure _
      · exact hr.bind halternate fun _ ↦ hr.pure _
  | .cut none, _, _ => by
      rw [eval_cut_eq, eval_cut_eq]
      exact hr.bind hr.flip fun _ ↦ hr.pure _
  | .cut (some target), hask, _ =>
      hr.bind (hr.respects (.unconst target) (List.forall_mem_singleton.mp hask)) fun _ ↦ hr.pure _
  | .banish target, hask, _ =>
      hr.bind (hr.respects (.erase target) (List.forall_mem_singleton.mp hask)) fun _ ↦ hr.pure _
  | .bussin, _, _ => hr.bind (hr.print farewell) fun _ ↦ hr.throw _ (by decide)
  | .manual, _, _ => hr.bind hr.manual fun _ ↦ hr.pure _
  | .openFile, _, _ => hr.throw _ (by decide)

theorem evalEach_across (hr : CongruenceOn allowed r h₁ h₂) {fuel₁ fuel₂ : Nat} :
    ∀ nodes : List Node, (∀ q ∈ requestsOf nodes, allowed q) →
      (anyHasLoop nodes = true → IteratesAcross r fuel₁ fuel₂) →
      r (VexLang.evalEach h₁ fuel₁ nodes) (VexLang.evalEach h₂ fuel₂ nodes)
  | [], _, _ => hr.pure []
  | node :: nodes, hask, hloop => by
      obtain ⟨haskn, haskr⟩ := List.forall_mem_append.mp hask
      have hnode := hr.eval_across node haskn fun h ↦ hloop (by rw [anyHasLoop, h, Bool.true_or])
      have hnodes := hr.evalEach_across nodes haskr fun h ↦
        hloop (by rw [anyHasLoop, h, Bool.or_true])
      exact hr.bind hnode fun _ ↦ hr.bind hnodes fun _ ↦ hr.pure _

theorem evalBody_across (hr : CongruenceOn allowed r h₁ h₂) {fuel₁ fuel₂ : Nat} :
    ∀ nodes : List Node, (∀ q ∈ requestsOf nodes, allowed q) →
      (anyHasLoop nodes = true → IteratesAcross r fuel₁ fuel₂) →
      r (VexLang.evalBody h₁ fuel₁ nodes) (VexLang.evalBody h₂ fuel₂ nodes)
  | [], _, _ => hr.pure ()
  | node :: nodes, hask, hloop => by
      obtain ⟨haskn, haskr⟩ := List.forall_mem_append.mp hask
      have hnode := hr.eval_across node haskn fun h ↦ hloop (by rw [anyHasLoop, h, Bool.true_or])
      have hnodes := hr.evalBody_across nodes haskr fun h ↦
        hloop (by rw [anyHasLoop, h, Bool.or_true])
      exact hr.bind hnode fun _ ↦ hnodes

theorem evalPrinted_across (hr : CongruenceOn allowed r h₁ h₂) {fuel₁ fuel₂ : Nat} :
    ∀ nodes : List Node, (∀ q ∈ requestsOf nodes, allowed q) →
      (anyHasLoop nodes = true → IteratesAcross r fuel₁ fuel₂) →
      r (VexLang.evalPrinted h₁ fuel₁ nodes) (VexLang.evalPrinted h₂ fuel₂ nodes)
  | [], _, _ => hr.pure ()
  | node :: nodes, hask, hloop => by
      obtain ⟨haskn, haskr⟩ := List.forall_mem_append.mp hask
      have hnode := hr.eval_across node haskn fun h ↦ hloop (by rw [anyHasLoop, h, Bool.true_or])
      have hnodes := hr.evalPrinted_across nodes haskr fun h ↦
        hloop (by rw [anyHasLoop, h, Bool.or_true])
      exact hr.bind hnode fun _ ↦ hr.bind (hr.print _) fun _ ↦ hnodes

theorem evalAlternate_across (hr : CongruenceOn allowed r h₁ h₂) {fuel₁ fuel₂ : Nat} :
    ∀ alternate : Option Node, (∀ q ∈ optionRequests alternate, allowed q) →
      (alternateHasLoop alternate = true → IteratesAcross r fuel₁ fuel₂) →
      r (VexLang.evalAlternate h₁ fuel₁ alternate) (VexLang.evalAlternate h₂ fuel₂ alternate)
  | none, _, _ => hr.pure ()
  | some node, hask, hloop => hr.bind (hr.eval_across node hask hloop) fun _ ↦ hr.pure _

end

theorem eval (hr : CongruenceOn allowed r h₁ h₂) (fuel : Nat) (node : Node)
    (hask : ∀ q ∈ node.requests, allowed q) (hloop : node.hasLoop = true → Iterates r fuel) :
    r (VexLang.eval h₁ fuel node) (VexLang.eval h₂ fuel node) :=
  hr.eval_across node hask hloop

end CongruenceOn

namespace Congruence

variable {r : ∀ {α : Type}, Effect α → Effect α → Prop} {h₁ h₂ : Host}

theorem on (hr : Congruence r h₁ h₂) (allowed : Request → Prop) :
    CongruenceOn allowed r h₁ h₂ where
  pure := hr.pure
  throw := hr.throw
  bind := hr.bind
  read := hr.read
  check := hr.check
  respects q _ := by
    cases q with
    | declare name => exact hr.declare name
    | assign name => exact hr.assign name
    | unconst name => exact hr.unconst name
    | erase name => exact hr.erase name
  flip := hr.flip
  print := hr.print
  manual := hr.manual
  draw := hr.draw

theorem iterates (hr : Congruence r h₁ h₂) (hflag : r checkFlag checkFlag)
    (hspent : r (MonadExcept.throw .exhausted : Effect Unit) (MonadExcept.throw .exhausted))
    (fuel : Nat) : Iterates r fuel :=
  (hr.on fun _ ↦ True).iterates hflag hspent fuel

theorem eval (hr : Congruence r h₁ h₂) (fuel : Nat) (node : Node)
    (hloop : node.hasLoop = true → Iterates r fuel) :
    r (VexLang.eval h₁ fuel node) (VexLang.eval h₂ fuel node) :=
  (hr.on fun _ ↦ True).eval fuel node (fun _ _ ↦ trivial) hloop

end Congruence

end VexLang
