import VexLang.Proofs.JavaScript.Machine
import VexLang.Run.Evaluation

/-!
# Portable programs

The part of the language that is meant to mean the same when it is interpreted and when
it is compiled, and what its programs do: a course leads from one environment to
another and passes the lines that are printed and the tests of counting loops. The
limit of a loop is found once, before its first test.
-/

namespace VexLang

/-- Names that are declared, and whether they are constant. -/
abbrev Scope := List (String × Bool)

/-- The names that can be used inside of a counting loop. -/
def Scope.inLoop (scope : Scope) : Scope :=
  scope.filter fun b ↦ b.1 ≠ JavaScript.Action.counter

theorem Scope.mem_inLoop {scope : Scope} {b : String × Bool} :
    b ∈ scope.inLoop ↔ b ∈ scope ∧ b.1 ≠ JavaScript.Action.counter := by
  simp [Scope.inLoop]

/-- Number literals have no sign. -/
def IsLiteral : Value → Prop
  | .number n => isNegative n = false ∧ magnitude n ≤ Magnitude.infinity
  | _ => True

instance : DecidablePred IsLiteral
  | .number n =>
    inferInstanceAs (Decidable (isNegative n = false ∧ magnitude n ≤ Magnitude.infinity))
  | .text _ | .boolean _ | .null | .undefined => isTrue trivial

inductive PortableTerm (scope : Scope) : Node → Prop where
  | literal {v : Value} (hv : IsLiteral v) : PortableTerm scope (.literal v)
  | cast {v : Value} {status : Status} (hv : IsLiteral v) (hvar : status ≠ .var)
      (hword : Status.ofWord status.word = status) : PortableTerm scope (.cast (.literal v) status)
  | word {name : String} {c : Bool} (hname : (name, c) ∈ scope) :
      PortableTerm scope (.cast (.identifier name) .var)
  | quoted {name : String} {c : Bool} (hname : (name, c) ∈ scope) :
      PortableTerm scope (.cast (.literal (.text name)) .var)
  | comparison {left right : Node} (hleft : PortableTerm scope left)
      (hright : PortableTerm scope right) : PortableTerm scope (.comparison left right)
  | arithmetic {left right : Node} (op : Operator) (hleft : PortableTerm scope left)
      (hright : PortableTerm scope right) : PortableTerm scope (.arithmetic left op right)

inductive PortableValue (scope : Scope) : Node → Prop where
  | term {node : Node} (hnode : PortableTerm scope node) : PortableValue scope node
  | phrase {parts : List Node} (hparts : ∀ part ∈ parts, PortableTerm scope part) :
      PortableValue scope (.phrase parts)

/-- Statements, with counting loops only where `loops` allows for them. In a counting loop
the name of its counter cannot be used. -/
inductive PortableNode (loops : Bool) : Scope → Node → Prop where
  | assignment {scope : Scope} {name : String} {value : Node} (hname : (name, false) ∈ scope)
      (hvalue : PortableValue scope value) : PortableNode loops scope (.assignment name value)
  | print {scope : Scope} {params : List Node}
      (hparams : ∀ param ∈ params, PortableValue scope param) :
      PortableNode loops scope (.call printCommand params)
  | branch {scope : Scope} {condition : Node} {body : List Node} {alternate : Option Node}
      (kind : BranchKind) (hcondition : PortableTerm scope condition)
      (hbody : ∀ node ∈ body, PortableNode loops scope node)
      (halternate : ∀ node ∈ alternate, PortableNode loops scope node) :
      PortableNode loops scope (.branch kind condition body alternate)
  | loop {scope : Scope} {times : Node} {body : List Node} (hloops : loops = true)
      (htimes : PortableTerm scope.inLoop times)
      (hbody : ∀ node ∈ body, PortableNode loops scope.inLoop node) :
      PortableNode loops scope (.loop (some times) body)

/-- Programs: every name is declared once, at the top and before it is used. -/
inductive PortableProgram (usable : String → Bool) (loops : Bool) : Scope → Program → Prop where
  | nil {scope : Scope} : PortableProgram usable loops scope []
  | declaration {scope : Scope} {name : String} {value : Node} {constant : Bool}
      {program : Program} (husable : usable name = true) (hfresh : ∀ c, (name, c) ∉ scope)
      (hvalue : PortableValue scope value)
      (hrest : PortableProgram usable loops ((name, constant) :: scope) program) :
      PortableProgram usable loops scope (.declaration name value constant :: program)
  | statement {scope : Scope} {node : Node} {program : Program}
      (hnode : PortableNode loops scope node)
      (hrest : PortableProgram usable loops scope program) :
      PortableProgram usable loops scope (node :: program)

theorem PortableProgram.of_nodes {usable : String → Bool} {loops : Bool} {scope : Scope}
    {nodes : List Node} (h : ∀ node ∈ nodes, PortableNode loops scope node) :
    PortableProgram usable loops scope nodes := by
  induction nodes with
  | nil => exact .nil
  | cons node nodes ih =>
      exact .statement (h node (by simp)) (ih fun n hn ↦ h n (List.mem_cons_of_mem _ hn))

mutual

/-- The value of a portable term or phrase. -/
def Node.value (env : Environment) : Node → Value
  | .literal v => v
  | .cast (.identifier name) _ => env.get name
  | .cast (.literal v) status => if status = .var then env.get v.toText else v.cast status
  | .phrase parts => .text (String.intercalate " " (partTexts env parts))
  | .comparison left right => .boolean ((left.value env).strictEq (right.value env))
  | .arithmetic left op right => op.apply (left.value env) (right.value env)
  | _ => .undefined

def partTexts (env : Environment) : List Node → List String
  | [] => []
  | part :: parts => (part.value env).phraseText :: partTexts env parts

end

theorem partTexts_eq_map (env : Environment) (parts : List Node) :
    partTexts env parts = (parts.map (Node.value env)).map Value.phraseText := by
  induction parts with
  | nil => rfl
  | cons part parts ih => rw [partTexts, ih, List.map_cons, List.map_cons]

/-- The value as it is kept. -/
def Node.kept (env : Environment) (node : Node) : Value :=
  storedValue node (node.value env)

/-- What is passed on a course. -/
inductive Moment where
  | line (v : Value)
  /-- The test of a counting loop, in the environment in which it is made. -/
  | test (times : Node) (count limit : Float) (env : Environment)

namespace Moment

def events : Moment → List Event
  | line v => [.text v.toText, .lineEnd]
  | test .. => []

/-- What is seen of the moment when it comes to pass in generated code. -/
def mark : Moment → JavaScript.Mark
  | line v => .line (JavaScript.printedText v)
  | test _ count limit _ => .test (decide (count < limit))

def outcome? (moment : Moment) : Option Bool :=
  moment.mark.outcome?

/-- Evaluating the limit anew would not change the outcome of the test. -/
def Steady : Moment → Prop
  | line _ => True
  | test times count limit env => count < (times.value env).toNumber ↔ count < limit

end Moment

/-- The values that are printed on a course. -/
def printedValues (moments : List Moment) : List Value :=
  moments.filterMap fun
    | .line v => some v
    | .test .. => none

theorem printedValues_line (v : Value) (moments : List Moment) :
    printedValues (.line v :: moments) = v :: printedValues moments := rfl

theorem printedValues_test (times : Node) (count limit : Float) (env : Environment)
    (moments : List Moment) :
    printedValues (.test times count limit env :: moments) = printedValues moments := rfl

inductive Task where
  | body (nodes : List Node)
  /-- The rest of a counting loop, from the test at `count` on. -/
  | rounds (times : Node) (limit : Float) (body : List Node) (count : Float)

inductive Course : Task → Environment → List Moment → Environment → Prop where
  | done {env : Environment} : Course (.body []) env [] env
  | declaration {env env' : Environment} {name : String} {value : Node} {constant : Bool}
      {nodes : List Node} {moments : List Moment}
      (hrest : Course (.body nodes) (env.declare name (value.kept env) constant) moments env') :
      Course (.body (.declaration name value constant :: nodes)) env moments env'
  | assignment {env env₁ env' : Environment} {name : String} {value : Node}
      {nodes : List Node} {moments : List Moment}
      (hassign : env.assign name (value.kept env) = .ok env₁)
      (hrest : Course (.body nodes) env₁ moments env') :
      Course (.body (.assignment name value :: nodes)) env moments env'
  | print {env env' : Environment} {params nodes : List Node} {moments : List Moment}
      (hrest : Course (.body nodes) env moments env') :
      Course (.body (.call printCommand params :: nodes)) env
        (params.map (fun p ↦ .line (p.value env)) ++ moments) env'
  | branch {env env₁ env' : Environment} {kind : BranchKind} {condition : Node}
      {body nodes : List Node} {alternate : Option Node} {moments₁ moments : List Moment}
      (hchosen : Course (.body (if (condition.value env).isYup then body else alternate.toList))
        env moments₁ env₁)
      (hrest : Course (.body nodes) env₁ moments env') :
      Course (.body (.branch kind condition body alternate :: nodes)) env
        (moments₁ ++ moments) env'
  | loop {env env₁ env' : Environment} {times : Node} {body nodes : List Node}
      {moments₁ moments : List Moment}
      (hrounds : Course (.rounds times (times.value env).toNumber body 0.0) env moments₁ env₁)
      (hrest : Course (.body nodes) env₁ moments env') :
      Course (.body (.loop (some times) body :: nodes)) env (moments₁ ++ moments) env'
  | last {env : Environment} {times : Node} {limit count : Float} {body : List Node}
      (hlimit : ¬count < limit) :
      Course (.rounds times limit body count) env [.test times count limit env] env
  | next {env env₁ env' : Environment} {times : Node} {limit count : Float} {body : List Node}
      {moments₁ moments : List Moment} (hlimit : count < limit)
      (hbody : Course (.body body) env moments₁ env₁)
      (hrounds : Course (.rounds times limit body (count + 1.0)) env₁ moments env') :
      Course (.rounds times limit body count) env
        (.test times count limit env :: (moments₁ ++ moments)) env'

end VexLang
