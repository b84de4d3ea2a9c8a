import VexLang.RunError
import VexLang.Value

/-!
# Environments

The one flat namespace of a run. A name is bound to a value and is constant or
not; what is said about both together is said through `Environment.find?`. The
switch `autoStatus` is carried along.
-/

namespace VexLang

/-- What a name is bound to. -/
structure Binding where
  value : Value
  constant : Bool
  deriving DecidableEq

/-- The values of names, the names that are constants, and the state of the switch. -/
structure Environment where
  values : List (String × Value)
  constants : List String
  autoStatus : Bool
  /-- Every constant is bound. -/
  bound : ∀ name ∈ constants, (values.lookup name).isSome = true
  deriving DecidableEq

theorem lookup_cons_of_ne {x y : String} (h : x ≠ y) (v : Value) (values : List (String × Value)) :
    List.lookup x ((y, v) :: values) = List.lookup x values := by
  have hbeq : (x == y) = false := by simpa using h
  simp [List.lookup_cons, hbeq]

theorem lookup_filter (values : List (String × Value)) (name x : String) :
    (values.filter fun b ↦ b.1 != name).lookup x =
      if x = name then none else values.lookup x := by
  induction values with
  | nil => simp
  | cons b values ih =>
      obtain ⟨y, v⟩ := b
      by_cases hy : y = name
      · by_cases hx : x = name
        · simpa [hy, hx] using ih
        · simpa [hy, hx, lookup_cons_of_ne] using ih
      · by_cases hx : x = y
        · simp [hy, hx]
        · simpa [hy, hx, lookup_cons_of_ne] using ih

theorem contains_filter (names : List String) (name x : String) :
    (names.filter (· != name)).contains x = if x = name then false else names.contains x := by
  by_cases hx : x = name <;> simp [hx]

namespace Environment

/-- No name is bound, and the switch is on. -/
def empty : Environment := ⟨[], [], true, List.forall_mem_nil _⟩

def find? (env : Environment) (name : String) : Option Binding :=
  (env.values.lookup name).map fun v ↦ ⟨v, env.constants.contains name⟩

/-- Makes a constant an ordinary variable. Other names stay as they are. -/
def unconst (env : Environment) (name : String) : Environment where
  values := env.values
  constants := env.constants.filter (· != name)
  autoStatus := env.autoStatus
  bound x hx := env.bound x (List.mem_filter.mp hx).1

/-- Removes a name. It is no constant any more, either. -/
def erase (env : Environment) (name : String) : Environment where
  values := env.values.filter fun b ↦ b.1 != name
  constants := env.constants.filter (· != name)
  autoStatus := env.autoStatus
  bound x hx := by
    obtain ⟨hmem, hne⟩ := List.mem_filter.mp hx
    rw [lookup_filter, if_neg (by simpa using hne)]
    exact env.bound x hmem

/-- Binds a name, in place of an earlier binding. -/
def bind (env : Environment) (name : String) (b : Binding) : Environment where
  values := (name, b.value) :: (env.erase name).values
  constants := if b.constant then name :: (env.erase name).constants else (env.erase name).constants
  autoStatus := env.autoStatus
  bound x hx := by
    by_cases hname : x = name
    · simp [hname]
    · rw [lookup_cons_of_ne hname]
      apply (env.erase name).bound x
      split at hx
      · exact (List.mem_cons.mp hx).resolve_left hname
      · exact hx

@[simp] theorem find?_empty (name : String) : empty.find? name = none := rfl

theorem find?_unconst (env : Environment) (name x : String) :
    (env.unconst name).find? x =
      if x = name then (env.find? x).map fun b ↦ ⟨b.value, false⟩ else env.find? x := by
  simp only [find?, unconst, contains_filter]
  by_cases hx : x = name
  · simp only [if_pos hx, Option.map_map]
    rfl
  · simp only [if_neg hx]

theorem find?_erase (env : Environment) (name x : String) :
    (env.erase name).find? x = if x = name then none else env.find? x := by
  simp only [find?, erase, lookup_filter, contains_filter]
  by_cases hx : x = name
  · simp only [if_pos hx, Option.map_none]
  · simp only [if_neg hx]

theorem find?_bind (env : Environment) (name x : String) (b : Binding) :
    (env.bind name b).find? x = if x = name then some b else env.find? x := by
  have herase := find?_erase env name x
  obtain ⟨v, constant⟩ := b
  by_cases hx : x = name
  · subst hx
    cases constant <;> simp [find?, bind, erase]
  · rw [if_neg hx] at herase ⊢
    rw [← herase]
    cases constant <;> simp [find?, bind, lookup_cons_of_ne hx, hx]

/-- The value of a name; a name that is not bound reads as `undefined`. -/
def get (env : Environment) (name : String) : Value :=
  ((env.find? name).map Binding.value).getD .undefined

def contains (env : Environment) (name : String) : Bool :=
  (env.find? name).isSome

def isConstant (env : Environment) (name : String) : Bool :=
  env.constants.contains name

theorem isConstant_eq (env : Environment) (name : String) :
    env.isConstant name = ((env.find? name).map Binding.constant).getD false := by
  rw [isConstant, find?]
  cases hvalue : env.values.lookup name with
  | some v => rfl
  | none =>
      have hfree : name ∉ env.constants := fun hmem ↦ by
        have hbound := env.bound name hmem
        rw [hvalue] at hbound
        cases hbound
      simpa using hfree

/-- Binds a name, whatever it was bound to before. -/
def declare (env : Environment) (name : String) (value : Value) (constant : Bool) : Environment :=
  env.bind name ⟨value, constant⟩

/-- Only a bound name that is not constant can be assigned to. -/
def checkAssignable (env : Environment) (name : String) : Except RunError Unit :=
  match env.find? name with
  | none => .error (.undeclared name)
  | some b => if b.constant then .error (.constant name) else .ok ()

/-- Changes the value of a bound name. -/
def assign (env : Environment) (name : String) (value : Value) : Except RunError Environment :=
  match env.checkAssignable name with
  | .ok () => .ok (env.bind name ⟨value, false⟩)
  | .error e => .error e

def toggle (env : Environment) : Environment :=
  { env with autoStatus := !env.autoStatus }

theorem find?_declare (env : Environment) (name x : String) (value : Value) (constant : Bool) :
    (env.declare name value constant).find? x =
      if x = name then some ⟨value, constant⟩ else env.find? x :=
  find?_bind env name x ⟨value, constant⟩

@[simp] theorem find?_toggle (env : Environment) (x : String) :
    env.toggle.find? x = env.find? x := rfl

theorem checkAssignable_eq_ok_iff (env : Environment) (name : String) :
    env.checkAssignable name = .ok () ↔ ∃ v, env.find? name = some ⟨v, false⟩ := by
  unfold checkAssignable
  split
  · simp_all
  · rename_i b hb
    obtain ⟨v, c⟩ := b
    cases c <;> simp [hb]

end Environment

end VexLang
