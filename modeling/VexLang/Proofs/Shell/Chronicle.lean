import Mathlib

/-!
# Entries made one after the other

A chronicle is made of items that are taken in order. Each item makes an entry, which may
depend on all entries before it, and an entry can end the chronicle. There is exactly one
chronicle of the items.
-/

namespace VexLang

variable {ι ε : Type}

/-- After some past entries, each entry is made of the item at its place and of all entries
before it. The items are taken in order until none is left or an entry does not go on. -/
structure Chronicle (step : List ε → ι → ε) (goesOn : ε → Bool) (past : List ε) (items : List ι)
    (entries : List ε) : Prop where
  each : ∀ i < entries.length, ∃ item, items[i]? = some item ∧
    entries[i]? = some (step (past ++ entries.take i) item)
  onward : ∀ i e, entries[i]? = some e → i + 1 < entries.length → goesOn e = true
  ends : entries.length = items.length ∨ ∃ e, entries.getLast? = some e ∧ goesOn e = false

/-- The entries that items make after some others. -/
def entriesFrom (step : List ε → ι → ε) (goesOn : ε → Bool) : List ε → List ι → List ε
  | _, [] => []
  | past, item :: items =>
    let e := step past item
    e :: if goesOn e then entriesFrom step goesOn (past ++ [e]) items else []

variable {step : List ε → ι → ε} {goesOn : ε → Bool} {past entries : List ε} {item : ι}
  {items : List ι}

theorem chronicle_nil_iff : Chronicle step goesOn past [] entries ↔ entries = [] := by
  constructor
  · intro h
    cases entries with
    | nil => rfl
    | cons e rest =>
        obtain ⟨_, hitem, -⟩ := h.each 0 (Nat.succ_pos _)
        cases hitem
  · rintro rfl
    exact ⟨fun i hi ↦ absurd hi (Nat.not_lt_zero i),
      fun i _ _ hi ↦ absurd hi (Nat.not_lt_zero _), .inl rfl⟩

namespace Chronicle

theorem take_succ (past : List ε) (e : ε) (rest : List ε) (i : Nat) :
    past ++ (e :: rest).take (i + 1) = (past ++ [e]) ++ rest.take i := by
  rw [List.take_succ_cons, List.append_assoc]
  rfl

theorem go {e : ε} (he : e = step past item) (hon : goesOn e = true)
    (h : Chronicle step goesOn (past ++ [e]) items entries) :
    Chronicle step goesOn past (item :: items) (e :: entries) where
  each i hi := by
    cases i with
    | zero => exact ⟨item, rfl, by rw [List.take_zero, List.append_nil, ← he]; rfl⟩
    | succ i =>
        rw [take_succ]
        exact h.each i (Nat.lt_of_succ_lt_succ hi)
  onward i e' he' hi := by
    cases i with
    | zero =>
        cases he'
        exact hon
    | succ i => exact h.onward i e' he' (Nat.lt_of_succ_lt_succ hi)
  ends := by
    rcases h.ends with hall | ⟨e', hlast, hoff⟩
    · exact .inl (congrArg Nat.succ hall)
    · exact .inr ⟨e', by rw [List.getLast?_cons, hlast]; rfl, hoff⟩

theorem stop {e : ε} (he : e = step past item) (hoff : goesOn e = false) (items : List ι) :
    Chronicle step goesOn past (item :: items) [e] where
  each i hi := by
    obtain rfl := Nat.lt_one_iff.mp hi
    exact ⟨item, rfl, by rw [List.take_zero, List.append_nil, ← he]; rfl⟩
  onward i _ _ hi := absurd (Nat.lt_of_succ_lt_succ hi) (Nat.not_lt_zero i)
  ends := .inr ⟨e, rfl, hoff⟩

theorem tail {e : ε} (hon : goesOn e = true)
    (h : Chronicle step goesOn past (item :: items) (e :: entries)) :
    Chronicle step goesOn (past ++ [e]) items entries where
  each i hi := by
    obtain ⟨next, hitem, hentry⟩ := h.each (i + 1) (Nat.succ_lt_succ hi)
    rw [take_succ] at hentry
    exact ⟨next, hitem, hentry⟩
  onward i e' he hi := h.onward (i + 1) e' he (Nat.succ_lt_succ hi)
  ends := by
    rcases h.ends with hall | ⟨e', hlast, hoff⟩
    · exact .inl (Nat.succ.inj hall)
    · rw [List.getLast?_cons] at hlast
      cases hrest : entries.getLast? with
      | none =>
          -- the entry would be the last one although it goes on
          rw [hrest] at hlast
          cases hlast
          exact absurd (hon.symm.trans hoff) Bool.true_eq_false.mp
      | some last =>
          rw [hrest] at hlast
          cases hlast
          exact .inr ⟨last, rfl, hoff⟩

/-- An entry that does not go on is the last one. -/
theorem getLast?_of_not_all (h : Chronicle step goesOn past items entries)
    (hoff : entries.all goesOn = false) : ∃ e, entries.getLast? = some e ∧ goesOn e = false := by
  obtain ⟨e, hmem, he⟩ := List.all_eq_false.mp hoff
  obtain ⟨i, hi⟩ := List.mem_iff_getElem?.mp hmem
  have hlt : i < entries.length := (List.getElem?_eq_some_iff.mp hi).1
  have hlast : i + 1 = entries.length :=
    Nat.le_antisymm hlt (Nat.not_lt.mp fun hmore ↦ he (h.onward i e hi hmore))
  refine ⟨e, ?_, Bool.eq_false_iff.mpr he⟩
  rw [List.getLast?_eq_getElem?, ← hlast]
  exact hi

/-- The items behind an entry that does not go on do not matter. -/
theorem of_ended (h : Chronicle step goesOn past items entries) {e : ε}
    (hlast : entries.getLast? = some e) (hoff : goesOn e = false) {items' : List ι}
    (hitems : items.take entries.length <+: items') :
    Chronicle step goesOn past items' entries where
  each i hi := by
    obtain ⟨item, hitem, hentry⟩ := h.each i hi
    refine ⟨item, ?_, hentry⟩
    obtain ⟨more, rfl⟩ := hitems
    have htaken : (items.take entries.length)[i]? = some item := by
      rw [List.getElem?_take_of_lt hi, hitem]
    rw [List.getElem?_append_left (List.getElem?_eq_some_iff.mp htaken).1, htaken]
  onward := h.onward
  ends := .inr ⟨e, hlast, hoff⟩

end Chronicle

/-- A chronicle of an item and more is the entry of the item, and then nothing or a chronicle of
the others. -/
theorem chronicle_cons_iff : Chronicle step goesOn past (item :: items) entries ↔
    ∃ rest, entries = step past item :: rest ∧
      (goesOn (step past item) = true ∧
          Chronicle step goesOn (past ++ [step past item]) items rest ∨
        goesOn (step past item) = false ∧ rest = []) := by
  constructor
  · intro h
    cases entries with
    | nil =>
        rcases h.ends with hall | ⟨e, hlast, -⟩
        · cases hall
        · cases hlast
    | cons e rest =>
        obtain ⟨_, hitem, hentry⟩ := h.each 0 (Nat.succ_pos _)
        cases hitem
        rw [List.take_zero, List.append_nil] at hentry
        obtain rfl : e = step past item := Option.some.inj hentry
        refine ⟨rest, rfl, ?_⟩
        cases hon : goesOn (step past item) with
        | true => exact .inl ⟨rfl, h.tail hon⟩
        | false =>
            cases rest with
            | nil => exact .inr ⟨rfl, rfl⟩
            | cons e' rest =>
                have hgo := h.onward 0 _ rfl (Nat.succ_lt_succ (Nat.succ_pos _))
                rw [hon] at hgo
                cases hgo
  · rintro ⟨rest, rfl, ⟨hon, h⟩ | ⟨hoff, rfl⟩⟩
    · exact .go rfl hon h
    · exact .stop rfl hoff items

theorem chronicle_map_iff {κ : Type} {f : κ → ι} {items : List κ} :
    Chronicle step goesOn past (items.map f) entries ↔
      Chronicle (fun past item ↦ step past (f item)) goesOn past items entries := by
  induction items generalizing past entries with
  | nil => rw [List.map_nil, chronicle_nil_iff, chronicle_nil_iff]
  | cons item items ih => simp only [List.map_cons, chronicle_cons_iff, ih]

theorem chronicle_iff : Chronicle step goesOn past items entries ↔
    entries = entriesFrom step goesOn past items := by
  induction items generalizing past entries with
  | nil => exact chronicle_nil_iff
  | cons item items ih =>
      rw [chronicle_cons_iff, entriesFrom]
      cases hon : goesOn (step past item) with
      | true =>
          constructor
          · rintro ⟨rest, rfl, ⟨-, h⟩ | ⟨⟨⟩, -⟩⟩
            rw [ih.mp h]
            rfl
          · intro h
            exact ⟨_, h, .inl ⟨rfl, ih.mpr rfl⟩⟩
      | false =>
          constructor
          · rintro ⟨rest, rfl, ⟨⟨⟩, -⟩ | ⟨-, rfl⟩⟩
            rfl
          · intro h
            exact ⟨_, h, .inr ⟨rfl, rfl⟩⟩

theorem existsUnique_chronicle (step : List ε → ι → ε) (goesOn : ε → Bool) (items : List ι) :
    ∃! entries, Chronicle step goesOn [] items entries :=
  ⟨entriesFrom step goesOn [] items, chronicle_iff.mpr rfl, fun _ h ↦ chronicle_iff.mp h⟩

end VexLang
