import VexLang.Proofs.Node.Lockstep

/-!
# Why tokens are refused

An error points at a word of the program that asks for something, and at the position behind
it where something else stands. The rules it names are those that were open there.
-/

namespace VexLang

/-- The error has a cause among the tokens: where it was found is the position `n` of its line,
and the rule that found it is the innermost of the open ones. -/
structure Explained (ts : List Token) (e : ParseError) (i n : Nat) : Prop where
  cause : ∃ rule outer, e.context = rule :: outer ∧ Cause ts e.fault rule i n
  bound : n ≤ ts.length
  line : e.line = ts[n]?.map Token.line
  nested : Nested e.context

/-- Every error that may be answered is explained. -/
def Explains (ts : List Token) {α : Type} (x _ : Except ParseError α) : Prop :=
  ∀ e, x = .error e → ∃ i n, Explained ts e i n

theorem exists_of_bind_eq_error {ε α β : Type} {x : Except ε α} {f : α → Except ε β} {e : ε}
    (h : x >>= f = .error e) : x = .error e ∨ ∃ a, x = .ok a ∧ f a = .error e := by
  cases x with
  | ok a => exact .inr ⟨a, rfl, h⟩
  | error e' =>
      obtain rfl : e' = e := Except.error.inj h
      exact .inl rfl

theorem lockstep_explains (ts : List Token) : Parser.Lockstep ts ts (Explains ts) where
  ok a e h := by cases h
  bind hx hf e h := by
    rcases exists_of_bind_eq_error h with h | ⟨a, ha, h⟩
    · exact hx e h
    · exact hf a ha e h
  of_map _ hx e h := by
    rw [h] at hx
    exact hx e rfl
  refuse hcause hbound hnested e h := by
    obtain rfl := Except.error.inj h
    exact ⟨_, _, ⟨_, _, rfl, hcause⟩, hbound, firstLine?_drop _ _, hnested⟩

/-- Where a program is refused, a word that opens a declaration or an assignment, or that asks
for a target, is not followed by a quoted text, or a loop has no body. The rule of this word is
the innermost one of the error, the line is that of the token at which it was found, and from
the program on each rule of the error can be opened inside the one before. -/
theorem ofTokens_error_explained {ts : List Token} {e : ParseError}
    (h : Program.ofTokens ts = .error e) :
    ∃ i n innermost, Cause ts e.fault innermost i n ∧ e.context.head? = some innermost ∧
      n ≤ ts.length ∧ e.line = ts[n]?.map Token.line ∧ (e.line = none ↔ n = ts.length) ∧
      e.context.reverse.head? = some .program ∧
      e.context.reverse.IsChain fun outer inner ↦ outer.encloses inner = true := by
  obtain ⟨i, n, hexplained⟩ := (lockstep_explains ts).program rfl e h
  obtain ⟨rule, outer, hcontext, hcause⟩ := hexplained.cause
  have hbound := hexplained.bound
  have hmissing : e.line = none ↔ n = ts.length := by
    rw [hexplained.line, Option.map_eq_none_iff, List.getElem?_eq_none_iff]
    omega
  exact ⟨i, n, rule, hcause, by rw [hcontext]; rfl, hbound, hexplained.line, hmissing,
    hexplained.nested.reverse⟩

/-- A loop as the value of a name; its count is not closed and its body is missing. -/
def bodiless : List Token :=
  [⟨.word "set", 1⟩, ⟨.text "x", 1⟩, ⟨.word "is", 1⟩, ⟨.word "loop!", 2⟩, ⟨.symbol '[', 2⟩,
    ⟨.text "n", 2⟩, ⟨.text "m", 3⟩]

theorem ofTokens_error_explained_bodiless :
    Program.ofTokens bodiless =
        .error ⟨.missingLoopBody, [.loop, .phrase, .assignment, .program], some 3⟩ ∧
      ∃ i n innermost, Cause bodiless .missingLoopBody innermost i n ∧ n ≤ bodiless.length ∧
        some 3 = bodiless[n]?.map Token.line := by
  have hread : Program.ofTokens bodiless =
      .error ⟨.missingLoopBody, [.loop, .phrase, .assignment, .program], some 3⟩ := by cbv
  obtain ⟨i, n, innermost, hcause, -, hbound, hline, -⟩ := ofTokens_error_explained hread
  exact ⟨hread, i, n, innermost, hcause, hbound, hline⟩

end VexLang
