import VexLang.Proofs.Node.Lockstep
import VexLang.Proofs.Token.Spelling

/-!
# Layout does not matter

The lexemes of a text can be written again with one blank between them and no comments, and
are then read as the same lexemes, on other lines. The rules look at lexemes only, so that the
program is the same, or is refused for the same reason at the same token.
-/

namespace VexLang

/-! ## Lexemes written again -/

theorem Lexeme.spelling_ofWord (word : String) : (Lexeme.ofWord word).spelling = word := by
  unfold ofWord
  split <;> rfl

/-- The characters that may make something else of the lexeme in front of them. -/
def isAttached (c : Char) : Bool :=
  isJoined c || c == '/'

/-- A lexeme that was read once is read again from its own spelling, unless that has a quote
inside its quotes. -/
theorem Spelled.spells {l : Lexeme} {spelled rest : List Char} (h : Spelled l spelled rest)
    (hquote : ∀ content, l = .text content → '"' ∉ content.toList) :
    Spells isAttached l.spelling.toList [l] := by
  have htext {content : List Char} (hl : l = .text (String.ofList content)) :
      Spells isAttached (Lexeme.text (String.ofList content)).spelling.toList
        [.text (String.ofList content)] := by
    have hcontent := hquote _ hl
    rw [String.toList_ofList] at hcontent
    have hspell : Spells noPart ('"' :: content ++ ['"']) [.text (String.ofList content)] :=
      .text rfl hcontent
    simpa [Lexeme.spelling] using hspell.of_closed
  cases h with
  | text => exact htext rfl
  | unclosed => exact htext rfl
  | @number first more rest hfirst hmore hend =>
      have hspell := (Spells.number hfirst hmore).of_number
      rw [Lexeme.spelling, String.toList_ofList]
      exact hspell.weaken fun c hc ↦ (Bool.or_eq_false_iff.mp hc).1
  | @word first more rest hfirst hmore hend =>
      have hspell := (Spells.word hfirst hmore).of_word
      rw [Lexeme.spelling_ofWord, String.toList_ofList]
      exact hspell.weaken fun c hc ↦ (Bool.or_eq_false_iff.mp hc).1
  | @symbol c rest hc hcomment =>
      rw [Lexeme.spelling, String.toList_singleton]
      by_cases hslash : c = '/'
      · subst hslash
        exact Spells.slash.weaken fun c hc ↦ (Bool.or_eq_false_iff.mp hc).2
      · exact (Spells.symbol hc hslash).of_closed

theorem spells_separated {ls : List Lexeme}
    (h : ∀ l ∈ ls, Spells isAttached l.spelling.toList [l]) :
    Spells isAttached (String.intercalate " " (ls.map Lexeme.spelling)).toList ls := by
  induction ls with
  | nil => exact Spells.nil.of_closed
  | cons l ls ih =>
      obtain ⟨hl, hls⟩ := List.forall_mem_cons.mp h
      cases ls with
      | nil => simpa using hl
      | cons m ls =>
          have hblank : isBlank ' ' = true := by decide
          have hboth := hl.append ((ih hls).indent hblank) (by decide)
          simpa [String.intercalate_cons_cons] using hboth

/-- The lexemes of the tokens with a blank between each two of them. -/
def respelled (ts : List Token) : String :=
  String.intercalate " " (ts.map fun t ↦ t.lexeme.spelling)

theorem tokens_respelled {source : String} {ts : List Token} (h : tokens source = .ok ts)
    (hquotes : ∀ t ∈ ts, ∀ content, t.lexeme = .text content → '"' ∉ content.toList) :
    ∃ us, tokens (respelled ts) = .ok us ∧ us.map Token.lexeme = ts.map Token.lexeme := by
  have hspells : ∀ l ∈ ts.map Token.lexeme, Spells isAttached l.spelling.toList [l] := by
    intro l hl
    obtain ⟨t, ht, rfl⟩ := List.mem_map.mp hl
    obtain ⟨spelled, rest, hspelled⟩ := spelled_of_tokens h ht
    exact hspelled.spells (hquotes t ht)
  have hall := spells_separated hspells
  rw [List.map_map] at hall
  obtain ⟨us, hus, htokens⟩ := hall.tokens_eq
  exact ⟨us, htokens, hus⟩

/-! ## The same program -/

/-- The same answer to both lists: the same result, or the same fault inside the same rules and
on the line of the token with the same index. -/
inductive SameAnswer (ts us : List Token) {α : Type} :
    Except ParseError α → Except ParseError α → Prop
  | ok (a : α) : SameAnswer ts us (.ok a) (.ok a)
  | error (fault : ParseFault) (context : List Rule) (n : Nat) :
      SameAnswer ts us (.error ⟨fault, context, ts[n]?.map Token.line⟩)
        (.error ⟨fault, context, us[n]?.map Token.line⟩)

theorem eq_error_of_map {ε α β : Type} {x : Except ε α} {f : α → β} {e : ε}
    (h : x.map f = .error e) : x = .error e := by
  cases x with
  | ok a => cases h
  | error e' =>
      obtain rfl : e' = e := Except.error.inj h
      rfl

theorem lockstep_sameAnswer (ts us : List Token) : Parser.Lockstep ts us (SameAnswer ts us) where
  ok a := .ok a
  bind hx hf := by
    cases hx with
    | ok a => exact hf a rfl
    | error fault context n => exact .error fault context n
  of_map := by
    intro α β x y f hf h
    generalize hx : x.map f = x', hy : y.map f = y' at h
    cases h with
    | ok b =>
        obtain ⟨a, rfl, ha⟩ := Parser.exists_of_map_eq_ok hx
        obtain ⟨a', rfl, ha'⟩ := Parser.exists_of_map_eq_ok hy
        obtain rfl := hf (ha.trans ha'.symm)
        exact .ok a
    | error fault context n =>
        rw [eq_error_of_map hx, eq_error_of_map hy]
        exact .error fault context n
  refuse := by
    intro α fault rule outer i n _ _ _
    rw [Parser.refuse, Parser.refuse, firstLine?_drop, firstLine?_drop]
    exact .error fault _ n

/-- A text and its lexemes written again with single blanks have the same lexemes, and the same
program, or the same fault at the same token; and any two lists of tokens with the same lexemes
are read alike, whatever their lines are. -/
theorem respelled_read_alike :
    (∀ source ts, tokens source = .ok ts →
      (∀ t ∈ ts, ∀ content, t.lexeme = .text content → '"' ∉ content.toList) →
      ∃ us, tokens (respelled ts) = .ok us ∧ us.map Token.lexeme = ts.map Token.lexeme ∧
        SameAnswer ts us (Program.ofTokens ts) (Program.ofTokens us)) ∧
    ∀ ts us : List Token, ts.map Token.lexeme = us.map Token.lexeme →
      SameAnswer ts us (Program.ofTokens ts) (Program.ofTokens us) := by
  have hall (ts us : List Token) (h : ts.map Token.lexeme = us.map Token.lexeme) :
      SameAnswer ts us (Program.ofTokens ts) (Program.ofTokens us) :=
    (lockstep_sameAnswer ts us).program h
  refine ⟨?_, hall⟩
  intro source ts htokens hquotes
  obtain ⟨us, hrespelled, hsame⟩ := tokens_respelled htokens hquotes
  exact ⟨us, hrespelled, hsame, hall ts us hsame.symm⟩

/-- An assignment without a quoted name, with a comment and a line break inside it. -/
def spreadOut : String := "set // a comment\n  x"

theorem respelled_read_alike_spreadOut :
    ∃ ts us, tokens spreadOut = .ok ts ∧ respelled ts = "set x" ∧ tokens "set x" = .ok us ∧
      Program.ofTokens ts = .error ⟨.variableNotQuoted, [.assignment, .program], some 2⟩ ∧
      SameAnswer ts us (Program.ofTokens ts) (Program.ofTokens us) := by
  have htokens : tokens spreadOut = .ok [⟨.word "set", 1⟩, ⟨.word "x", 2⟩] := by cbv
  have hspelled : respelled [⟨.word "set", 1⟩, ⟨.word "x", 2⟩] = "set x" := by cbv
  have hread : Program.ofTokens [⟨.word "set", 1⟩, ⟨.word "x", 2⟩] =
      .error ⟨.variableNotQuoted, [.assignment, .program], some 2⟩ := by cbv
  obtain ⟨us, hus, -, hanswer⟩ := respelled_read_alike.1 spreadOut _ htokens (by simp)
  rw [hspelled] at hus
  exact ⟨_, us, htokens, hspelled, hus, hread, hanswer⟩

end VexLang
