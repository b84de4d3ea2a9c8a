import VexLang.Proofs.Token.Layout

/-!
# Texts that spell given lexemes

A text spells lexemes if reading it, followed by anything that cannot continue
its last lexeme, gives tokens with these lexemes and goes on behind the text.
Spellings are put together piece by piece.
-/

namespace VexLang

/-- A blank only moves the count of lines. -/
theorem tokensFrom_blank {c : Char} (hc : isBlank c = true) (line : Nat) (cs : List Char) :
    tokensFrom line (c :: cs) = tokensFrom (line + [c].count '\n') cs :=
  tokensFrom_skip (.blank hc .nil) line

/-- Read before any text that does not go on with one of the characters in `part`, the
characters `cs` give tokens with the lexemes `ls`, and reading goes on behind them. -/
def Spells (part : Char → Bool) (cs : List Char) (ls : List Lexeme) : Prop :=
  ∀ line rest, (∀ c ∈ rest.head?, part c = false) →
    ∃ ts line', ts.map Token.lexeme = ls ∧
      tokensFrom line (cs ++ rest) = (tokensFrom line' rest).map (ts ++ ·)

/-- Nothing continues a lexeme that is closed by its last character. -/
def noPart (_ : Char) : Bool := false

/-- The characters that continue a number or a word. -/
def isJoined (c : Char) : Bool :=
  isWordPart c || isNumberPart c

namespace Spells

variable {part part' : Char → Bool} {cs cs' : List Char} {ls ls' : List Lexeme}

theorem weaken (h : Spells part cs ls) (hpart : ∀ c, part' c = false → part c = false) :
    Spells part' cs ls := by
  intro line rest hrest
  exact h line rest fun c hc ↦ hpart c (hrest c hc)

theorem append_of_head? (h : Spells part cs ls) (h' : Spells part' cs' ls')
    (hhead : ∀ rest : List Char, (∀ c ∈ rest.head?, part' c = false) →
      ∀ c ∈ (cs' ++ rest).head?, part c = false) :
    Spells part' (cs ++ cs') (ls ++ ls') := by
  intro line rest hrest
  obtain ⟨ts, mid, hts, hread⟩ := h line (cs' ++ rest) (hhead rest hrest)
  obtain ⟨ts', last, hts', hread'⟩ := h' mid rest hrest
  refine ⟨ts ++ ts', last, by rw [List.map_append, hts, hts'], ?_⟩
  rw [List.append_assoc, hread, hread']
  cases tokensFrom last rest <;> simp [Except.map]

/-- A character that does not continue the first text may start the second one. -/
theorem append {c : Char} (h : Spells part cs ls) (h' : Spells part' (c :: cs') ls')
    (hc : part c = false) : Spells part' (cs ++ c :: cs') (ls ++ ls') := by
  refine h.append_of_head? h' fun rest _ d hd ↦ ?_
  obtain rfl : c = d := by simpa using hd
  exact hc

/-- What closes itself can be followed by anything. -/
theorem append_closed (h : Spells noPart cs ls) (h' : Spells part' cs' ls') :
    Spells part' (cs ++ cs') (ls ++ ls') :=
  h.append_of_head? h' fun _ _ _ _ ↦ rfl

theorem nil : Spells noPart [] [] := by
  intro line rest _
  refine ⟨[], line, rfl, ?_⟩
  cases h : tokensFrom line rest <;> simp [Except.map, h]

theorem blank {c : Char} (hc : isBlank c = true) : Spells noPart [c] [] := by
  intro line rest _
  refine ⟨[], line + [c].count '\n', rfl, ?_⟩
  rw [List.singleton_append, tokensFrom_blank hc]
  cases h : tokensFrom (line + [c].count '\n') rest <;> simp [Except.map]

/-- A blank closes what stands before it. -/
theorem close {c : Char} (h : Spells part cs ls) (hc : isBlank c = true) (hpart : part c = false) :
    Spells noPart (cs ++ [c]) ls := by
  simpa using h.append (blank hc) hpart

theorem indent {c : Char} (h : Spells part cs ls) (hc : isBlank c = true) :
    Spells part (c :: cs) ls := by
  simpa using (blank hc).append_closed h

theorem of_word (h : Spells isWordPart cs ls) : Spells isJoined cs ls :=
  h.weaken fun c hc ↦ by simp_all [isJoined]

theorem of_number (h : Spells isNumberPart cs ls) : Spells isJoined cs ls :=
  h.weaken fun c hc ↦ by simp_all [isJoined]

theorem of_closed (h : Spells noPart cs ls) : Spells part cs ls :=
  h.weaken fun _ _ ↦ rfl

/-- The tokens of a whole text that is spelled out. -/
theorem tokens_eq {source : String} (h : Spells part source.toList ls) :
    ∃ ts, ts.map Token.lexeme = ls ∧ tokens source = .ok ts := by
  obtain ⟨ts, line, hts, hread⟩ := h 1 [] (by simp)
  refine ⟨ts, hts, ?_⟩
  rw [List.append_nil] at hread
  have hnil : tokensFrom line [] = .ok [] := by
    rw [tokensFrom_eq]
    rfl
  rw [tokens, hread, hnil]
  simp [Except.map]

/-- A lexeme that is spelled in front of any text that does not continue it. -/
theorem of_spelled {l : Lexeme}
    (h : ∀ rest : List Char, (∀ c ∈ rest.head?, part c = false) → Spelled l cs rest) :
    Spells part cs [l] := by
  intro line rest hrest
  exact ⟨[⟨l, line⟩], _, rfl, tokensFrom_spelled line .nil (h rest hrest)⟩

theorem text {q : Char} (hq : isQuote q = true) {content : List Char} (hc : q ∉ content) :
    Spells noPart (q :: content ++ [q]) [.text (String.ofList content)] :=
  of_spelled fun _ _ ↦ .text hq hc

theorem number {first : Char} {more : List Char} (hfirst : first.isDigit = true)
    (hmore : ∀ c ∈ more, isNumberPart c = true) :
    Spells isNumberPart (first :: more) [.number (String.ofList (first :: more))] :=
  of_spelled fun _ hrest ↦ .number hfirst hmore hrest

theorem word {first : Char} {more : List Char} (hfirst : isWordStart first = true)
    (hmore : ∀ c ∈ more, isWordPart c = true) :
    Spells isWordPart (first :: more) [.ofWord (String.ofList (first :: more))] :=
  of_spelled fun _ hrest ↦ .word hfirst hmore hrest

theorem symbol {c : Char} (hc : c ∈ symbols) (hslash : c ≠ '/') :
    Spells noPart [c] [.symbol c] :=
  of_spelled fun _ _ ↦ .symbol hc fun h ↦ hslash h.1

/-- Only a second slash makes something else of a slash. -/
theorem slash : Spells (· == '/') ['/'] [.symbol '/'] := by
  apply of_spelled
  intro rest hrest
  refine .symbol (by decide) fun h ↦ ?_
  exact absurd (hrest '/' h.2) (by decide)

end Spells

end VexLang
