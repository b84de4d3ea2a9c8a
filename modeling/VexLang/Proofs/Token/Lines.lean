import VexLang.Proofs.Token.Layout

/-!
# Texts put below each other

Reading a text does not look beyond the end of its last line, unless quoted text is left open
there: the tokens of two texts with a line break between them are the tokens of the first and
then those of the second, further down. What a text is cut into stays a cut of it when a new
line follows.
-/

namespace VexLang

/-- The characters of quoted text without its closing quote. -/
def LeftOpen (spelled : List Char) : Prop :=
  ∃ q content, isQuote q = true ∧ q ∉ content ∧ spelled = q :: content

/-- The last lexeme of the text is quoted text that nothing closes. -/
def EndsOpen (source : String) : Prop :=
  ∃ pieces gap spelled, source.toList = textOf pieces ++ (gap ++ spelled) ∧
    Fits pieces (gap ++ spelled) ∧ Gap gap spelled ∧ LeftOpen spelled

/-- The other text begins with the same character, with a line break, or not at all. -/
def BeginsAlike (rest rest' : List Char) : Prop :=
  ∀ c ∈ rest'.head?, c ∈ rest.head? ∨ c = '\n'

namespace BeginsAlike

variable {rest rest' : List Char}

theorem preceded (h : BeginsAlike rest rest') (cs : List Char) :
    BeginsAlike (cs ++ rest) (cs ++ rest') := by
  cases cs with
  | nil => exact h
  | cons c cs => exact fun d hd ↦ .inl hd

theorem followed (c : Char) (cs more : List Char) :
    BeginsAlike (c :: cs) (c :: (cs ++ more)) :=
  fun _ hd ↦ .inl hd

theorem newLine (rest cs : List Char) : BeginsAlike rest ('\n' :: cs) := by
  rintro c ⟨⟩
  exact .inr rfl

/-- A class of characters that does not go on at the beginning of the one text does not go on
there in the other one either. -/
theorem eq_false (h : BeginsAlike rest rest') {part : Char → Bool}
    (hrest : ∀ c ∈ rest.head?, part c = false) (hbreak : part '\n' = false) :
    ∀ c ∈ rest'.head?, part c = false := by
  intro c hc
  rcases h c hc with hsame | rfl
  · exact hrest c hsame
  · exact hbreak

end BeginsAlike

theorem Gap.beginsAlike {gap rest rest' : List Char} (h : Gap gap rest)
    (halike : BeginsAlike rest rest') : Gap gap rest' := by
  induction h with
  | nil => exact .nil
  | blank hc _ ih => exact .blank hc (ih halike)
  | comment hbody hend _ ih =>
      refine .comment hbody (fun c hc ↦ ?_) (ih halike)
      rcases halike.preceded _ c hc with hsame | hbreak
      · exact hend c hsame
      · exact hbreak

theorem Spelled.beginsAlike {l : Lexeme} {spelled rest rest' : List Char}
    (h : Spelled l spelled rest) (hclosed : ¬ LeftOpen spelled) (halike : BeginsAlike rest rest') :
    Spelled l spelled rest' := by
  cases h with
  | text hq hcontent => exact .text hq hcontent
  | unclosed hq hcontent => exact absurd ⟨_, _, hq, hcontent, rfl⟩ hclosed
  | number hfirst hmore hend => exact .number hfirst hmore (halike.eq_false hend (by decide))
  | word hfirst hmore hend => exact .word hfirst hmore (halike.eq_false hend (by decide))
  | symbol hc hcomment =>
      refine .symbol hc ?_
      rintro ⟨rfl, hslash⟩
      rcases halike '/' hslash with hsame | hbreak
      · exact hcomment ⟨rfl, hsame⟩
      · exact absurd hbreak (by decide)

/-- Quoted text that is left open is followed by nothing. -/
theorem Spelled.eq_nil_of_leftOpen {l : Lexeme} {spelled rest : List Char}
    (h : Spelled l spelled rest) (hopen : LeftOpen spelled) : rest = [] := by
  obtain ⟨q, content, hq, hcontent, hspelled⟩ := hopen
  cases h with
  | text hq' hcontent' =>
      obtain ⟨rfl, rfl⟩ := List.cons.inj hspelled
      exact absurd (List.mem_append_right _ List.mem_cons_self) hcontent
  | unclosed => rfl
  | number hfirst =>
      obtain ⟨rfl, -⟩ := List.cons.inj hspelled
      have hrange := toNat_of_isDigit hfirst
      rw [isQuote_eq_false (by omega)] at hq
      cases hq
  | word hfirst =>
      obtain ⟨rfl, -⟩ := List.cons.inj hspelled
      have hrange := toNat_of_isWordStart hfirst
      rw [isQuote_eq_false (by omega)] at hq
      cases hq
  | symbol hc =>
      obtain ⟨rfl, -⟩ := List.cons.inj hspelled
      rw [(symbols_apart _ hc).1] at hq
      cases hq

/-! ## Cuts of a text that goes on -/

theorem textOf_append (before after : List Piece) :
    textOf (before ++ after) = textOf before ++ textOf after :=
  List.flatMap_append

theorem fits_append_iff (before after : List Piece) (rest : List Char) :
    Fits (before ++ after) rest ↔ Fits before (textOf after ++ rest) ∧ Fits after rest := by
  induction before with
  | nil => simp [Fits]
  | cons p before ih =>
      simp only [List.cons_append, Fits, ih, textOf_append, List.append_assoc, and_assoc]

theorem Fits.beginsAlike {pieces : List Piece} {rest rest' : List Char} (h : Fits pieces rest)
    (hclosed : ∀ p ∈ pieces, ¬ LeftOpen p.spelled) (halike : BeginsAlike rest rest') :
    Fits pieces rest' := by
  induction pieces with
  | nil => trivial
  | cons p pieces ih =>
      obtain ⟨hp, hpieces⟩ := List.forall_mem_cons.mp hclosed
      obtain ⟨hgap, hspelled, hrest⟩ := h
      have hbehind := halike.preceded (textOf pieces)
      exact ⟨hgap.beginsAlike (hbehind.preceded _), hspelled.beginsAlike hp hbehind,
        ih hrest hpieces⟩

/-- Only the last lexeme of a text can be left open. -/
theorem Fits.closed {pieces : List Piece} {last : List Char} (h : Fits pieces last)
    (hends : last = [] → ¬ EndsOpen (String.ofList (textOf pieces))) :
    ∀ p ∈ pieces, ¬ LeftOpen p.spelled := by
  intro p hp hopen
  obtain ⟨before, after, rfl⟩ := List.append_of_mem hp
  obtain ⟨hbefore, hgap, hspelled, -⟩ := (fits_append_iff ..).mp h
  have hnil := hspelled.eq_nil_of_leftOpen hopen
  obtain ⟨hafter, hlast⟩ := List.append_eq_nil_iff.mp hnil
  rw [textOf_cons, List.append_assoc, hnil, List.append_nil] at hbefore
  rw [hnil, List.append_nil] at hgap
  refine hends hlast ⟨before, p.gap, p.spelled, ?_, hbefore, hgap, hopen⟩
  rw [String.toList_ofList, textOf_append, textOf_cons, hafter, List.append_nil]
  rfl

/-- Quoted text that is left open is the last token. -/
theorem EndsOpen.getLast? {source : String} (h : EndsOpen source) :
    ∃ ts content line, tokens source = .ok (ts ++ [⟨.text content, line⟩]) := by
  obtain ⟨pieces, gap, spelled, htext, hfits, hgap, q, content, hq, hcontent, rfl⟩ := h
  have hspelled : Spelled (.text (String.ofList content)) (q :: content) [] := .unclosed hq hcontent
  have hread := tokensFrom_spelled (1 + (textOf pieces).count '\n') (by simpa using hgap) hspelled
  rw [List.append_nil, tokensFrom_gap .nil] at hread
  refine ⟨tokensOf 1 pieces, String.ofList content,
    1 + (textOf pieces).count '\n' + gap.count '\n', ?_⟩
  rw [tokens, htext, tokensFrom_pieces hfits, hread]
  rfl

/-! ## Lines counted from further down -/

def Token.lowered (n : Nat) (t : Token) : Token :=
  { t with line := t.line + n }

def UnknownCharacter.lowered (n : Nat) (e : UnknownCharacter) : UnknownCharacter :=
  { e with line := e.line + n }

/-- The answer on a text that stands `n` lines further down. -/
def loweredAnswer (n : Nat) :
    Except UnknownCharacter (List Token) → Except UnknownCharacter (List Token)
  | .ok ts => .ok (ts.map (Token.lowered n))
  | .error e => .error (e.lowered n)

theorem tokensOf_lowered (line n : Nat) (pieces : List Piece) :
    tokensOf (line + n) pieces = (tokensOf line pieces).map (Token.lowered n) := by
  induction pieces generalizing line with
  | nil => rfl
  | cons p pieces ih =>
      rw [tokensOf_cons, tokensOf_cons, List.map_cons, ← ih, Token.lowered,
        Nat.add_right_comm line n, Nat.add_right_comm line n]

theorem tokensFrom_lowered (line n : Nat) (cs : List Char) :
    tokensFrom (line + n) cs = loweredAnswer n (tokensFrom line cs) := by
  obtain ⟨pieces, after, rfl, hfits, hlast | ⟨last, c, rest, rfl, hlast, hc⟩⟩ := exists_pieces cs
  · rw [tokensFrom_cut hfits hlast, tokensFrom_cut hfits hlast, tokensOf_lowered]
    rfl
  · rw [tokensFrom_cut_unknown hfits hlast hc, tokensFrom_cut_unknown hfits hlast hc]
    simp only [loweredAnswer, UnknownCharacter.lowered, Nat.add_right_comm line n]

theorem toList_newLine (a b : String) :
    (a ++ "\n" ++ b).toList = a.toList ++ '\n' :: b.toList := by
  simp

/-- A text below another one does not change what the first is refused for, and if the first is
read and leaves no quoted text open, the second is read as it would be alone, with all its lines
further down by the number of lines above it. -/
theorem tokens_newLine (a b : String) :
    (∀ e, tokens a = .error e → tokens (a ++ "\n" ++ b) = .error e) ∧
      ∀ ts, tokens a = .ok ts → ¬ EndsOpen a →
        tokens (a ++ "\n" ++ b) =
          (loweredAnswer (1 + a.toList.count '\n') (tokens b)).map (ts ++ ·) := by
  constructor
  · rintro ⟨c, line⟩ herror
    obtain ⟨pieces, last, rest, ha, hfits, hlast, hc, hline⟩ := exists_cut_of_error herror
    simp only at ha hfits hlast hc hline
    have hwhole : a.toList ++ '\n' :: b.toList =
        textOf pieces ++ (last ++ c :: (rest ++ '\n' :: b.toList)) := by
      simp [ha]
    have halike := BeginsAlike.followed c rest ('\n' :: b.toList)
    have hclosed := hfits.closed (by simp)
    rw [tokens, toList_newLine, hwhole, tokensFrom_cut_unknown
      (hfits.beginsAlike hclosed (halike.preceded last)) (hlast.beginsAlike halike) hc, hline]
  · intro ts hts hends
    obtain ⟨pieces, last, ha, hfits, hlast, rfl⟩ := exists_cut_of_ok hts
    have hwhole : a.toList ++ '\n' :: b.toList =
        textOf pieces ++ (last ++ '\n' :: b.toList) := by
      simp [ha]
    have halike := BeginsAlike.newLine [] b.toList
    have hclosed := hfits.closed fun hnil ↦ by
      rwa [← List.append_nil (textOf pieces), ← hnil, ← ha, String.ofList_toList]
    have hbehind : BeginsAlike last (last ++ '\n' :: b.toList) := by
      simpa using halike.preceded last
    have hfits' := hfits.beginsAlike hclosed hbehind
    have hbreak : Gap ['\n'] b.toList := .blank (by decide) .nil
    have hskip := tokensFrom_skip (hlast.beginsAlike halike) (1 + (textOf pieces).count '\n')
    rw [← List.singleton_append, tokensFrom_skip hbreak] at hskip
    have hlines : 1 + (textOf pieces).count '\n' + last.count '\n' + ['\n'].count '\n' =
        1 + (1 + a.toList.count '\n') := by
      rw [ha, List.count_append, List.count_singleton_self]
      omega
    rw [tokens, toList_newLine, hwhole, tokensFrom_pieces hfits', ← List.singleton_append, hskip,
      hlines, tokensFrom_lowered, tokens]

theorem tokens_newLine_belowComment :
    (tokens "a\n  # b" = .error ⟨'#', 2⟩ ∧
      tokens ("a\n  # b" ++ "\n" ++ "'c") = .error ⟨'#', 2⟩) ∧
    tokens "set 'x'\nis y // don't" =
      .ok [⟨.word "set", 1⟩, ⟨.text "x", 1⟩, ⟨.word "is", 2⟩, ⟨.word "y", 2⟩] ∧
    ¬ EndsOpen "set 'x'\nis y // don't" ∧
    tokens ("set 'x'\nis y // don't" ++ "\n" ++ "\"b\nc\" 'd") =
      .ok [⟨.word "set", 1⟩, ⟨.text "x", 1⟩, ⟨.word "is", 2⟩, ⟨.word "y", 2⟩,
        ⟨.text "b\nc", 3⟩, ⟨.text "d", 4⟩] := by
  have hrefused : tokens "a\n  # b" = .error ⟨'#', 2⟩ := by decide +kernel
  have habove : tokens "set 'x'\nis y // don't" =
      .ok [⟨.word "set", 1⟩, ⟨.text "x", 1⟩, ⟨.word "is", 2⟩, ⟨.word "y", 2⟩] := by
    decide +kernel
  have hbelow : tokens "\"b\nc\" 'd" = .ok [⟨.text "b\nc", 1⟩, ⟨.text "d", 2⟩] := by
    decide +kernel
  have hends : ¬ EndsOpen "set 'x'\nis y // don't" := by
    intro hopen
    obtain ⟨ts, content, line, hread⟩ := hopen.getLast?
    rw [habove, Except.ok.injEq] at hread
    have hlast := congrArg List.getLast? hread
    rw [List.getLast?_concat] at hlast
    cases hlast
  refine ⟨⟨hrefused, (tokens_newLine _ _).1 _ hrefused⟩, habove, hends, ?_⟩
  rw [(tokens_newLine _ _).2 _ habove hends, hbelow]
  decide +kernel

end VexLang
