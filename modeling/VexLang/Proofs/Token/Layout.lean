import Mathlib
import VexLang.Token.Lexer

/-!
# Texts cut into gaps and lexemes

A text is cut into lexemes with a gap before each of them and a last gap behind them. What
a gap is and how a lexeme is spelled is said here without the reader, and reading finds
just this cut: a text has the tokens of any cut of it, and a text that is refused can be cut
up to a character with which no lexeme starts.
-/

namespace VexLang

/-! ## Gaps -/

/-- Blanks and comments in front of a text. A comment goes up to the end of its line, or up
to the end of the whole text. -/
inductive Gap : List Char → List Char → Prop
  | nil {rest : List Char} : Gap [] rest
  | blank {c : Char} {gap rest : List Char} (hc : isBlank c = true) (h : Gap gap rest) :
      Gap (c :: gap) rest
  | comment {body gap rest : List Char} (hbody : '\n' ∉ body)
      (hend : ∀ c ∈ (gap ++ rest).head?, c = '\n') (h : Gap gap rest) :
      Gap ('/' :: '/' :: body ++ gap) rest

theorem splitGap_blank {c : Char} (hc : isBlank c = true) (cs : List Char) :
    splitGap false (c :: cs) = (c :: (splitGap false cs).1, (splitGap false cs).2) := by
  simp [splitGap, hc]

theorem splitGap_of_start {c : Char} {cs : List Char} (hc : isBlank c = false)
    (hcomment : ¬(c = '/' ∧ cs.head? = some '/')) :
    splitGap false (c :: cs) = ([], c :: cs) := by
  simp [splitGap, hc, hcomment]

theorem splitGap_slash {cs : List Char} (hcs : cs.head? = some '/') :
    splitGap false ('/' :: cs) = ('/' :: (splitGap true cs).1, (splitGap true cs).2) := by
  have hslash : isBlank '/' = false := by decide
  simp [splitGap, hslash, hcs]

theorem splitGap_inComment {c : Char} (hc : c ≠ '\n') (cs : List Char) :
    splitGap true (c :: cs) = (c :: (splitGap true cs).1, (splitGap true cs).2) := by
  have hstay : (c != '\n') = true := by simpa using hc
  simp [splitGap, hstay]

theorem splitGap_lineEnd {cs : List Char} (h : ∀ c ∈ cs.head?, c = '\n') :
    splitGap true cs = splitGap false cs := by
  cases cs with
  | nil => rfl
  | cons c cs =>
      obtain rfl : c = '\n' := h c rfl
      rw [splitGap_blank (by decide)]
      simp [splitGap]

theorem splitGap_body {body : List Char} (hbody : '\n' ∉ body) {cs : List Char}
    (h : ∀ c ∈ cs.head?, c = '\n') :
    splitGap true (body ++ cs) = (body ++ (splitGap false cs).1, (splitGap false cs).2) := by
  induction body with
  | nil => exact splitGap_lineEnd h
  | cons c body ih =>
      obtain ⟨hc, hbody⟩ := List.ne_and_not_mem_of_not_mem_cons hbody
      rw [List.cons_append, splitGap_inComment (Ne.symm hc), ih hbody]
      rfl

/-- What is skipped from inside a comment is the rest of the comment and a gap. -/
def CommentGap (skipped rest : List Char) : Prop :=
  ∃ body gap, skipped = body ++ gap ∧ '\n' ∉ body ∧ (∀ c ∈ (gap ++ rest).head?, c = '\n') ∧
    Gap gap rest

theorem gap_splitGap (cs : List Char) :
    Gap (splitGap false cs).1 (splitGap false cs).2 ∧
      CommentGap (splitGap true cs).1 (splitGap true cs).2 := by
  -- both states of the reader at once: a comment inside a gap is read by the other state
  induction cs with
  | nil => exact ⟨.nil, [], [], rfl, List.not_mem_nil, nofun, .nil⟩
  | cons c cs ih =>
      obtain ⟨hgap, body, gap, hskipped, hbody, hend, hrest⟩ := ih
      constructor
      · by_cases hc : isBlank c = true
        · rw [splitGap_blank hc]
          exact .blank hc hgap
        · by_cases hcomment : c = '/' ∧ cs.head? = some '/'
          · obtain ⟨rfl, hcs⟩ := hcomment
            have hwhole : body ++ (gap ++ (splitGap true cs).2) = cs := by
              rw [← List.append_assoc, ← hskipped, splitGap_append]
            -- the second slash belongs to what is skipped inside the comment
            cases body with
            | nil =>
                rw [List.nil_append] at hwhole
                rw [hwhole] at hend
                exact absurd (hend '/' hcs) (by decide)
            | cons d body =>
                obtain rfl : d = '/' := by
                  rw [← hwhole, List.cons_append, List.head?_cons] at hcs
                  exact Option.some.inj hcs
                rw [splitGap_slash hcs, hskipped]
                exact .comment (List.not_mem_of_not_mem_cons hbody) hend hrest
          · rw [splitGap_of_start (by simpa using hc) hcomment]
            exact .nil
      · by_cases hc : c = '\n'
        · subst hc
          have hblank : isBlank '\n' = true := by decide
          rw [splitGap_lineEnd (by simp), splitGap_blank hblank]
          exact ⟨[], _, rfl, List.not_mem_nil, by simp, .blank hblank hgap⟩
        · rw [splitGap_inComment hc]
          refine ⟨c :: body, gap, by rw [hskipped, List.cons_append], ?_, hend, hrest⟩
          exact List.not_mem_cons_of_ne_of_not_mem (Ne.symm hc) hbody

/-- No gap starts where a gap ends. -/
theorem splitGap_start {inComment : Bool} {cs body : List Char} {first : Char}
    (h : (splitGap inComment cs).2 = first :: body) :
    isBlank first = false ∧ ¬(first = '/' ∧ body.head? = some '/') := by
  induction cs generalizing inComment with
  | nil => cases h
  | cons c cs ih =>
      simp only [splitGap] at h
      split at h
      · exact ih h
      · split at h
        · exact ih h
        · split at h
          · exact ih h
          · rename_i hblank hcomment
            obtain ⟨rfl, rfl⟩ := List.cons.inj h
            exact ⟨by simpa using hblank, hcomment⟩

/-- A gap is skipped together with the gap that the text behind it begins with. -/
theorem Gap.splitGap_append {gap rest : List Char} (h : Gap gap rest) :
    splitGap false (gap ++ rest) = (gap ++ (splitGap false rest).1, (splitGap false rest).2) := by
  induction h with
  | nil => rfl
  | blank hc _ ih => rw [List.cons_append, splitGap_blank hc, ih, List.cons_append]
  | @comment body gap rest hbody hend _ ih =>
      have hslash : '\n' ∉ '/' :: body :=
        List.not_mem_cons_of_ne_of_not_mem (by decide) hbody
      have hcomment := splitGap_body hslash hend
      rw [ih] at hcomment
      have hwhole : '/' :: '/' :: body ++ gap ++ rest = '/' :: ('/' :: body ++ (gap ++ rest)) := by
        simp
      rw [hwhole, splitGap_slash rfl, hcomment]
      simp

/-- A gap is skipped as a whole if no further gap follows it. -/
theorem Gap.splitGap_eq {gap rest : List Char} (h : Gap gap rest)
    (hrest : splitGap false rest = ([], rest)) : splitGap false (gap ++ rest) = (gap, rest) := by
  rw [h.splitGap_append, hrest, List.append_nil]

/-! ## Lexemes -/

/-- The characters spell the lexeme in front of a text. Quoted text that is not closed is the
last thing in the text; a number or a word ends where nothing can continue it. -/
inductive Spelled : Lexeme → List Char → List Char → Prop
  | text {q : Char} {content rest : List Char} (hq : isQuote q = true) (hcontent : q ∉ content) :
      Spelled (.text (String.ofList content)) (q :: content ++ [q]) rest
  | unclosed {q : Char} {content : List Char} (hq : isQuote q = true) (hcontent : q ∉ content) :
      Spelled (.text (String.ofList content)) (q :: content) []
  | number {first : Char} {more rest : List Char} (hfirst : first.isDigit = true)
      (hmore : ∀ c ∈ more, isNumberPart c = true)
      (hend : ∀ c ∈ rest.head?, isNumberPart c = false) :
      Spelled (.number (String.ofList (first :: more))) (first :: more) rest
  | word {first : Char} {more rest : List Char} (hfirst : isWordStart first = true)
      (hmore : ∀ c ∈ more, isWordPart c = true) (hend : ∀ c ∈ rest.head?, isWordPart c = false) :
      Spelled (.ofWord (String.ofList (first :: more))) (first :: more) rest
  | symbol {c : Char} {rest : List Char} (hc : c ∈ symbols)
      (hcomment : ¬(c = '/' ∧ rest.head? = some '/')) : Spelled (.symbol c) [c] rest

theorem eq_false_of_dropWhile (p : Char → Bool) (cs : List Char) :
    ∀ c ∈ (cs.dropWhile p).head?, p c = false := by
  intro c hc
  have hnot := List.head?_dropWhile_not p cs
  rw [Option.mem_def.mp hc] at hnot
  simpa using hnot

theorem readRun_spelled {build : String → Lexeme} {part : Char → Bool} (first : Char)
    (cs : List Char) :
    ∃ more rest, readRun build part first cs =
        ⟨build (String.ofList (first :: more)), first :: more, rest⟩ ∧
      (∀ c ∈ more, part c = true) ∧ ∀ c ∈ rest.head?, part c = false :=
  ⟨_, _, rfl, fun _ ↦ List.mem_takeWhile_imp, eq_false_of_dropWhile _ _⟩

theorem ne_of_mem_takeWhile {q : Char} {cs : List Char} : q ∉ cs.takeWhile (· != q) := by
  intro hmem
  have hne := List.mem_takeWhile_imp hmem
  simp at hne

theorem spelled_readText {q : Char} (hq : isQuote q = true) (cs : List Char) :
    Spelled (readText q cs).lexeme (readText q cs).spelled (readText q cs).rest := by
  unfold readText
  split
  · exact .unclosed hq ne_of_mem_takeWhile
  · rename_i closing rest hdrop
    have hclosing := eq_false_of_dropWhile (· != q) cs closing (by rw [hdrop]; rfl)
    obtain rfl : closing = q := by simpa using hclosing
    exact .text hq ne_of_mem_takeWhile

theorem spelled_of_read? {first : Char} {cs : List Char} {r : Reading}
    (hcomment : ¬(first = '/' ∧ cs.head? = some '/')) (h : read? first cs = some r) :
    Spelled r.lexeme r.spelled r.rest := by
  unfold read? at h
  split at h
  · rename_i hquote
    obtain rfl := Option.some.inj h
    exact spelled_readText hquote cs
  · split at h
    · rename_i hdigit
      obtain rfl := Option.some.inj h
      obtain ⟨more, rest, hrun, hmore, hend⟩ := readRun_spelled first cs
      rw [hrun]
      exact .number hdigit hmore hend
    · split at h
      · rename_i hword
        obtain rfl := Option.some.inj h
        obtain ⟨more, rest, hrun, hmore, hend⟩ := readRun_spelled first cs
        rw [hrun]
        exact .word hword hmore hend
      · split at h
        · rename_i hsymbol
          obtain rfl := Option.some.inj h
          exact .symbol hsymbol hcomment
        · cases h

/-- No lexeme, blank or comment starts with the character. -/
structure StartsNothing (c : Char) : Prop where
  blank : isBlank c = false
  quote : isQuote c = false
  digit : c.isDigit = false
  word : isWordStart c = false
  symbol : c ∉ symbols

theorem read?_eq_none_iff {first : Char} {cs : List Char} :
    read? first cs = none ↔ isQuote first = false ∧ first.isDigit = false ∧
      isWordStart first = false ∧ first ∉ symbols := by
  unfold read?
  split_ifs <;> simp_all

theorem toNat_of_isDigit {c : Char} (h : c.isDigit = true) : 48 ≤ c.toNat ∧ c.toNat ≤ 57 := by
  simp only [Char.isDigit, Bool.and_eq_true, decide_eq_true_eq] at h
  exact h

theorem toNat_of_isWordStart {c : Char} (h : isWordStart c = true) :
    65 ≤ c.toNat ∧ c.toNat ≤ 122 := by
  simp only [isWordStart, Char.isAlpha, Char.isUpper, Char.isLower, Bool.or_eq_true,
    Bool.and_eq_true, decide_eq_true_eq, beq_iff_eq] at h
  rcases h with (⟨hl, hu⟩ | ⟨hl, hu⟩) | rfl
  · have hl' : 65 ≤ c.toNat := hl
    have hu' : c.toNat ≤ 90 := hu
    omega
  · have hl' : 97 ≤ c.toNat := hl
    have hu' : c.toNat ≤ 122 := hu
    omega
  · decide

theorem isQuote_eq_false {c : Char} (h : 40 ≤ c.toNat) : isQuote c = false := by
  simp only [isQuote, Bool.or_eq_false_iff, beq_eq_false_iff_ne]
  constructor <;> rintro rfl <;> exact absurd h (by decide)

theorem eq_of_isQuote {c : Char} (h : isQuote c = true) : c = '"' ∨ c = '\'' := by
  simpa [isQuote] using h

theorem symbols_apart : ∀ c ∈ symbols,
    isQuote c = false ∧ c.isDigit = false ∧ isWordStart c = false ∧ isBlank c = false :=
  List.all_iff_forall_prop.mp (by decide)

theorem read?_of_isDigit {first : Char} (h : first.isDigit = true) (cs : List Char) :
    read? first cs = some (readRun .number isNumberPart first cs) := by
  have hrange := toNat_of_isDigit h
  have hquote : isQuote first = false := isQuote_eq_false (by omega)
  simp [read?, hquote, h]

theorem read?_of_isWordStart {first : Char} (h : isWordStart first = true) (cs : List Char) :
    read? first cs = some (readRun .ofWord isWordPart first cs) := by
  have hrange := toNat_of_isWordStart h
  have hquote : isQuote first = false := isQuote_eq_false (by omega)
  have hdigit : first.isDigit = false := by
    by_contra hd
    have hd' := toNat_of_isDigit (by simpa using hd)
    omega
  simp [read?, hquote, hdigit, h]

theorem span_append {p : Char → Bool} {cs rest : List Char} (hcs : ∀ c ∈ cs, p c = true)
    (hrest : ∀ c ∈ rest.head?, p c = false) :
    (cs ++ rest).takeWhile p = cs ∧ (cs ++ rest).dropWhile p = rest := by
  rw [List.takeWhile_append_of_pos hcs, List.dropWhile_append_of_pos hcs]
  cases rest with
  | nil => simp
  | cons c rest => simp [hrest c rfl]

theorem readRun_append_eq {build : String → Lexeme} {part : Char → Bool} {more rest : List Char}
    (first : Char) (hmore : ∀ c ∈ more, part c = true)
    (hend : ∀ c ∈ rest.head?, part c = false) :
    readRun build part first (more ++ rest) =
      ⟨build (String.ofList (first :: more)), first :: more, rest⟩ := by
  obtain ⟨htake, hdrop⟩ := span_append hmore hend
  simp only [readRun, htake, hdrop]

theorem read?_quoted {q : Char} (hq : isQuote q = true) (cs : List Char) :
    read? q cs = some (readText q cs) := by
  rw [read?, if_pos hq]

theorem bne_of_not_mem {q : Char} {content : List Char} (h : q ∉ content) :
    ∀ c ∈ content, (c != q) = true := by
  intro c hc
  have hne : c ≠ q := fun heq ↦ h (heq ▸ hc)
  simpa using hne

/-- The first character of a spelled lexeme belongs to no gap, and the lexeme is what is read
there. -/
theorem Spelled.read? {l : Lexeme} {spelled rest : List Char} (h : Spelled l spelled rest) :
    ∃ first body, spelled ++ rest = first :: body ∧
      splitGap false (first :: body) = ([], first :: body) ∧
      VexLang.read? first body = some ⟨l, spelled, rest⟩ := by
  have hquoted {q : Char} (hq : isQuote q = true) (cs : List Char) :
      splitGap false (q :: cs) = ([], q :: cs) := by
    apply splitGap_of_start
    · rcases eq_of_isQuote hq with rfl | rfl <;> decide
    · rintro ⟨rfl, -⟩
      exact absurd hq (by decide)
  cases h with
  | @text q content rest hq hcontent =>
      refine ⟨q, content ++ q :: rest, by simp, hquoted hq _, ?_⟩
      have hend : ∀ c ∈ (q :: rest).head?, (c != q) = false := by simp
      obtain ⟨htake, hdrop⟩ := span_append (bne_of_not_mem hcontent) hend
      rw [read?_quoted hq, readText, htake, hdrop]
  | @unclosed q content hq hcontent =>
      refine ⟨q, content, by simp, hquoted hq _, ?_⟩
      have hend : ∀ c ∈ [].head?, (c != q) = false := nofun
      obtain ⟨htake, hdrop⟩ := span_append (bne_of_not_mem hcontent) hend
      rw [List.append_nil] at htake hdrop
      rw [read?_quoted hq, readText, htake, hdrop]
  | @number first more rest hfirst hmore hend =>
      have hrange := toNat_of_isDigit hfirst
      refine ⟨first, more ++ rest, rfl, splitGap_of_start ?_ ?_, ?_⟩
      · exact isBlank_eq_false (by omega) (by omega)
      · rintro ⟨rfl, -⟩
        exact absurd hfirst (by decide)
      · rw [read?_of_isDigit hfirst, readRun_append_eq first hmore hend]
  | @word first more rest hfirst hmore hend =>
      have hrange := toNat_of_isWordStart hfirst
      refine ⟨first, more ++ rest, rfl, splitGap_of_start ?_ ?_, ?_⟩
      · exact isBlank_eq_false (by omega) (by omega)
      · rintro ⟨rfl, -⟩
        exact absurd hfirst (by decide)
      · rw [read?_of_isWordStart hfirst, readRun_append_eq first hmore hend]
  | @symbol c rest hc hcomment =>
      obtain ⟨hquote, hdigit, hword, hblank⟩ := symbols_apart c hc
      refine ⟨c, rest, rfl, splitGap_of_start hblank hcomment, ?_⟩
      simp [VexLang.read?, hquote, hdigit, hword, hc]

/-! ## Reading, step by step -/

/-- Reading a text is: drop a gap, read a lexeme, read the text after it. -/
theorem tokensFrom_eq (line : Nat) (cs : List Char) :
    tokensFrom line cs =
      match splitGap false cs with
      | (_, []) => .ok []
      | (gap, first :: body) =>
        match read? first body with
        | none => .error ⟨first, line + gap.count '\n'⟩
        | some r =>
          (tokensFrom (line + gap.count '\n' + r.spelled.count '\n') r.rest).map
            (⟨r.lexeme, line + gap.count '\n'⟩ :: ·) := by
  rw [tokensFrom]
  split
  case h_1 hgap => rw [hgap]
  case h_2 gap first body hgap =>
    conv => rhs; rw [hgap]
    simp only
    split
    case h_1 hread => rw [hread]
    case h_2 r hread =>
      conv => rhs; rw [hread]
      simp only
      cases tokensFrom (line + gap.count '\n' + r.spelled.count '\n') r.rest <;> rfl

/-- A gap only moves the count of lines. -/
theorem tokensFrom_skip {gap rest : List Char} (h : Gap gap rest) (line : Nat) :
    tokensFrom line (gap ++ rest) = tokensFrom (line + gap.count '\n') rest := by
  rw [tokensFrom_eq, tokensFrom_eq (line + _), h.splitGap_append]
  rcases splitGap false rest with ⟨more, _ | ⟨first, body⟩⟩
  · rfl
  · simp only
    rw [List.count_append, Nat.add_assoc]

theorem tokensFrom_gap {gap : List Char} (h : Gap gap []) (line : Nat) :
    tokensFrom line gap = .ok [] := by
  have hsplit := h.splitGap_eq rfl
  rw [List.append_nil] at hsplit
  rw [tokensFrom_eq, hsplit]

theorem tokensFrom_spelled {l : Lexeme} {gap spelled rest : List Char} (line : Nat)
    (hgap : Gap gap (spelled ++ rest)) (hspelled : Spelled l spelled rest) :
    tokensFrom line (gap ++ spelled ++ rest) =
      (tokensFrom (line + (gap ++ spelled).count '\n') rest).map
        (⟨l, line + gap.count '\n'⟩ :: ·) := by
  obtain ⟨first, body, hbody, hstart, hread⟩ := hspelled.read?
  rw [hbody] at hgap
  have hsplit := hgap.splitGap_eq hstart
  rw [List.append_assoc, hbody, tokensFrom_eq, hsplit]
  simp only [hread]
  rw [List.count_append, Nat.add_assoc]

theorem tokensFrom_unknown {c : Char} (hc : StartsNothing c) {gap rest : List Char} (line : Nat)
    (hgap : Gap gap (c :: rest)) :
    tokensFrom line (gap ++ c :: rest) = .error ⟨c, line + gap.count '\n'⟩ := by
  have hslash : ¬(c = '/' ∧ rest.head? = some '/') := by
    rintro ⟨rfl, -⟩
    exact absurd hc.symbol (by decide)
  have hread : read? c rest = none :=
    read?_eq_none_iff.mpr ⟨hc.quote, hc.digit, hc.word, hc.symbol⟩
  rw [tokensFrom_eq, hgap.splitGap_eq (splitGap_of_start hc.blank hslash)]
  simp only [hread]

/-- A text starts with a gap, and then ends, goes on with a lexeme, or cannot be read. -/
theorem exists_first_piece (cs : List Char) :
    Gap cs [] ∨
      (∃ gap c rest, cs = gap ++ c :: rest ∧ Gap gap (c :: rest) ∧ StartsNothing c) ∨
      ∃ gap l spelled rest, cs = gap ++ spelled ++ rest ∧ Gap gap (spelled ++ rest) ∧
        Spelled l spelled rest ∧ rest.length < cs.length := by
  have hgap := (gap_splitGap cs).1
  have happend := splitGap_append false cs
  cases hsplit : splitGap false cs with
  | mk gap after =>
      rw [hsplit] at hgap happend
      cases after with
      | nil =>
          rw [List.append_nil] at happend
          exact .inl (happend ▸ hgap)
      | cons first body =>
          obtain ⟨hblank, hcomment⟩ := splitGap_start (congrArg Prod.snd hsplit)
          cases hread : read? first body with
          | none =>
              obtain ⟨hquote, hdigit, hword, hsymbol⟩ := read?_eq_none_iff.mp hread
              exact .inr (.inl ⟨gap, first, body, happend.symm, hgap, hblank, hquote, hdigit, hword,
                hsymbol⟩)
          | some r =>
              have hspelled := read?_append hread
              refine .inr (.inr ⟨gap, r.lexeme, r.spelled, r.rest, ?_, ?_, ?_, ?_⟩)
              · rw [List.append_assoc, hspelled, happend]
              · rwa [hspelled]
              · exact spelled_of_read? hcomment hread
              · exact length_rest_lt hsplit hread

/-! ## Pieces -/

/-- A gap and the lexeme behind it. -/
structure Piece where
  gap : List Char
  lexeme : Lexeme
  spelled : List Char

def Piece.text (p : Piece) : List Char :=
  p.gap ++ p.spelled

def textOf (pieces : List Piece) : List Char :=
  pieces.flatMap Piece.text

/-- Every gap is one, and every lexeme is spelled, in front of all that follows. -/
def Fits : List Piece → List Char → Prop
  | [], _ => True
  | p :: pieces, rest =>
    Gap p.gap (p.spelled ++ (textOf pieces ++ rest)) ∧
      Spelled p.lexeme p.spelled (textOf pieces ++ rest) ∧ Fits pieces rest

theorem Fits.spelled {pieces : List Piece} {rest : List Char} (h : Fits pieces rest) {p : Piece}
    (hp : p ∈ pieces) : ∃ after, Spelled p.lexeme p.spelled after := by
  induction pieces with
  | nil => cases hp
  | cons q pieces ih =>
      obtain ⟨-, hq, hpieces⟩ := h
      rcases List.mem_cons.mp hp with rfl | hp
      · exact ⟨_, hq⟩
      · exact ih hpieces hp

/-- The tokens of the pieces. A token stands on the line to which the line breaks in front of
its lexeme lead. -/
def tokensOf (line : Nat) (pieces : List Piece) : List Token :=
  pieces.mapIdx fun i p ↦ ⟨p.lexeme, line + (textOf (pieces.take i) ++ p.gap).count '\n'⟩

theorem textOf_cons (p : Piece) (pieces : List Piece) :
    textOf (p :: pieces) = p.text ++ textOf pieces := rfl

theorem tokensOf_cons (line : Nat) (p : Piece) (pieces : List Piece) :
    tokensOf line (p :: pieces) =
      ⟨p.lexeme, line + p.gap.count '\n'⟩ :: tokensOf (line + p.text.count '\n') pieces := by
  have hline (gap : List Char) (before : List Piece) :
      line + (textOf (p :: before) ++ gap).count '\n' =
        line + p.text.count '\n' + (textOf before ++ gap).count '\n' := by
    rw [textOf_cons, List.append_assoc, List.count_append, Nat.add_assoc]
  simp only [tokensOf, List.mapIdx_cons, List.take_zero, List.take_succ_cons, hline]
  rfl

theorem tokensFrom_pieces {pieces : List Piece} {rest : List Char} (h : Fits pieces rest)
    (line : Nat) :
    tokensFrom line (textOf pieces ++ rest) =
      (tokensFrom (line + (textOf pieces).count '\n') rest).map (tokensOf line pieces ++ ·) := by
  induction pieces generalizing line with
  | nil =>
      change tokensFrom line rest = (tokensFrom line rest).map id
      cases tokensFrom line rest <;> rfl
  | cons p pieces ih =>
      obtain ⟨hgap, hspelled, hrest⟩ := h
      have hread := tokensFrom_spelled line hgap hspelled
      rw [← Piece.text, ih hrest] at hread
      rw [textOf_cons, List.append_assoc, List.count_append, ← Nat.add_assoc, tokensOf_cons, hread]
      cases tokensFrom (line + p.text.count '\n' + (textOf pieces).count '\n') rest <;> rfl

/-- Every text can be cut up to its end, or up to a character that cannot be read. -/
theorem exists_pieces (cs : List Char) :
    ∃ pieces after, cs = textOf pieces ++ after ∧ Fits pieces after ∧
      (Gap after [] ∨
        ∃ gap c rest, after = gap ++ c :: rest ∧ Gap gap (c :: rest) ∧ StartsNothing c) := by
  -- on the length: what follows the first piece is shorter
  induction hlen : cs.length using Nat.strongRecOn generalizing cs with
  | _ n ih =>
      rcases exists_first_piece cs with
        hgap | hunknown | ⟨gap, l, spelled, rest, rfl, hgap, hl, hlt⟩
      · exact ⟨[], cs, rfl, trivial, .inl hgap⟩
      · exact ⟨[], cs, rfl, trivial, .inr hunknown⟩
      · obtain ⟨pieces, after, rfl, hfits, hafter⟩ := ih _ (hlen ▸ hlt) rest rfl
        refine ⟨⟨gap, l, spelled⟩ :: pieces, after, ?_, ⟨hgap, hl, hfits⟩, hafter⟩
        rw [textOf_cons, Piece.text, List.append_assoc _ _ after]

theorem tokensFrom_cut {pieces : List Piece} {last : List Char} (hfits : Fits pieces last)
    (hlast : Gap last []) (line : Nat) :
    tokensFrom line (textOf pieces ++ last) = .ok (tokensOf line pieces) := by
  rw [tokensFrom_pieces hfits, tokensFrom_gap hlast]
  simp [Except.map]

theorem tokensFrom_cut_unknown {pieces : List Piece} {c : Char} {last rest : List Char}
    (hfits : Fits pieces (last ++ c :: rest)) (hlast : Gap last (c :: rest))
    (hc : StartsNothing c) (line : Nat) :
    tokensFrom line (textOf pieces ++ (last ++ c :: rest)) =
      .error ⟨c, line + (textOf pieces ++ last).count '\n'⟩ := by
  rw [tokensFrom_pieces hfits, tokensFrom_unknown hc _ hlast, List.count_append, Nat.add_assoc]
  rfl

theorem exists_cut_of_ok {line : Nat} {cs : List Char} {ts : List Token}
    (h : tokensFrom line cs = .ok ts) :
    ∃ pieces last, cs = textOf pieces ++ last ∧ Fits pieces last ∧ Gap last [] ∧
      ts = tokensOf line pieces := by
  obtain ⟨pieces, after, rfl, hfits, hlast | ⟨last, c, rest, rfl, hlast, hc⟩⟩ := exists_pieces cs
  · rw [tokensFrom_cut hfits hlast] at h
    exact ⟨pieces, after, rfl, hfits, hlast, (Except.ok.inj h).symm⟩
  · rw [tokensFrom_cut_unknown hfits hlast hc] at h
    cases h

theorem exists_cut_of_error {line : Nat} {cs : List Char} {e : UnknownCharacter}
    (h : tokensFrom line cs = .error e) :
    ∃ pieces last rest, cs = textOf pieces ++ (last ++ e.character :: rest) ∧
      Fits pieces (last ++ e.character :: rest) ∧ Gap last (e.character :: rest) ∧
      StartsNothing e.character ∧ e.line = line + (textOf pieces ++ last).count '\n' := by
  obtain ⟨pieces, after, rfl, hfits, hlast | ⟨last, c, rest, rfl, hlast, hc⟩⟩ := exists_pieces cs
  · rw [tokensFrom_cut hfits hlast] at h
    cases h
  · rw [tokensFrom_cut_unknown hfits hlast hc] at h
    obtain rfl := Except.error.inj h
    exact ⟨pieces, last, rest, rfl, hfits, hlast, hc, rfl⟩

theorem spelled_of_tokens {source : String} {ts : List Token} (h : tokens source = .ok ts)
    {t : Token} (ht : t ∈ ts) : ∃ spelled rest, Spelled t.lexeme spelled rest := by
  obtain ⟨pieces, last, -, hfits, -, rfl⟩ := exists_cut_of_ok h
  obtain ⟨i, hi, rfl⟩ := List.mem_mapIdx.mp ht
  obtain ⟨rest, hspelled⟩ := hfits.spelled (List.getElem_mem hi)
  exact ⟨_, rest, hspelled⟩

/-- A text has certain tokens if and only if it can be cut into pieces with these tokens and a
gap at its end, and it is refused at a character if and only if it can be cut up to there and
nothing starts with that character, on the line that is reported. -/
theorem tokens_iff_pieces (source : String) :
    (∀ ts, tokens source = .ok ts ↔
      ∃ pieces last, source.toList = textOf pieces ++ last ∧ Fits pieces last ∧ Gap last [] ∧
        ts = tokensOf 1 pieces) ∧
    ∀ c line, tokens source = .error ⟨c, line⟩ ↔
      ∃ pieces last rest, source.toList = textOf pieces ++ (last ++ c :: rest) ∧
        Fits pieces (last ++ c :: rest) ∧ Gap last (c :: rest) ∧ StartsNothing c ∧
        line = 1 + (textOf pieces ++ last).count '\n' := by
  refine ⟨fun ts ↦ ⟨exists_cut_of_ok, ?_⟩, fun c line ↦ ⟨exists_cut_of_error, ?_⟩⟩
  · rintro ⟨pieces, last, htext, hfits, hlast, rfl⟩
    rw [tokens, htext, tokensFrom_cut hfits hlast]
  · rintro ⟨pieces, last, rest, htext, hfits, hlast, hc, rfl⟩
    rw [tokens, htext, tokensFrom_cut_unknown hfits hlast hc]

end VexLang
