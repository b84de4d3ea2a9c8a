import VexLang.Text.Blank
import VexLang.Token

/-!
# Reading tokens from text

Between two lexemes there may be a gap of blanks and comments; a comment runs
from two slashes to the end of its line. `splitGap` takes the gap a text begins
with and `read?` the lexeme after it. Each loses nothing, and a lexeme is never
empty, so the text is used up after finitely many steps.
-/

namespace VexLang

/-- A character with which no lexeme can start. -/
structure UnknownCharacter where
  character : Char
  line : Nat
  deriving DecidableEq, Repr

/-- The report on a character with which no lexeme can start. -/
def UnknownCharacter.message (e : UnknownCharacter) : String :=
  "[SyntaxError] Unknown character '" ++ String.singleton e.character ++ "' at line "
    ++ Nat.repr e.line

def symbols : List Char :=
  ['(', ')', '\x7b', '\x7d', ',', '>', '<', '.', '+', '-', '*', '/', '!', ':', '=', '[', ']']

/-- Both kinds of quote open a text, which the same kind closes. -/
def isQuote (c : Char) : Bool :=
  c == '"' || c == '\''

def isNumberPart (c : Char) : Bool :=
  c.isDigit || c == '.'

def isWordStart (c : Char) : Bool :=
  c.isAlpha || c == '_'

def isWordPart (c : Char) : Bool :=
  c.isAlphanum || c == '_' || c == '!' || c == ':'

/-- Splits a text after the gap it begins with. Inside a comment only the end of the
line ends it. -/
def splitGap (inComment : Bool) : List Char → List Char × List Char
  | [] => ([], [])
  | c :: cs =>
    let skip (stay : Bool) :=
      let (gap, rest) := splitGap stay cs
      (c :: gap, rest)
    if inComment then skip (c != '\n')
    else if isBlank c then skip false
    else if c = '/' ∧ cs.head? = some '/' then skip true
    else ([], c :: cs)

theorem splitGap_append (inComment : Bool) (cs : List Char) :
    (splitGap inComment cs).1 ++ (splitGap inComment cs).2 = cs := by
  induction cs generalizing inComment with
  | nil => rfl
  | cons c cs ih =>
      simp only [splitGap]
      split
      · simp [ih]
      · split
        · simp [ih]
        · split <;> simp [ih]

theorem length_splitGap_le (inComment : Bool) (cs : List Char) :
    (splitGap inComment cs).2.length ≤ cs.length := by
  have h := congrArg List.length (splitGap_append inComment cs)
  rw [List.length_append] at h
  omega

/-- A lexeme, the characters that spell it and the text after them. -/
structure Reading where
  lexeme : Lexeme
  spelled : List Char
  rest : List Char
  deriving DecidableEq, Repr

/-- Reads quoted text whose opening quote has been taken. The text ends at the next
quote of the same kind, or else at the end of the input. -/
def readText (opening : Char) (cs : List Char) : Reading :=
  let content := cs.takeWhile (· != opening)
  match cs.dropWhile (· != opening) with
  | [] => ⟨.text (String.ofList content), opening :: content, []⟩
  | closing :: rest => ⟨.text (String.ofList content), opening :: content ++ [closing], rest⟩

/-- Reads the longest run of characters of one class after its first character. -/
def readRun (build : String → Lexeme) (part : Char → Bool) (first : Char) (cs : List Char) :
    Reading :=
  let run := first :: cs.takeWhile part
  ⟨build (String.ofList run), run, cs.dropWhile part⟩

/-- Reads the lexeme that starts with the character `first`, followed by `cs`. -/
def read? (first : Char) (cs : List Char) : Option Reading :=
  if isQuote first then some (readText first cs)
  else if first.isDigit then some (readRun .number isNumberPart first cs)
  else if isWordStart first then some (readRun .ofWord isWordPart first cs)
  else if first ∈ symbols then some ⟨.symbol first, [first], cs⟩
  else none

theorem readText_append (opening : Char) (cs : List Char) :
    (readText opening cs).spelled ++ (readText opening cs).rest = opening :: cs := by
  have h := List.takeWhile_append_dropWhile (p := (· != opening)) (l := cs)
  unfold readText
  split
  case h_1 hd => rw [hd] at h; simpa using h
  case h_2 closing rest hd => rw [hd] at h; simpa using h

theorem readRun_append (build : String → Lexeme) (part : Char → Bool) (first : Char)
    (cs : List Char) :
    (readRun build part first cs).spelled ++ (readRun build part first cs).rest = first :: cs := by
  simp [readRun]

/-- Reading loses no character. -/
theorem read?_append {first : Char} {cs : List Char} {r : Reading} (h : read? first cs = some r) :
    r.spelled ++ r.rest = first :: cs := by
  unfold read? at h
  split at h
  · cases h; exact readText_append first cs
  · split at h
    · cases h; exact readRun_append ..
    · split at h
      · cases h; exact readRun_append ..
      · split at h
        · cases h; rfl
        · cases h

theorem read?_spelled_ne_nil {first : Char} {cs : List Char} {r : Reading}
    (h : read? first cs = some r) : r.spelled ≠ [] := by
  unfold read? at h
  split at h
  · cases h; unfold readText; split <;> simp
  · split at h
    · cases h; simp [readRun]
    · split at h
      · cases h; simp [readRun]
      · split at h <;> cases h; simp

/-- Every lexeme takes at least one character. -/
theorem length_rest_le {first : Char} {cs : List Char} {r : Reading}
    (h : read? first cs = some r) : r.rest.length ≤ cs.length := by
  have happend := congrArg List.length (read?_append h)
  have hpos := List.length_pos_iff.mpr (read?_spelled_ne_nil h)
  rw [List.length_append, List.length_cons] at happend
  omega

theorem length_rest_lt {cs gap body : List Char} {first : Char} {r : Reading}
    (hgap : splitGap false cs = (gap, first :: body)) (hread : read? first body = some r) :
    r.rest.length < cs.length := by
  have hbody := length_splitGap_le false cs
  have hrest := length_rest_le hread
  rw [hgap, List.length_cons] at hbody
  omega

/-- Reads the tokens of a text whose first character stands on the given line. -/
def tokensFrom (line : Nat) (cs : List Char) : Except UnknownCharacter (List Token) :=
  match hgap : splitGap false cs with
  | (_, []) => .ok []
  | (gap, first :: body) =>
    let start := line + gap.count '\n'
    match hread : read? first body with
    | none => .error ⟨first, start⟩
    | some r =>
      have : r.rest.length < cs.length := length_rest_lt hgap hread
      match tokensFrom (start + r.spelled.count '\n') r.rest with
      | .ok tokens => .ok (⟨r.lexeme, start⟩ :: tokens)
      | .error e => .error e
termination_by cs.length

/-- The tokens of a source text, or the first character that starts none. -/
def tokens (source : String) : Except UnknownCharacter (List Token) :=
  tokensFrom 1 source.toList

end VexLang
