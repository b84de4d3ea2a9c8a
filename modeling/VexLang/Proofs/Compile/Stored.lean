import VexLang.JavaScript.Emit
import VexLang.Proofs.Effect
import VexLang.Proofs.JavaScript.Scan
import VexLang.Run.Evaluation

/-!
# What string literals denote

A literal is read from the left, one character of the text at a time: a character stands for
itself, or an escape sequence stands for one. The literal of a text denotes that text, wherever
it stands in the code, and the literal that is compiled for a stored value denotes what the run
stores.
-/

namespace VexLang

namespace JavaScript

/-- The character that a backslash and a letter stand for. -/
def letterValue? : Char → Option Char
  | 'n' => some '\n'
  | 'r' => some '\r'
  | 't' => some '\t'
  | '\\' => some '\\'
  | '\'' => some '\''
  | '"' => some '"'
  | _ => none

def hexValue? (c : Char) : Option Nat :=
  if c.isDigit then some (c.toNat - '0'.toNat)
  else if 'a' ≤ c ∧ c ≤ 'f' then some (c.toNat - 'a'.toNat + 10)
  else if 'A' ≤ c ∧ c ≤ 'F' then some (c.toNat - 'A'.toNat + 10)
  else none

/-- The number that hexadecimal digits denote behind those that denote `n`. -/
def hexNumber? (n : Nat) : List Char → Option Nat
  | [] => some n
  | d :: ds => (hexValue? d).bind fun v ↦ hexNumber? (16 * n + v) ds

/-- The character with a code point. Surrogates are no characters. -/
def charOf? (n : Nat) : Option Char :=
  if n.isValidChar then some (Char.ofNat n) else none

/-! ## Reading literals -/

/-- Where the reading of a literal stands. -/
inductive Inside where
  | plain
  | backslash
  /-- Behind a backslash and `u`. -/
  | unicode
  /-- In the braces around a code point, with what its digits denote so far. -/
  | codePoint (value : Option Nat)
  deriving DecidableEq, Repr

/-- Puts a character in front of the text that is read. -/
def withFirst (c : Char) (r : List Char × List Char) : List Char × List Char :=
  (c :: r.1, r.2)

/-- Reads up to the closing quote of a literal. The answer is the text that is denoted and the
code behind the literal. -/
def Inside.read : Inside → List Char → Option (List Char × List Char)
  | _, [] => none
  | .plain, c :: cs =>
    if c = '"' then some ([], cs)
    else if c = '\\' then Inside.read .backslash cs
    else if c = '\n' ∨ c = '\r' then none
    else (Inside.read .plain cs).map (withFirst c)
  | .backslash, c :: cs =>
    if c = 'u' then Inside.read .unicode cs
    else (letterValue? c).bind fun d ↦ (Inside.read .plain cs).map (withFirst d)
  | .unicode, c :: cs =>
    if c = '\x7b' then Inside.read (.codePoint none) cs else none
  | .codePoint value, c :: cs =>
    if c = '\x7d' then
      (value.bind charOf?).bind fun d ↦ (Inside.read .plain cs).map (withFirst d)
    else (hexValue? c).bind fun v ↦
      Inside.read (.codePoint (some (16 * value.getD 0 + v))) cs

/-- The text that the literal at the beginning of the code denotes, and the code behind it. -/
def readLiteral? : List Char → Option (String × List Char)
  | '"' :: cs => (Inside.plain.read cs).map fun r ↦ (String.ofList r.1, r.2)
  | _ => none

/-! ## Bodies of literals -/

/-- The escape sequences, and the character that each of them stands for. -/
inductive Escapes : List Char → Char → Prop
  | letter {letter c : Char} (h : letterValue? letter = some c) : Escapes ['\\', letter] c
  | codePoint {digits : List Char} {c : Char} (hne : digits ≠ [])
      (h : hexNumber? 0 digits = some c.toNat) :
      Escapes ('\\' :: 'u' :: '\x7b' :: (digits ++ ['\x7d'])) c

/-- The body of a literal that denotes a text. Quotes and backslashes occur in it as parts of
escape sequences only, and what is not escaped is printable. -/
inductive BodyOf : List Char → List Char → Prop
  | nil : BodyOf [] []
  | plain {c : Char} {body text : List Char} (hc : isQuotable c = true) (h : BodyOf body text) :
      BodyOf (c :: body) (c :: text)
  | escaped {c : Char} {escape body text : List Char} (hc : Escapes escape c)
      (h : BodyOf body text) : BodyOf (escape ++ body) (c :: text)

theorem letterValue?_u : letterValue? 'u' = none := rfl

theorem ne_brace_of_hexValue? {d : Char} {v : Nat} (h : hexValue? d = some v) : d ≠ '\x7d' := by
  rintro rfl
  have hbrace : hexValue? '\x7d' = none := by decide
  rw [hbrace] at h
  cases h

theorem charOf?_toNat (c : Char) : charOf? c.toNat = some c := by
  have hvalid : c.toNat.isValidChar := c.valid
  rw [charOf?, if_pos hvalid, Char.ofNat_toNat]

theorem read_digits {n m : Nat} {digits : List Char} (h : hexNumber? n digits = some m)
    (cs : List Char) : Inside.read (.codePoint (some n)) (digits ++ cs) =
      Inside.read (.codePoint (some m)) cs := by
  induction digits generalizing n with
  | nil => rw [List.nil_append, Option.some.inj h]
  | cons d digits ih =>
      obtain ⟨v, hv, hdigits⟩ := Option.bind_eq_some_iff.mp h
      rw [List.cons_append, Inside.read, if_neg (ne_brace_of_hexValue? hv), hv, Option.bind_some]
      exact ih hdigits

/-- The first digit is read as behind a zero. -/
theorem read_codePoint {m : Nat} {digits : List Char} (hne : digits ≠ [])
    (h : hexNumber? 0 digits = some m) (cs : List Char) :
    Inside.read (.codePoint none) (digits ++ cs) = Inside.read (.codePoint (some m)) cs := by
  cases digits with
  | nil => exact absurd rfl hne
  | cons d digits =>
      obtain ⟨v, hv, hdigits⟩ := Option.bind_eq_some_iff.mp h
      rw [List.cons_append, Inside.read, if_neg (ne_brace_of_hexValue? hv), hv, Option.bind_some]
      exact read_digits hdigits cs

/-- An escape sequence is read as the character that it stands for. -/
theorem Escapes.read {escape : List Char} {c : Char} (h : Escapes escape c) (cs : List Char) :
    Inside.plain.read (escape ++ cs) = (Inside.plain.read cs).map (withFirst c) := by
  cases h with
  | @letter letter _ h =>
      have hu : letter ≠ 'u' := by
        rintro rfl
        rw [letterValue?_u] at h
        cases h
      change Inside.backslash.read (letter :: cs) = _
      rw [Inside.read, if_neg hu, h, Option.bind_some]
  | @codePoint digits _ hne h =>
      have hwhole : '\\' :: 'u' :: '\x7b' :: (digits ++ ['\x7d']) ++ cs =
          '\\' :: 'u' :: '\x7b' :: (digits ++ '\x7d' :: cs) := by
        simp
      rw [hwhole]
      change Inside.read (.codePoint none) (digits ++ '\x7d' :: cs) = _
      rw [read_codePoint hne h, Inside.read, if_pos rfl, Option.bind_some, charOf?_toNat,
        Option.bind_some]

theorem read_quotable {c : Char} (hc : isQuotable c = true) (cs : List Char) :
    Inside.plain.read (c :: cs) = (Inside.plain.read cs).map (withFirst c) := by
  obtain ⟨⟨hprintable, hquote⟩, hslash⟩ :
      (isPrintable c = true ∧ c ≠ '"') ∧ c ≠ '\\' := by simpa [isQuotable] using hc
  have hbreak : ¬ (c = '\n' ∨ c = '\r') := by
    rintro (rfl | rfl) <;> cases hprintable
  rw [Inside.read, if_neg hquote, if_neg hslash, if_neg hbreak]

/-- A body is read up to the quote behind it, whatever follows. -/
theorem BodyOf.read {body text : List Char} (h : BodyOf body text) (cs : List Char) :
    Inside.plain.read (body ++ '"' :: cs) = some (text, cs) := by
  induction h with
  | nil => rfl
  | plain hc _ ih => rw [List.cons_append, read_quotable hc, ih, Option.map_some, withFirst]
  | escaped hc _ ih => rw [List.append_assoc, hc.read, ih, Option.map_some, withFirst]

/-! ## The literal of a text -/

theorem hexNumber?_append (n : Nat) (ds es : List Char) :
    hexNumber? n (ds ++ es) = (hexNumber? n ds).bind fun m ↦ hexNumber? m es := by
  induction ds generalizing n with
  | nil => rfl
  | cons d ds ih => simp only [List.cons_append, hexNumber?, Option.bind_assoc, ih]

theorem hexValue?_digitChar : ∀ d < 16, hexValue? (Nat.digitChar d) = some d := by
  decide

theorem hexNumber?_toDigits (n : Nat) : hexNumber? 0 (Nat.toDigits 16 n) = some n := by
  induction n using Nat.strong_induction_on with
  | _ n ih =>
      rw [Nat.toDigits_eq_if (by omega)]
      split
      case isTrue h => rw [hexNumber?, hexValue?_digitChar n h, Option.bind_some, hexNumber?,
        Nat.mul_zero, Nat.zero_add]
      case isFalse h =>
        rw [hexNumber?_append, ih (n / 16) (by omega), Option.bind_some, hexNumber?,
          hexValue?_digitChar _ (by omega), Option.bind_some, hexNumber?, Nat.div_add_mod]

theorem letterValue?_of_shortEscape? {c letter : Char} (h : shortEscape? c = some letter) :
    letterValue? letter = some c := by
  unfold shortEscape? at h
  split at h <;> cases h <;> rfl

theorem BodyOf.escapeChar {body text : List Char} (h : BodyOf body text) (c : Char) :
    BodyOf (escapeChar c ++ body) (c :: text) := by
  rw [VexLang.escapeChar]
  cases hshort : shortEscape? c with
  | some letter => exact .escaped (.letter (letterValue?_of_shortEscape? hshort)) h
  | none =>
      obtain ⟨hquote, hslash⟩ := ne_of_shortEscape?_eq_none hshort
      simp only
      split
      case isTrue hprintable => exact .plain (by simp [isQuotable, hprintable, hquote, hslash]) h
      case isFalse =>
        have hcode : Escapes _ c := .codePoint Nat.toDigits_ne_nil (hexNumber?_toDigits c.toNat)
        have hescaped := BodyOf.escaped hcode h
        simpa using hescaped

theorem bodyOf_escape (text : List Char) : BodyOf (escape text) text := by
  induction text with
  | nil => exact .nil
  | cons c text ih => exact ih.escapeChar c

theorem toList_quote (text : String) :
    (quote text).toList = '"' :: (escape text.toList ++ ['"']) := by
  simp [quote]

/-- The literal of a text is read as that text, and reading stops behind it. -/
theorem readLiteral?_quote (text : String) (code : List Char) :
    readLiteral? ((quote text).toList ++ code) = some (text, code) := by
  have hread := (bodyOf_escape text.toList).read code
  rw [toList_quote, List.cons_append, List.append_assoc, readLiteral?, List.singleton_append,
    hread, Option.map_some, String.ofList_toList]

example : readLiteral? "\"it\\'s \\\"1\\\"\\n\\u\x7b1f600\x7d\";".toList =
    some ("it's \"1\"\n😀", [';']) := by decide +kernel

theorem quote_injective : Function.Injective quote := by
  intro text text' hsame
  have hread := readLiteral?_quote text []
  rw [hsame, readLiteral?_quote] at hread
  exact (congrArg Prod.fst (Option.some.inj hread)).symm

end JavaScript

/-! ## Stored literals -/

open JavaScript

/-- The values whose literals are stored as texts. -/
inductive StoredAsText : Value → Prop
  | text (s : String) : StoredAsText (.text s)
  | number (n : Float) : StoredAsText (.number n)

namespace StoredAsText

variable {v : Value}

theorem storedValue_eq (h : StoredAsText v) : storedValue (.literal v) v = .text v.toText := by
  cases h <;> simp [storedValue, Node.isNumberLiteral, Value.toText]

theorem literalExpr_eq (h : StoredAsText v) : literalExpr .quoted v = .string v.toText := by
  cases h <;> simp [literalExpr, Value.toText]

theorem render_declaration (h : StoredAsText v) (name : String) (constant : Bool) :
    (emit .quoted (.declaration name (.literal v) constant)).toStmt.render =
      (if constant then "const " else "let ") ++ name ++ " = " ++ quote v.toText ++ ";" := by
  rw [emit, emit, h.literalExpr_eq]
  rfl

theorem render_assignment (h : StoredAsText v) (name : String) :
    (emit .quoted (.assignment name (.literal v))).toStmt.render =
      name ++ " = " ++ quote v.toText ++ ";" := by
  rw [emit, emit, h.literalExpr_eq]
  rfl

theorem declare_run (h : StoredAsText v) (host : Host) (fuel : Nat) (name : String)
    (constant : Bool) (w : World) :
    ∃ w', (eval host fuel (.declaration name (.literal v) constant)).run w = .ok .undefined w' ∧
      w'.env.find? name = some ⟨.text v.toText, constant⟩ := by
  refine ⟨{ w with env := w.env.declare name (.text v.toText) constant }, ?_, ?_⟩
  · have hvalue : eval host fuel (.literal v) w = .ok v w := by rw [eval]; rfl
    rw [eval, EStateM.run, bind_of_ok hvalue, h.storedValue_eq]
    rfl
  · rw [Environment.find?_declare, if_pos rfl]

theorem assign_run (h : StoredAsText v) (host : Host) (fuel : Nat) {name : String} {w : World}
    (hname : w.env.checkAssignable name = .ok ()) :
    ∃ w', (eval host fuel (.assignment name (.literal v))).run w = .ok .undefined w' ∧
      w'.env.find? name = some ⟨.text v.toText, false⟩ := by
  refine ⟨{ w with env := w.env.bind name ⟨.text v.toText, false⟩ }, ?_, ?_⟩
  · have hget : (get : Effect World) w = .ok w w := rfl
    have hcheck : Effect.ofExcept (w.env.checkAssignable name) w = .ok () w := by
      rw [hname]
      rfl
    have hvalue : eval host fuel (.literal v) w = .ok v w := by rw [eval]; rfl
    have hassign : w.env.assign name (.text v.toText) =
        .ok (w.env.bind name ⟨.text v.toText, false⟩) := by
      rw [Environment.assign, hname]
    rw [eval, EStateM.run, bind_of_ok hget, bind_of_ok hcheck, bind_of_ok hvalue, bind_of_ok hget,
      h.storedValue_eq, hassign]
    rfl
  · rw [Environment.find?_bind, if_pos rfl]

end StoredAsText

/-- The literal of a text stands between double quotes, is printable and escapes every quote and
backslash inside. It is read as that text, so that different texts have different literals, and
the literal in the code of a declaration or an assignment is read as the text that the run
stores. -/
theorem literals_denote :
    (∀ text : String, ∃ body, (quote text).toList = '"' :: (body ++ ['"']) ∧
      (∀ c ∈ body, isPrintable c = true) ∧ BodyOf body text.toList ∧
      ∀ code, readLiteral? ((quote text).toList ++ code) = some (text, code)) ∧
    Function.Injective quote ∧
    ∀ name v, StoredAsText v → ∃ literal : String,
      (∀ code, readLiteral? (literal.toList ++ code) = some (v.toText, code)) ∧
      (∀ constant, (emit .quoted (.declaration name (.literal v) constant)).toStmt.render =
        (if constant then "const " else "let ") ++ name ++ " = " ++ literal ++ ";") ∧
      (emit .quoted (.assignment name (.literal v))).toStmt.render =
        name ++ " = " ++ literal ++ ";" ∧
      ∀ host fuel w,
        (∀ constant, ∃ w',
          (eval host fuel (.declaration name (.literal v) constant)).run w = .ok .undefined w' ∧
          w'.env.find? name = some ⟨.text v.toText, constant⟩) ∧
        (w.env.checkAssignable name = .ok () → ∃ w',
          (eval host fuel (.assignment name (.literal v))).run w = .ok .undefined w' ∧
          w'.env.find? name = some ⟨.text v.toText, false⟩) := by
  refine ⟨fun text ↦ ?_, quote_injective, fun name v hv ↦ ?_⟩
  · exact ⟨escape text.toList, toList_quote text, fun c hc ↦ isPrintable_of_mem_escape hc,
      bodyOf_escape _, readLiteral?_quote text⟩
  · exact ⟨quote v.toText, readLiteral?_quote _, hv.render_declaration name,
      hv.render_assignment name, fun host fuel w ↦
        ⟨fun constant ↦ hv.declare_run host fuel name constant w, hv.assign_run host fuel⟩⟩

theorem literals_denote_greeting :
    StoredAsText (.text "say \"hi\"\n") ∧
    (Environment.empty.declare "x" .null false).checkAssignable "x" = .ok () ∧
    ∃ literal : String,
      readLiteral? literal.toList = some ("say \"hi\"\n", []) ∧
      (emit .quoted (.assignment "x" (.literal (.text "say \"hi\"\n")))).toStmt.render =
        "x" ++ " = " ++ literal ++ ";" ∧
      ∃ w', (eval ⟨none, none, fun _ ↦ 0.0⟩ 0
          (.assignment "x" (.literal (.text "say \"hi\"\n")))).run
          (World.start (Environment.empty.declare "x" .null false) false) = .ok .undefined w' ∧
        w'.env.find? "x" = some ⟨.text "say \"hi\"\n", false⟩ := by
  have hstored : StoredAsText (.text "say \"hi\"\n") := .text _
  have hname : (Environment.empty.declare "x" .null false).checkAssignable "x" = .ok () := rfl
  obtain ⟨literal, hread, -, hcode, hrun⟩ := literals_denote.2.2 "x" _ hstored
  have hliteral := hread []
  rw [List.append_nil] at hliteral
  exact ⟨hstored, hname, literal, hliteral, hcode, (hrun _ 0 _).2 hname⟩

end VexLang
