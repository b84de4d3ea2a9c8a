import VexLang.JavaScript.Code
import VexLang.Proofs.Number.Printed

/-!
# Lexical states of generated code

A scan reads code character by character and knows four kinds of text: code, strings in
double quotes, and comments of both kinds. Brackets count in code only, where each has to
close the one opened last. The scan stops at what these four do not account for: another
kind of quote or a backslash in code, a line break in a string, and in a line comment any
line break but the one that ends it.

A text is closed if the scan of it comes back to code with the same brackets open. The
texts of expressions are closed if the texts of their parts are, and those of statements
once the line they stand on has ended.
-/

namespace VexLang

namespace JavaScript

inductive Mode where
  | code
  /-- Behind a slash in code. -/
  | slash
  | string
  /-- Behind a backslash in a string. -/
  | escape
  | lineComment
  | blockComment
  /-- Behind a star in a block comment. -/
  | star
  deriving DecidableEq, Repr

/-- Where a scan stands: its mode, and the closing brackets it waits for, innermost first. -/
structure Scan where
  mode : Mode
  awaited : List Char
  deriving DecidableEq, Repr

def breaksLine (c : Char) : Bool :=
  c = '\n' || c = '\r' || c = '\u2028' || c = '\u2029'

namespace Scan

def start : Scan := ⟨.code, []⟩

/-- A closing bracket has to be the one that is awaited. -/
def close (c : Char) : List Char → Option Scan
  | [] => none
  | expected :: awaited => if c = expected then some ⟨.code, awaited⟩ else none

def codeStep (awaited : List Char) : Char → Option Scan
  | '"' => some ⟨.string, awaited⟩
  | '/' => some ⟨.slash, awaited⟩
  | '(' => some ⟨.code, ')' :: awaited⟩
  | '[' => some ⟨.code, ']' :: awaited⟩
  | '\x7b' => some ⟨.code, '\x7d' :: awaited⟩
  | ')' => close ')' awaited
  | ']' => close ']' awaited
  | '\x7d' => close '\x7d' awaited
  | '\'' | '\x60' | '\\' => none
  | _ => some ⟨.code, awaited⟩

def step : Scan → Char → Option Scan
  | ⟨.code, awaited⟩, c => codeStep awaited c
  | ⟨.slash, awaited⟩, c =>
    if c = '/' then some ⟨.lineComment, awaited⟩
    else if c = '*' then some ⟨.blockComment, awaited⟩
    else codeStep awaited c
  | ⟨.string, awaited⟩, c =>
    if c = '"' then some ⟨.code, awaited⟩
    else if c = '\\' then some ⟨.escape, awaited⟩
    else if breaksLine c then none
    else some ⟨.string, awaited⟩
  | ⟨.escape, awaited⟩, _ => some ⟨.string, awaited⟩
  | ⟨.lineComment, awaited⟩, c =>
    if c = '\n' then some ⟨.code, awaited⟩
    else if breaksLine c then none
    else some ⟨.lineComment, awaited⟩
  | ⟨.blockComment, awaited⟩, c =>
    if c = '*' then some ⟨.star, awaited⟩ else some ⟨.blockComment, awaited⟩
  | ⟨.star, awaited⟩, c =>
    if c = '/' then some ⟨.code, awaited⟩
    else if c = '*' then some ⟨.star, awaited⟩
    else some ⟨.blockComment, awaited⟩

def run (s : Scan) : List Char → Option Scan
  | [] => some s
  | c :: cs => (s.step c).bind fun t ↦ t.run cs

@[simp] theorem run_nil (s : Scan) : s.run [] = some s := rfl

theorem run_append (s : Scan) (cs ds : List Char) :
    s.run (cs ++ ds) = (s.run cs).bind fun t ↦ t.run ds := by
  induction cs generalizing s with
  | nil => rfl
  | cons c cs ih =>
      rw [List.cons_append, run, run, Option.bind_assoc]
      simp only [ih]

/-- Characters that keep a scan where it is do so in any number. -/
theorem run_stays {s : Scan} {cs : List Char} (h : ∀ c ∈ cs, s.step c = some s) :
    s.run cs = some s := by
  induction cs with
  | nil => rfl
  | cons c cs ih =>
      obtain ⟨hc, hcs⟩ := List.forall_mem_cons.mp h
      rw [run, hc, Option.bind_some, ih hcs]

def read (s : Scan) (text : String) : Option Scan :=
  s.run text.toList

theorem read_append (s : Scan) (a b : String) :
    s.read (a ++ b) = (s.read a).bind fun t ↦ t.read b := by
  rw [read, String.toList_append, run_append]
  rfl

end Scan

/-- The scan of the text comes back to code, with the same brackets open. -/
def Closed (text : String) : Prop :=
  ∀ awaited, Scan.read ⟨.code, awaited⟩ text = some ⟨.code, awaited⟩

/-- Characters that mean nothing but themselves in code. -/
def isPlain (c : Char) : Bool :=
  c ∉ ['"', '/', '(', '[', '\x7b', ')', ']', '\x7d', '\'', '\x60', '\\']

theorem step_code_plain {c : Char} (hc : isPlain c = true) (awaited : List Char) :
    Scan.step ⟨.code, awaited⟩ c = some ⟨.code, awaited⟩ := by
  simp only [isPlain, List.mem_cons, List.not_mem_nil, or_false, not_or, decide_eq_true_eq] at hc
  simp [Scan.step, Scan.codeStep, hc]

theorem closed_plain {text : String} (h : ∀ c ∈ text.toList, isPlain c = true) : Closed text := by
  intro awaited
  apply Scan.run_stays
  intro c hc
  exact step_code_plain (h c hc) awaited

theorem closed_word (word : String) (h : word.toList.all isPlain = true) : Closed word :=
  closed_plain (List.all_eq_true.mp h)

/-- Texts of code that open brackets and close them again. -/
def Encloses (before after : String) : Prop :=
  ∃ inner, ∀ awaited,
    Scan.read ⟨.code, awaited⟩ before = some ⟨.code, inner ++ awaited⟩ ∧
      Scan.read ⟨.code, inner ++ awaited⟩ after = some ⟨.code, awaited⟩

namespace Closed

variable {a b : String}

theorem append (ha : Closed a) (hb : Closed b) : Closed (a ++ b) := by
  intro awaited
  rw [Scan.read_append, ha, Option.bind_some, hb]

theorem enclosed {before after : String} (h : Encloses before after) (ha : Closed a) :
    Closed (before ++ a ++ after) := by
  obtain ⟨inner, hinner⟩ := h
  intro awaited
  obtain ⟨hbefore, hafter⟩ := hinner awaited
  rw [Scan.read_append, Scan.read_append, hbefore, Option.bind_some, ha, Option.bind_some, hafter]

theorem intercalate (hsep : Closed b) {texts : List String} (h : ∀ t ∈ texts, Closed t) :
    Closed (String.intercalate b texts) := by
  induction texts with
  | nil => exact fun _ ↦ rfl
  | cons t texts ih =>
      obtain ⟨ht, htexts⟩ := List.forall_mem_cons.mp h
      cases texts with
      | nil => simpa using ht
      | cons u texts =>
          rw [String.intercalate_cons_cons]
          exact (ht.append hsep).append (ih htexts)

/-- Lines, each of which is closed once it has ended. -/
theorem lines {texts : List String} (h : ∀ t ∈ texts, Closed (t ++ "\n")) :
    Closed (String.intercalate "\n" texts ++ "\n") := by
  induction texts with
  | nil => exact fun _ ↦ rfl
  | cons t texts ih =>
      obtain ⟨ht, htexts⟩ := List.forall_mem_cons.mp h
      cases texts with
      | nil => simpa using ht
      | cons u texts =>
          rw [String.intercalate_cons_cons, String.append_assoc]
          exact ht.append (ih htexts)

theorem newline (ha : Closed a) : Closed (a ++ "\n") :=
  ha.append fun _ ↦ rfl

end Closed

/-! ## Escaped text -/

/-- Characters that stand for themselves in a string. -/
def isQuotable (c : Char) : Bool :=
  isPrintable c && c ≠ '"' && c ≠ '\\'

theorem not_breaksLine {c : Char} (hc : isPrintable c = true) : breaksLine c = false := by
  have hrange : 0x20 ≤ c.toNat ∧ c.toNat ≤ 0x7E := by simpa [isPrintable] using hc
  simp only [breaksLine, Bool.or_eq_false_iff, decide_eq_false_iff_not]
  refine ⟨⟨⟨?_, ?_⟩, ?_⟩, ?_⟩ <;> rintro rfl <;> revert hrange <;> decide

theorem isQuotable_digitChar : ∀ d < 16, isQuotable (Nat.digitChar d) = true := by
  decide

theorem isQuotable_of_mem_toDigits {n : Nat} {c : Char} (hc : c ∈ Nat.toDigits 16 n) :
    isQuotable c = true := by
  induction n using Nat.strong_induction_on with
  | _ n ih =>
      rw [Nat.toDigits_eq_if (by omega)] at hc
      split at hc
      case isTrue h =>
        rw [List.mem_singleton.mp hc]
        exact isQuotable_digitChar n h
      case isFalse h =>
        rcases List.mem_append.mp hc with hc | hc
        · exact ih (n / 16) (by omega) hc
        · rw [List.mem_singleton.mp hc]
          exact isQuotable_digitChar (n % 16) (by omega)

theorem isPrintable_of_shortEscape? {c letter : Char} (h : shortEscape? c = some letter) :
    isPrintable letter = true := by
  unfold shortEscape? at h
  split at h <;> cases h <;> rfl

theorem ne_of_shortEscape?_eq_none {c : Char} (h : shortEscape? c = none) :
    c ≠ '"' ∧ c ≠ '\\' := by
  constructor <;> rintro rfl <;> cases h

/-- An escaped character is either itself or introduced by a backslash and a letter. -/
theorem escapeChar_cases (c : Char) :
    (escapeChar c = [c] ∧ isQuotable c = true) ∨
      ∃ letter more, escapeChar c = '\\' :: letter :: more ∧ isPrintable letter = true ∧
        ∀ d ∈ more, isQuotable d = true := by
  rw [escapeChar]
  cases hshort : shortEscape? c with
  | some letter => exact .inr ⟨letter, [], rfl, isPrintable_of_shortEscape? hshort, by simp⟩
  | none =>
      obtain ⟨hquote, hslash⟩ := ne_of_shortEscape?_eq_none hshort
      simp only
      split
      case isTrue hprintable => exact .inl ⟨rfl, by simp [isQuotable, hprintable, hquote, hslash]⟩
      case isFalse =>
        refine .inr ⟨'u', _, rfl, rfl, ?_⟩
        intro d hd
        rcases List.mem_cons.mp hd with rfl | hd
        · rfl
        · rcases List.mem_append.mp hd with hd | hd
          · exact isQuotable_of_mem_toDigits hd
          · rw [List.mem_singleton.mp hd]
            rfl

theorem step_string_quotable {c : Char} (hc : isQuotable c = true) (awaited : List Char) :
    Scan.step ⟨.string, awaited⟩ c = some ⟨.string, awaited⟩ := by
  obtain ⟨⟨hprintable, hquote⟩, hslash⟩ :
      (isPrintable c = true ∧ c ≠ '"') ∧ c ≠ '\\' := by simpa [isQuotable] using hc
  simp [Scan.step, hquote, hslash, not_breaksLine hprintable]

theorem run_string_escapeChar (c : Char) (awaited : List Char) :
    Scan.run ⟨.string, awaited⟩ (escapeChar c) = some ⟨.string, awaited⟩ := by
  rcases escapeChar_cases c with ⟨heq, hc⟩ | ⟨letter, more, heq, -, hmore⟩
  · rw [heq]
    apply Scan.run_stays
    intro d hd
    rw [List.mem_singleton.mp hd]
    exact step_string_quotable hc awaited
  · rw [heq]
    -- The backslash and its letter lead back into the string.
    change Scan.run ⟨.string, awaited⟩ more = _
    apply Scan.run_stays
    intro d hd
    exact step_string_quotable (hmore d hd) awaited

theorem run_string_escape (cs awaited : List Char) :
    Scan.run ⟨.string, awaited⟩ (escape cs) = some ⟨.string, awaited⟩ := by
  induction cs with
  | nil => rfl
  | cons c cs ih =>
      rw [escape, List.flatMap_cons, Scan.run_append, run_string_escapeChar, Option.bind_some]
      exact ih

theorem isPrintable_of_isQuotable {c : Char} (hc : isQuotable c = true) : isPrintable c = true := by
  simp only [isQuotable, Bool.and_eq_true] at hc
  exact hc.1.1

theorem isPrintable_of_mem_escape {c : Char} {cs : List Char} (hc : c ∈ escape cs) :
    isPrintable c = true := by
  obtain ⟨d, -, hd⟩ := List.mem_flatMap.mp hc
  rcases escapeChar_cases d with ⟨heq, hquotable⟩ | ⟨letter, more, heq, hletter, hmore⟩
  · rw [heq, List.mem_singleton] at hd
    rw [hd]
    exact isPrintable_of_isQuotable hquotable
  · rw [heq] at hd
    rcases List.mem_cons.mp hd with rfl | hd
    · rfl
    · rcases List.mem_cons.mp hd with rfl | hd
      · exact hletter
      · exact isPrintable_of_isQuotable (hmore c hd)

theorem closed_quote (text : String) : Closed (quote text) := by
  intro awaited
  have hopen : Scan.read ⟨.code, awaited⟩ "\"" = some ⟨.string, awaited⟩ := rfl
  have hinside : Scan.read ⟨.string, awaited⟩ (String.ofList (escape text.toList)) =
      some ⟨.string, awaited⟩ := by
    rw [Scan.read, String.toList_ofList, run_string_escape]
  rw [quote, Scan.read_append, Scan.read_append, hopen, Option.bind_some, hinside]
  rfl

/-! ## Comments -/

theorem mem_of_mem_partStarSlash {c : Char} {cs : List Char} (hc : c ∈ partStarSlash cs) :
    c = ' ' ∨ c ∈ cs := by
  fun_induction partStarSlash cs with
  | case1 => exact .inr hc
  | case2 cs ih => grind
  | case3 d cs h ih => grind

theorem isPrintable_of_mem_commentText {c : Char} {text : String}
    (hc : c ∈ (commentText text).toList) : isPrintable c = true := by
  rw [commentText, String.toList_ofList] at hc
  rcases mem_of_mem_partStarSlash hc with rfl | hc
  · rfl
  · exact isPrintable_of_mem_escape hc

theorem step_lineComment_printable {c : Char} (hc : isPrintable c = true) (awaited : List Char) :
    Scan.step ⟨.lineComment, awaited⟩ c = some ⟨.lineComment, awaited⟩ := by
  have hbreak := not_breaksLine hc
  have hne : c ≠ '\n' := by
    rintro rfl
    cases hbreak
  simp [Scan.step, hbreak, hne]

/-- A line comment of printable text ends with its line. -/
theorem closed_lineComment {text : String} (h : ∀ c ∈ text.toList, isPrintable c = true) :
    Closed ("// " ++ text ++ "\n") := by
  intro awaited
  have hopen : Scan.read ⟨.code, awaited⟩ "// " = some ⟨.lineComment, awaited⟩ := rfl
  have hinside : Scan.read ⟨.lineComment, awaited⟩ text = some ⟨.lineComment, awaited⟩ := by
    apply Scan.run_stays
    intro c hc
    exact step_lineComment_printable (h c hc) awaited
  rw [Scan.read_append, Scan.read_append, hopen, Option.bind_some, hinside]
  rfl

/-- A star makes a difference only to a slash that follows it. -/
theorem run_star {c : Char} (hc : c ≠ '/') (cs awaited : List Char) :
    Scan.run ⟨.star, awaited⟩ (c :: cs) = Scan.run ⟨.blockComment, awaited⟩ (c :: cs) := by
  simp [Scan.run, Scan.step, hc]

theorem head?_partStarSlash (cs : List Char) : (partStarSlash cs).head? = cs.head? := by
  fun_cases partStarSlash cs <;> rfl

theorem run_partStarSlash {c : Char} (hc : c ≠ '/') (cs ds awaited : List Char) :
    Scan.run ⟨.blockComment, awaited⟩ (partStarSlash cs ++ c :: ds) =
      Scan.run ⟨.blockComment, awaited⟩ (c :: ds) := by
  fun_induction partStarSlash cs with
  | case1 => rfl
  | case2 cs ih => exact ih
  | case3 d cs hpair ih =>
      by_cases hd : d = '*'
      case neg =>
        rw [List.cons_append, Scan.run]
        simpa [Scan.step, hd] using ih
      case pos =>
        -- No slash follows this star, neither one of the text nor one behind it.
        obtain ⟨e, es, hes, he⟩ : ∃ e es, partStarSlash cs ++ c :: ds = e :: es ∧ e ≠ '/' := by
          have hhead := head?_partStarSlash cs
          cases hcs : partStarSlash cs with
          | nil => exact ⟨c, ds, rfl, hc⟩
          | cons e es =>
              rw [hcs] at hhead
              refine ⟨e, es ++ c :: ds, rfl, ?_⟩
              rintro rfl
              obtain ⟨more, hmore⟩ := List.head?_eq_some_iff.mp hhead.symm
              exact hpair more hd hmore
        subst hd
        change Scan.run ⟨.star, awaited⟩ (partStarSlash cs ++ c :: ds) = _
        rw [hes] at ih ⊢
        rw [run_star he, ih]

/-- Text inside a block comment does not end it, unless a slash follows the text. -/
theorem closed_comment {before after : String} (text : String)
    (hbefore : ∀ awaited, Scan.read ⟨.code, awaited⟩ before = some ⟨.blockComment, awaited⟩)
    (hafter : ∀ awaited, Scan.read ⟨.blockComment, awaited⟩ after = some ⟨.code, awaited⟩)
    (hslash : after.toList.head? ≠ some '/') : Closed (before ++ commentText text ++ after) := by
  intro awaited
  rw [String.append_assoc, Scan.read_append, hbefore, Option.bind_some, Scan.read,
    String.toList_append, commentText, String.toList_ofList]
  have hend := hafter awaited
  rw [Scan.read] at hend
  cases hlist : after.toList with
  | nil => simp [hlist] at hend
  | cons c cs =>
      have hc : c ≠ '/' := by
        rintro rfl
        exact hslash (by rw [hlist]; rfl)
      rw [hlist] at hend
      rw [run_partStarSlash hc, hend]

/-! ## Numbers -/

theorem isPlain_of_isNumeralChar {c : Char} (h : IsNumeralChar c) : isPlain c = true := by
  have hmarks : ∀ c ∈ ['+', '-', '.'] ++ 'e' :: 'E' :: infinityWord, isPlain c = true :=
    List.all_eq_true.mp rfl
  rcases h with (hdigit | hmark) | hmark
  · simp only [isPlain, List.mem_cons, List.not_mem_nil, or_false, decide_eq_true_eq]
    rintro (rfl | rfl | rfl | rfl | rfl | rfl | rfl | rfl | rfl | rfl | rfl) <;> cases hdigit
  · exact hmarks c (List.mem_append_left _ hmark)
  · exact hmarks c (List.mem_append_right _ hmark)

/-- The text of a number is a numeral, unless it says that there is none. -/
theorem closed_numberText (n : Float) : Closed (numberText n) := by
  cases hnumber : n.isNaN with
  | true =>
      rw [numberText_of_isNaN hnumber]
      exact closed_word "NaN" rfl
  | false =>
      obtain ⟨cs, hnumeral, htext⟩ := scanNumeral?_sound (readAs_numberText hnumber).scan
      apply closed_plain
      rw [htext, List.append_nil]
      exact fun c hc ↦ isPlain_of_isNumeralChar (hnumeral.isNumeralChar c hc)

/-! ## Expressions -/

namespace Expr

variable {left right e : Expr} {es : List Expr}

theorem closed_parts (h : ∀ e ∈ es, Closed e.render) :
    Closed (String.intercalate ", " (renderExprs es)) := by
  rw [renderExprs_eq_map]
  apply Closed.intercalate fun _ ↦ rfl
  exact List.forall_mem_map.mpr h

theorem closed_strictEq (hl : Closed left.render) (hr : Closed right.render) :
    Closed (strictEq left right).render := by
  have hinner : Closed (left.render ++ (" === " ++ right.render)) :=
    hl.append (Closed.append (fun _ ↦ rfl) hr)
  have h : Closed ("(" ++ _ ++ ")") := hinner.enclosed ⟨[')'], fun _ ↦ ⟨rfl, rfl⟩⟩
  change Closed ("(" ++ left.render ++ " === " ++ right.render ++ ")")
  simpa only [String.append_assoc] using h

theorem closed_operator (op : Operator) : Closed (" " ++ String.singleton op.symbol ++ " ") := by
  cases op <;> exact fun _ ↦ rfl

theorem closed_arithmetic (hl : Closed left.render) (op : Operator) (hr : Closed right.render) :
    Closed (arithmetic left op right).render := by
  have hinner := (hl.append (closed_operator op)).append hr
  have h : Closed ("(" ++ _ ++ ")") := hinner.enclosed ⟨[')'], fun _ ↦ ⟨rfl, rfl⟩⟩
  change Closed ("(" ++ left.render ++ " " ++ String.singleton op.symbol ++ " " ++
    right.render ++ ")")
  simpa only [String.append_assoc] using h

theorem closed_helper (helper : Helper) (h : ∀ e ∈ es, Closed e.render) :
    Closed (Expr.helper helper es).render := by
  change Closed ("_vexHelper." ++ helper.name ++ "(" ++ _ ++ ")")
  apply (closed_parts h).enclosed
  cases helper <;> exact ⟨[')'], fun _ ↦ ⟨rfl, rfl⟩⟩

theorem closed_join (h : ∀ e ∈ es, Closed e.render) : Closed (join es).render := by
  change Closed ("[" ++ _ ++ "].join(\" \")")
  exact (closed_parts h).enclosed ⟨[']'], fun _ ↦ ⟨rfl, rfl⟩⟩

theorem closed_lookup (h : Closed e.render) : Closed (lookup e).render := by
  change Closed ("eval(String(" ++ e.render ++ "))")
  exact h.enclosed ⟨[')', ')'], fun _ ↦ ⟨rfl, rfl⟩⟩

theorem closed_closure {body : Stmt} (h : Closed body.render) : Closed (closure body).render := by
  change Closed ("(() => \x7b " ++ body.render ++ " \x7d)()")
  exact h.enclosed ⟨['\x7d', ')'], fun _ ↦ ⟨rfl, rfl⟩⟩

theorem closed_missing (remark : String) : Closed (missing remark).render := by
  change Closed ("/* Unknown: " ++ commentText remark ++ " */ undefined")
  exact closed_comment remark (fun _ ↦ rfl) (fun _ ↦ rfl) (by decide)

end Expr

/-! ## Statements -/

namespace Stmt

variable {e : Expr} {es : List Expr} {body : List Stmt}

theorem closed_declare (constant : Bool) {name : String} (hname : Closed name)
    (he : Closed e.render) : Closed (declare constant name e).render := by
  change Closed ((if constant then "const " else "let ") ++ name ++ " = " ++ e.render ++ ";")
  refine (((Closed.append ?_ hname).append ?_).append he).append ?_
  · cases constant <;> exact fun _ ↦ rfl
  · exact fun _ ↦ rfl
  · exact fun _ ↦ rfl

theorem closed_assign {name : String} (hname : Closed name) (he : Closed e.render) :
    Closed (assign name e).render := by
  change Closed (name ++ " = " ++ e.render ++ ";")
  refine ((hname.append ?_).append he).append ?_ <;> exact fun _ ↦ rfl

theorem closed_log (h : ∀ e ∈ es, Closed e.render) : Closed (log es).render := by
  change Closed (String.intercalate "\n" ((renderExprs es).map _))
  rw [renderExprs_eq_map, List.map_map]
  apply Closed.intercalate fun _ ↦ rfl
  intro text htext
  obtain ⟨e, he, rfl⟩ := List.mem_map.mp htext
  exact (h e he).enclosed ⟨[')'], fun _ ↦ ⟨rfl, rfl⟩⟩

theorem closed_discard (command : String) (h : ∀ e ∈ es, Closed e.render) :
    Closed (discard command es).render := by
  have hcomment : Closed ("/* " ++ commentText command ++ "! */ ") :=
    closed_comment command (fun _ ↦ rfl) (fun _ ↦ rfl) (by decide)
  have hparams : Closed ("void [" ++ String.intercalate ", " (renderExprs es) ++ "];") :=
    (Expr.closed_parts h).enclosed ⟨[']'], fun _ ↦ ⟨rfl, rfl⟩⟩
  have hsplit : "! */ void [" = "! */ " ++ "void [" := rfl
  change Closed ("/* " ++ commentText command ++ "! */ void [" ++
    String.intercalate ", " (renderExprs es) ++ "];")
  rw [hsplit]
  simpa only [String.append_assoc] using hcomment.append hparams

/-- The line break before the closing bracket ends a comment in the last line. -/
theorem closed_block {texts : List String} (h : ∀ t ∈ texts, Closed (t ++ "\n")) :
    Closed (block texts) := by
  have hlines : Closed ("\x7b\n" ++ (String.intercalate "\n" texts ++ "\n") ++ "\x7d") :=
    (Closed.lines h).enclosed ⟨['\x7d'], fun _ ↦ ⟨rfl, rfl⟩⟩
  have hsplit : "\n\x7d" = "\n" ++ "\x7d" := rfl
  rw [block, hsplit]
  simpa only [String.append_assoc] using hlines

theorem closed_body (h : ∀ s ∈ body, Closed (s.render ++ "\n")) :
    Closed (block (renderStmts body)) := by
  rw [renderStmts_eq_map]
  apply closed_block
  exact List.forall_mem_map.mpr h

theorem closed_count (he : Closed e.render) (h : ∀ s ∈ body, Closed (s.render ++ "\n")) :
    Closed (count e body).render := by
  change Closed ("for (let i = 0; i < Number(" ++ e.render ++ "); i++) " ++ _)
  refine (he.enclosed ?_).append (closed_body h)
  exact ⟨[')', ')'], fun _ ↦ ⟨rfl, rfl⟩⟩

theorem closed_forever (h : ∀ s ∈ body, Closed (s.render ++ "\n")) :
    Closed (forever body).render := by
  change Closed ("while (true) " ++ _)
  refine Closed.append ?_ (closed_body h)
  exact fun _ ↦ rfl

theorem closed_otherwise {otherwise : Option Stmt}
    (h : ∀ s ∈ otherwise, Closed (s.render ++ "\n")) : Closed (renderOtherwise otherwise) := by
  cases otherwise with
  | none => exact fun _ ↦ rfl
  | some s =>
      change Closed (" else " ++ block [s.render])
      refine Closed.append ?_ (closed_block ?_)
      · exact fun _ ↦ rfl
      · exact List.forall_mem_singleton.mpr (h s rfl)

theorem closed_conditional (he : Closed e.render) (h : ∀ s ∈ body, Closed (s.render ++ "\n"))
    {otherwise : Option Stmt} (ho : ∀ s ∈ otherwise, Closed (s.render ++ "\n")) :
    Closed (conditional e body otherwise).render := by
  change Closed ("if (_vexHelper.isYup(" ++ e.render ++ ")) " ++ _ ++ _)
  refine ((he.enclosed ?_).append (closed_body h)).append (closed_otherwise ho)
  exact ⟨[')', ')'], fun _ ↦ ⟨rfl, rfl⟩⟩

theorem closed_expression (he : Closed e.render) : Closed (expression e).render := by
  change Closed (e.render ++ ";")
  apply he.append
  exact fun _ ↦ rfl

theorem closed_exit : Closed exit.render := by
  intro awaited
  rfl

end Stmt

end JavaScript

end VexLang
