import VexLang.Proofs.Number.RoundTrip
import VexLang.Proofs.Number.Rounding

/-!
# The grammar of numerals

A numeral is an optional sign before `Infinity` or before digits with an optional point and an
optional exponent. The scan takes off the longest numeral a text begins with: whenever a text
begins with some numeral, the scan takes off exactly that one, or more. Both readings of a text
as a number follow from this alone.
-/

namespace VexLang

def AllDigits (cs : List Char) : Prop :=
  ∀ c ∈ cs, c.isDigit = true

/-- A sign that may be left out, and whether it is a minus. -/
inductive SignText : Bool → List Char → Prop
  | none : SignText false []
  | plus : SignText false ['+']
  | minus : SignText true ['-']

/-- Digits with an optional point and further digits behind it, or a point and digits behind
it. -/
inductive MantissaText : List Char → List Char → List Char → Prop
  | whole {integer : List Char} (hne : integer ≠ []) : MantissaText integer [] integer
  | point {integer : List Char} (hne : integer ≠ []) (fraction : List Char) :
      MantissaText integer fraction (integer ++ '.' :: fraction)
  | bare {fraction : List Char} (hne : fraction ≠ []) :
      MantissaText [] fraction ('.' :: fraction)

/-- An exponent that may be left out: a mark, an optional sign and digits, which are read by
`digitsOf`. -/
inductive ExponentText (digitsOf : List Char → Nat) : Int → List Char → Prop
  | none : ExponentText digitsOf 0 []
  | marked {mark : Char} {negative : Bool} {sign digits : List Char}
      (hmark : mark = 'e' ∨ mark = 'E') (hsign : SignText negative sign) (hne : digits ≠ [])
      (hdigits : AllDigits digits) :
      ExponentText digitsOf (if negative then -(digitsOf digits : Int) else digitsOf digits)
        (mark :: (sign ++ digits))

/-- The text is a numeral, and denotes the number: the one nearest to the exact value of the
text, if `digitsOf` reads the digits of an exponent. -/
inductive Numeral (digitsOf : List Char → Nat) : List Char → Float → Prop
  | infinity {negative : Bool} {sign : List Char} (hsign : SignText negative sign) :
      Numeral digitsOf (sign ++ infinityWord) (ofMagnitude negative Magnitude.infinity)
  | decimal {negative : Bool} {sign integer fraction mantissa exponent : List Char} {e : Int}
      (hsign : SignText negative sign) (hinteger : AllDigits integer)
      (hfraction : AllDigits fraction) (hmantissa : MantissaText integer fraction mantissa)
      (hexponent : ExponentText digitsOf e exponent) :
      Numeral digitsOf (sign ++ (mantissa ++ exponent)) (ofMagnitude negative
        (Decimal.rounded ⟨foldDigits (integer ++ fraction), e - fraction.length⟩))

/-! ## What the scan takes off is a numeral -/

theorem scanDigits_sound (cs : List Char) :
    cs = (scanDigits cs).1 ++ (scanDigits cs).2 ∧ AllDigits (scanDigits cs).1 :=
  ⟨List.takeWhile_append_dropWhile.symm, fun _ hc ↦ List.mem_takeWhile_imp hc⟩

theorem scanSign_sound (cs : List Char) :
    ∃ sign, SignText (scanSign cs).1 sign ∧ cs = sign ++ (scanSign cs).2 := by
  unfold scanSign
  split
  · exact ⟨['+'], .plus, rfl⟩
  · exact ⟨['-'], .minus, rfl⟩
  · exact ⟨[], .none, rfl⟩

theorem scanFraction_sound (hasInteger : Bool) (cs : List Char) :
    scanFraction hasInteger cs = ([], cs) ∨
      ∃ fraction rest, cs = '.' :: (fraction ++ rest) ∧ AllDigits fraction ∧
        (hasInteger = true ∨ fraction ≠ []) ∧ scanFraction hasInteger cs = (fraction, rest) := by
  unfold scanFraction
  split
  · rename_i tail
    obtain ⟨htail, hdigits⟩ := scanDigits_sound tail
    simp only
    split
    · rename_i htaken
      refine .inr ⟨_, _, congrArg _ htail, hdigits, ?_, rfl⟩
      simpa using htaken
    · exact .inl rfl
  · exact .inl rfl

theorem scanExponent_sound (cs : List Char) :
    ∃ text, ExponentText exponentValue (scanExponent cs).1 text ∧
      cs = text ++ (scanExponent cs).2 := by
  cases cs with
  | nil => exact ⟨[], .none, rfl⟩
  | cons c cs =>
      obtain ⟨sign, hsign, hbody⟩ := scanSign_sound cs
      obtain ⟨hrest, hdigits⟩ := scanDigits_sound (scanSign cs).2
      simp only [scanExponent]
      split
      · rename_i hmark
        split
        · exact ⟨[], .none, rfl⟩
        · rename_i hne
          refine ⟨_, .marked hmark hsign (by simpa using hne) hdigits, ?_⟩
          rw [List.cons_append, List.append_assoc, ← hrest, ← hbody]
      · exact ⟨[], .none, rfl⟩

theorem scanDecimal?_sound {cs rest : List Char} {d : Decimal}
    (h : scanDecimal? cs = some (d, rest)) :
    ∃ integer fraction mantissa e exponent, AllDigits integer ∧ AllDigits fraction ∧
      MantissaText integer fraction mantissa ∧ ExponentText exponentValue e exponent ∧
      cs = mantissa ++ (exponent ++ rest) ∧
      d = ⟨foldDigits (integer ++ fraction), e - fraction.length⟩ := by
  obtain ⟨hcs, hinteger⟩ := scanDigits_sound cs
  simp only [scanDecimal?] at h
  generalize (scanDigits cs).1 = integer at h hcs hinteger
  generalize (scanDigits cs).2 = tail at h hcs
  rcases scanFraction_sound (!integer.isEmpty) tail with
    hnone | ⟨fraction, behind, htail, hfraction, hsome, hscan⟩
  · obtain ⟨exponent, hexponent, hbehind⟩ := scanExponent_sound tail
    rw [hnone] at h
    split at h
    · cases h
    · rename_i hne
      cases h
      refine ⟨integer, [], integer, _, exponent, hinteger, List.forall_mem_nil _, .whole ?_,
        hexponent, ?_, ?_⟩
      · simpa using hne
      · rw [← hbehind, hcs]
      · rw [digitsValue_eq_foldDigits]
  · obtain ⟨exponent, hexponent, hbehind⟩ := scanExponent_sound behind
    rw [hscan] at h
    split at h
    · cases h
    · cases h
      refine ⟨integer, fraction, integer ++ '.' :: fraction, _, exponent, hinteger, hfraction, ?_,
        hexponent, ?_, ?_⟩
      · cases integer with
        | nil => exact .bare (hsome.resolve_left Bool.false_ne_true)
        | cons c cs => exact .point (List.cons_ne_nil c cs) fraction
      · rw [hcs, htail, List.append_assoc, List.cons_append, ← hbehind]
      · rw [digitsValue_eq_foldDigits]

theorem scanNumeral?_sound {cs rest : List Char} {v : Float}
    (h : scanNumeral? cs = some (v, rest)) :
    ∃ n, Numeral exponentValue n v ∧ cs = n ++ rest := by
  obtain ⟨sign, hsign, hcs⟩ := scanSign_sound cs
  simp only [scanNumeral?, scanMagnitude?] at h
  generalize (scanSign cs).1 = negative at h hsign
  generalize (scanSign cs).2 = body at h hcs
  split at h
  · rename_i hword
    cases h
    refine ⟨_, .infinity hsign, ?_⟩
    rw [hcs, List.append_assoc, List.prefix_iff_eq_append.mp (List.isPrefixOf_iff_prefix.mp hword)]
  · rw [Option.map_map, Option.map_eq_some_iff] at h
    obtain ⟨⟨d, behind⟩, hscan, hv⟩ := h
    obtain ⟨integer, fraction, mantissa, e, exponent, hinteger, hfraction, hmantissa, hexponent,
      hbody, rfl⟩ := scanDecimal?_sound hscan
    cases hv
    simp only [Decimal.toMagnitude_eq_rounded]
    refine ⟨_, .decimal hsign hinteger hfraction hmantissa hexponent, ?_⟩
    rw [hcs, hbody, List.append_assoc, List.append_assoc]

/-! ## The scan takes off no less than a numeral -/

/-- The scan stops before `rest` with the result `a`, or it goes further than that. -/
def TakesAtLeast {α : Type} (scanned : α × List Char) (a : α) (rest : List Char) : Prop :=
  scanned = (a, rest) ∨ scanned.2.length < rest.length

theorem scanSign_append {negative : Bool} {sign body : List Char} (hsign : SignText negative sign)
    (hbody : ∀ c ∈ body.head?, c ≠ '+' ∧ c ≠ '-') : scanSign (sign ++ body) = (negative, body) := by
  cases hsign with
  | plus => rfl
  | minus => rfl
  | none =>
      cases body with
      | nil => rfl
      | cons c cs =>
          obtain ⟨hplus, hminus⟩ := hbody c rfl
          rw [List.nil_append, scanSign]
          · rintro cs' ⟨⟩
            exact hplus rfl
          · rintro cs' ⟨⟩
            exact hminus rfl

/-- Digits are taken off together with those that follow. -/
theorem scanDigits_more {ds : List Char} (hds : AllDigits ds) (rest : List Char) :
    scanDigits (ds ++ rest) = (ds ++ (scanDigits rest).1, (scanDigits rest).2) := by
  rw [scanDigits, List.takeWhile_append_of_pos hds, List.dropWhile_append_of_pos hds]
  rfl

theorem scanDigits_cases (rest : List Char) :
    scanDigits rest = ([], rest) ∨
      (scanDigits rest).2.length < rest.length ∧ ∃ c ∈ rest.head?, c.isDigit = true := by
  cases rest with
  | nil => exact .inl rfl
  | cons c cs =>
      cases hc : c.isDigit with
      | false => exact .inl (by simp [scanDigits, hc])
      | true =>
          refine .inr ⟨?_, c, rfl, hc⟩
          rw [scanDigits, List.dropWhile_cons_of_pos hc]
          exact Nat.lt_succ_of_le (List.length_dropWhile_le ..)

theorem length_scanExponent_le (cs : List Char) : (scanExponent cs).2.length ≤ cs.length := by
  obtain ⟨text, -, hcs⟩ := scanExponent_sound cs
  have hlength := congrArg List.length hcs
  rw [List.length_append] at hlength
  omega

theorem length_scanFraction_le (hasInteger : Bool) (cs : List Char) :
    (scanFraction hasInteger cs).2.length ≤ cs.length := by
  rcases scanFraction_sound hasInteger cs with hnone | ⟨fraction, rest, rfl, -, -, hscan⟩
  · rw [hnone]
  · simp only [hscan, List.length_cons, List.length_append]
    omega

theorem ne_sign_of_isDigit {c : Char} (hc : c.isDigit = true) : c ≠ '+' ∧ c ≠ '-' := by
  constructor <;> rintro rfl <;> cases hc

theorem AllDigits.isDigit_head {ds : List Char} (hds : AllDigits ds) (hne : ds ≠ [])
    (rest : List Char) : ∀ c ∈ (ds ++ rest).head?, c.isDigit = true := by
  intro c hc
  cases ds with
  | nil => exact absurd rfl hne
  | cons d ds =>
      cases hc
      exact hds c List.mem_cons_self

theorem scanExponent_takes {e : Int} {text : List Char} (h : ExponentText exponentValue e text)
    (rest : List Char) : TakesAtLeast (scanExponent (text ++ rest)) e rest := by
  cases h with
  | none =>
      obtain ⟨text, htext, hrest⟩ := scanExponent_sound rest
      rw [List.nil_append]
      generalize scanExponent rest = scanned at htext hrest
      obtain ⟨e, behind⟩ := scanned
      cases htext with
      | none => exact .inl (Prod.ext rfl hrest.symm)
      | marked =>
          right
          rw [hrest, List.length_append, List.length_cons]
          simp only
          omega
  | @marked mark negative sign digits hmark hsign hne hdigits =>
      have hhead : ∀ c ∈ (digits ++ rest).head?, c ≠ '+' ∧ c ≠ '-' :=
        fun c hc ↦ ne_sign_of_isDigit (hdigits.isDigit_head hne rest c hc)
      have hempty : (digits ++ (scanDigits rest).1).isEmpty = false := by simp [hne]
      rw [List.cons_append, List.append_assoc]
      simp only [scanExponent, if_pos hmark, scanSign_append hsign hhead, scanDigits_more hdigits,
        hempty, Bool.false_eq_true, if_false]
      rcases scanDigits_cases rest with hnone | ⟨hless, -⟩
      · left
        rw [hnone, List.append_nil]
      · exact .inr hless

theorem scanDecimal?_parts {cs tail rest i f : List Char} (hi : scanDigits cs = (i, tail))
    (hf : scanFraction (!i.isEmpty) tail = (f, rest)) (hne : i ≠ [] ∨ f ≠ []) :
    scanDecimal? cs =
      some (⟨digitsValue (i ++ f), (scanExponent rest).1 - f.length⟩, (scanExponent rest).2) := by
  have hempty : (i.isEmpty && f.isEmpty) = false := by
    rw [Bool.and_eq_false_iff]
    simpa using hne
  simp only [scanDecimal?, hi, hf, hempty, Bool.false_eq_true, if_false]

/-- The digits before and behind the point, which are those of a mantissa at the beginning of
the text or go on behind it. -/
def ScansMantissa (cs integer fraction tail : List Char) : Prop :=
  ∃ i f rest, scanDecimal? cs =
      some (⟨digitsValue (i ++ f), (scanExponent rest).1 - f.length⟩, (scanExponent rest).2) ∧
    ((i = integer ∧ f = fraction ∧ rest = tail) ∨
      rest.length < tail.length ∧ ∃ c ∈ tail.head?, c.isDigit = true ∨ c = '.')

theorem scansMantissa_whole {integer : List Char} (hinteger : AllDigits integer)
    (hne : integer ≠ []) (tail : List Char) : ScansMantissa (integer ++ tail) integer [] tail := by
  have hi := scanDigits_more hinteger tail
  have hempty : (!(integer ++ (scanDigits tail).1).isEmpty) = true := by simp [hne]
  rcases scanDigits_cases tail with hnone | ⟨hless, c, hc, hdigit⟩
  · rw [hnone, List.append_nil] at hi hempty
    rcases scanFraction_sound true tail with
      hfraction | ⟨f, rest, htail, -, -, hfraction⟩
    · rw [← hempty] at hfraction
      exact ⟨_, _, _, scanDecimal?_parts hi hfraction (.inl hne), .inl ⟨rfl, rfl, rfl⟩⟩
    · rw [← hempty] at hfraction
      refine ⟨_, _, _, scanDecimal?_parts hi hfraction (.inl hne), .inr ⟨?_, '.', ?_, .inr rfl⟩⟩
      · rw [htail, List.length_cons, List.length_append]
        omega
      · rw [htail]
        rfl
  · refine ⟨_, _, _, scanDecimal?_parts hi rfl (.inl (by simp [hne])),
      .inr ⟨?_, c, hc, .inl hdigit⟩⟩
    exact Nat.lt_of_le_of_lt (length_scanFraction_le ..) hless

theorem scansMantissa_point {cs integer fraction tail : List Char}
    (hi : scanDigits cs = (integer, '.' :: (fraction ++ tail))) (hfraction : AllDigits fraction)
    (hne : integer ≠ [] ∨ fraction ≠ []) : ScansMantissa cs integer fraction tail := by
  have hf : scanFraction (!integer.isEmpty) ('.' :: (fraction ++ tail)) =
      (fraction ++ (scanDigits tail).1, (scanDigits tail).2) := by
    simp only [scanFraction, scanDigits_more hfraction]
    rw [if_pos]
    rcases hne with hne | hne <;> simp [hne]
  have hsome : integer ≠ [] ∨ fraction ++ (scanDigits tail).1 ≠ [] :=
    hne.imp_right (List.append_ne_nil_of_left_ne_nil · _)
  rcases scanDigits_cases tail with hnone | ⟨hless, c, hc, hdigit⟩
  · rw [hnone, List.append_nil] at hf
    exact ⟨_, _, _, scanDecimal?_parts hi hf hne, .inl ⟨rfl, rfl, rfl⟩⟩
  · exact ⟨_, _, _, scanDecimal?_parts hi hf hsome, .inr ⟨hless, c, hc, .inl hdigit⟩⟩

theorem MantissaText.scans {integer fraction mantissa : List Char}
    (h : MantissaText integer fraction mantissa) (hinteger : AllDigits integer)
    (hfraction : AllDigits fraction) (tail : List Char) :
    ScansMantissa (mantissa ++ tail) integer fraction tail := by
  have hpoint : ∀ c ∈ ('.' :: (fraction ++ tail)).head?, c.isDigit = false := by
    rintro c ⟨⟩
    rfl
  cases h with
  | whole hne => exact scansMantissa_whole hinteger hne tail
  | point hne =>
      rw [List.append_assoc]
      exact scansMantissa_point (scanDigits_append hinteger hpoint) hfraction (.inl hne)
  | bare hne => exact scansMantissa_point (scanDigits_append hinteger hpoint) hfraction (.inr hne)

/-- A mantissa begins with a digit or with a point. -/
theorem MantissaText.exists_head {integer fraction mantissa : List Char}
    (h : MantissaText integer fraction mantissa) (hinteger : AllDigits integer) :
    ∃ c cs, mantissa = c :: cs ∧ (c.isDigit = true ∨ c = '.') := by
  have hdigit (hne : integer ≠ []) : ∃ c cs, integer = c :: cs ∧ c.isDigit = true := by
    obtain ⟨c, cs, rfl⟩ := List.exists_cons_of_ne_nil hne
    exact ⟨c, cs, rfl, hinteger c List.mem_cons_self⟩
  cases h with
  | whole hne =>
      obtain ⟨c, cs, rfl, hc⟩ := hdigit hne
      exact ⟨c, cs, rfl, .inl hc⟩
  | point hne =>
      obtain ⟨c, cs, rfl, hc⟩ := hdigit hne
      exact ⟨c, _, rfl, .inl hc⟩
  | bare hne => exact ⟨'.', fraction, rfl, .inr rfl⟩

theorem scanDecimal?_takes {integer fraction mantissa exponent : List Char} {e : Int}
    (hinteger : AllDigits integer) (hfraction : AllDigits fraction)
    (hmantissa : MantissaText integer fraction mantissa)
    (hexponent : ExponentText exponentValue e exponent) (rest : List Char) :
    ∃ scanned, scanDecimal? (mantissa ++ (exponent ++ rest)) = some scanned ∧
      TakesAtLeast scanned ⟨foldDigits (integer ++ fraction), e - fraction.length⟩ rest := by
  obtain ⟨i, f, tail, hscan, ⟨rfl, rfl, rfl⟩ | ⟨hless, c, hc, hmore⟩⟩ :=
    hmantissa.scans hinteger hfraction (exponent ++ rest)
  · refine ⟨_, hscan, ?_⟩
    rcases scanExponent_takes hexponent rest with hexact | hfurther
    · left
      rw [hexact, digitsValue_eq_foldDigits]
    · exact .inr hfurther
  · -- the text goes on with a digit or a point, so no exponent was asked for
    have hlength := length_scanExponent_le tail
    cases hexponent with
    | none => exact ⟨_, hscan, .inr (Nat.lt_of_le_of_lt hlength hless)⟩
    | marked hmark =>
        cases hc
        rcases hmark with rfl | rfl <;> rcases hmore with hmore | hmore <;> cases hmore

/-- At the beginning of a text the scan takes off a numeral or more. -/
theorem scanNumeral?_takes {n : List Char} {v : Float} (h : Numeral exponentValue n v)
    (rest : List Char) :
    ∃ scanned, scanNumeral? (n ++ rest) = some scanned ∧ TakesAtLeast scanned v rest := by
  cases h with
  | infinity hsign =>
      have hbody : ∀ c ∈ (infinityWord ++ rest).head?, c ≠ '+' ∧ c ≠ '-' := by
        rintro c ⟨⟩
        decide
      have hword : infinityWord.isPrefixOf (infinityWord ++ rest) = true :=
        List.isPrefixOf_iff_prefix.mpr (List.prefix_append _ _)
      rw [List.append_assoc]
      simp only [scanNumeral?, scanSign_append hsign hbody, scanMagnitude?, hword, if_true,
        List.drop_left, Option.map_some]
      exact ⟨_, rfl, .inl rfl⟩
  | @decimal _ _ _ _ _ exponent _ hsign hinteger hfraction hmantissa hexponent =>
      obtain ⟨scanned, hscan, htakes⟩ :=
        scanDecimal?_takes hinteger hfraction hmantissa hexponent rest
      obtain ⟨c, cs, rfl, hc⟩ := hmantissa.exists_head hinteger
      have hbody : ∀ d ∈ (c :: cs ++ (exponent ++ rest)).head?, d ≠ '+' ∧ d ≠ '-' := by
        rintro d ⟨⟩
        rcases hc with hc | rfl
        · exact ne_sign_of_isDigit hc
        · decide
      have hword : infinityWord.isPrefixOf (c :: cs ++ (exponent ++ rest)) = false := by
        have hne : ('I' == c) = false := by
          rw [beq_eq_false_iff_ne]
          rintro rfl
          rcases hc with hc | hc <;> cases hc
        rw [infinityWord, List.cons_append, List.isPrefixOf, hne, Bool.false_and]
      rw [List.append_assoc, List.append_assoc]
      simp only [scanNumeral?, scanSign_append hsign hbody, scanMagnitude?, hword, hscan,
        Bool.false_eq_true, if_false, Option.map_some, Decimal.toMagnitude_eq_rounded]
      refine ⟨_, rfl, ?_⟩
      rcases htakes with rfl | hfurther
      · exact .inl rfl
      · exact .inr hfurther

/-- A text that is a numeral is taken off as a whole, so it denotes one number. -/
theorem Numeral.scan {n : List Char} {v : Float} (h : Numeral exponentValue n v) :
    scanNumeral? n = some (v, []) := by
  obtain ⟨scanned, hscan, hexact | hfurther⟩ := scanNumeral?_takes h []
  · rw [← hexact, ← hscan, List.append_nil]
  · cases hfurther

/-! ## The longest numeral -/

/-- Of the numerals that the text begins with, this is the longest. -/
structure LongestNumeral (cs n : List Char) (v : Float) : Prop where
  numeral : Numeral exponentValue n v
  begins : n <+: cs
  longest : ∀ m w, Numeral exponentValue m w → m <+: cs → m.length ≤ n.length

theorem longestNumeral_of_scan {cs rest : List Char} {v : Float}
    (h : scanNumeral? cs = some (v, rest)) : ∃ n, LongestNumeral cs n v := by
  obtain ⟨n, hn, hcs⟩ := scanNumeral?_sound h
  refine ⟨n, hn, ⟨rest, hcs.symm⟩, ?_⟩
  rintro m w hm ⟨behind, rfl⟩
  have hlength := congrArg List.length hcs
  obtain ⟨scanned, hscan, htakes⟩ := scanNumeral?_takes hm behind
  obtain rfl : scanned = (v, rest) := Option.some.inj (hscan.symm.trans h)
  rw [List.length_append, List.length_append] at hlength
  rcases htakes with hexact | hfurther
  · cases hexact
    omega
  · simp only at hfurther
    omega

theorem LongestNumeral.scan {cs n : List Char} {v : Float} (h : LongestNumeral cs n v) :
    ∃ rest, scanNumeral? cs = some (v, rest) := by
  obtain ⟨behind, rfl⟩ := h.begins
  obtain ⟨⟨w, rest⟩, hscan, htakes⟩ := scanNumeral?_takes h.numeral behind
  rcases htakes with hexact | hfurther
  · cases hexact
    exact ⟨_, hscan⟩
  · -- what is taken off would be a longer numeral
    obtain ⟨m, hm, hcs⟩ := scanNumeral?_sound hscan
    have hle := h.longest m w hm ⟨rest, hcs.symm⟩
    have hlength := congrArg List.length hcs
    rw [List.length_append, List.length_append] at hlength
    simp only at hfurther
    omega

/-! ## Characters -/

def IsMantissaChar (c : Char) : Prop :=
  c.isDigit = true ∨ c ∈ ['+', '-', '.']

def IsNumeralChar (c : Char) : Prop :=
  IsMantissaChar c ∨ c ∈ 'e' :: 'E' :: infinityWord

theorem AllDigits.isMantissaChar {ds : List Char} (h : AllDigits ds) :
    ∀ c ∈ ds, IsMantissaChar c :=
  fun c hc ↦ .inl (h c hc)

theorem SignText.isMantissaChar {negative : Bool} {sign : List Char} (h : SignText negative sign) :
    ∀ c ∈ sign, IsMantissaChar c := by
  cases h with
  | none => exact List.forall_mem_nil _
  | plus => exact List.forall_mem_singleton.mpr (.inr (by decide))
  | minus => exact List.forall_mem_singleton.mpr (.inr (by decide))

theorem MantissaText.isMantissaChar {integer fraction mantissa : List Char}
    (h : MantissaText integer fraction mantissa) (hinteger : AllDigits integer)
    (hfraction : AllDigits fraction) : ∀ c ∈ mantissa, IsMantissaChar c := by
  have hpoint : ∀ c ∈ '.' :: fraction, IsMantissaChar c :=
    List.forall_mem_cons.mpr ⟨.inr (by decide), hfraction.isMantissaChar⟩
  cases h with
  | whole hne => exact hinteger.isMantissaChar
  | point hne => exact List.forall_mem_append.mpr ⟨hinteger.isMantissaChar, hpoint⟩
  | bare hne => exact hpoint

theorem ExponentText.isNumeralChar {digitsOf : List Char → Nat} {e : Int} {text : List Char}
    (h : ExponentText digitsOf e text) : ∀ c ∈ text, IsNumeralChar c := by
  cases h with
  | none => exact List.forall_mem_nil _
  | marked hmark hsign hne hdigits =>
      have hvalue := List.forall_mem_append.mpr ⟨hsign.isMantissaChar, hdigits.isMantissaChar⟩
      refine List.forall_mem_cons.mpr ⟨.inr ?_, fun c hc ↦ .inl (hvalue c hc)⟩
      rcases hmark with rfl | rfl <;> decide

theorem Numeral.isNumeralChar {digitsOf : List Char → Nat} {n : List Char} {v : Float}
    (h : Numeral digitsOf n v) : ∀ c ∈ n, IsNumeralChar c := by
  cases h with
  | infinity hsign =>
      exact List.forall_mem_append.mpr ⟨fun c hc ↦ .inl (hsign.isMantissaChar c hc),
        fun c hc ↦ .inr (List.mem_cons_of_mem _ (List.mem_cons_of_mem _ hc))⟩
  | decimal hsign hinteger hfraction hmantissa hexponent =>
      have hbefore := hmantissa.isMantissaChar hinteger hfraction
      exact List.forall_mem_append.mpr ⟨fun c hc ↦ .inl (hsign.isMantissaChar c hc),
        List.forall_mem_append.mpr ⟨fun c hc ↦ .inl (hbefore c hc), hexponent.isNumeralChar⟩⟩

/-! ## Blanks -/

theorem trimStart_eq_trim_append (cs : List Char) :
    ∃ blanks, trimStart cs = trim cs ++ blanks ∧ ∀ c ∈ blanks, isBlank c = true := by
  refine ⟨((trimStart cs).reverse.takeWhile isBlank).reverse, ?_, ?_⟩
  · rw [trim, trimEnd, ← List.reverse_append, List.takeWhile_append_dropWhile, List.reverse_reverse]
  · intro c hc
    exact List.mem_takeWhile_imp (List.mem_reverse.mp hc)

theorem trim_eq_nil_iff (cs : List Char) : trim cs = [] ↔ ∀ c ∈ cs, isBlank c = true := by
  constructor
  · intro htrim
    obtain ⟨blanks, hstart, hblanks⟩ := trimStart_eq_trim_append cs
    rw [htrim, List.nil_append] at hstart
    intro c hc
    rw [← List.takeWhile_append_dropWhile (p := isBlank) (l := cs), List.mem_append] at hc
    rcases hc with hc | hc
    · exact List.mem_takeWhile_imp hc
    · exact hblanks c (hstart ▸ hc)
  · intro hblank
    rw [trim, trimStart, List.dropWhile_eq_nil_iff.mpr hblank]
    rfl

theorem IsNumeralChar.not_blank {c : Char} (h : IsNumeralChar c) : isBlank c = false := by
  have hmarks : ∀ c ∈ ['+', '-', '.'] ++ 'e' :: 'E' :: infinityWord,
      33 ≤ c.toNat ∧ c.toNat ≤ 126 := by
    simp [infinityWord]
  have hrange : 33 ≤ c.toNat ∧ c.toNat ≤ 126 := by
    rcases h with (hdigit | hmark) | hmark
    · have hdigits : 48 ≤ c.toNat ∧ c.toNat ≤ 57 := Char.isDigit_iff_toNat.mp hdigit
      omega
    · exact hmarks c (List.mem_append_left _ hmark)
    · exact hmarks c (List.mem_append_right _ hmark)
  exact isBlank_eq_false hrange.1 hrange.2

/-- Blanks behind a numeral are not part of a longer one. -/
theorem longestNumeral_append_blanks {n blanks : List Char} {v : Float}
    (h : Numeral exponentValue n v) (hblanks : ∀ c ∈ blanks, isBlank c = true) :
    LongestNumeral (n ++ blanks) n v := by
  refine ⟨h, List.prefix_append _ _, fun m w hm hbegins ↦ ?_⟩
  by_contra hlonger
  obtain ⟨more, rfl⟩ := List.prefix_of_prefix_length_le (List.prefix_append n blanks) hbegins
    (by omega)
  cases more with
  | nil => simp at hlonger
  | cons c more =>
      rw [List.prefix_append_right_inj] at hbegins
      have hblank := hblanks c (hbegins.subset List.mem_cons_self)
      have hnot := (hm.isNumeralChar c (List.mem_append_right _ List.mem_cons_self)).not_blank
      rw [hblank] at hnot
      cases hnot

/-! ## Exact values -/

theorem foldDigits_cons (c : Char) (ds : List Char) :
    foldDigits (c :: ds) = digitValue c * 10 ^ ds.length + foldDigits ds := by
  have h := foldDigits_append [c] ds
  rwa [foldDigits, foldDigits, List.foldl_cons, List.foldl_nil, Nat.mul_zero, Nat.zero_add] at h

theorem AllDigits.foldDigits_lt {ds : List Char} (h : AllDigits ds) :
    foldDigits ds < 10 ^ ds.length := by
  induction ds with
  | nil => exact Nat.one_pos
  | cons c ds ih =>
      obtain ⟨hc, hds⟩ := List.forall_mem_cons.mp h
      have hrange : 48 ≤ c.toNat ∧ c.toNat ≤ 57 := Char.isDigit_iff_toNat.mp hc
      have hdigit : digitValue c ≤ 9 := by
        have hzero : '0'.toNat = 48 := rfl
        rw [digitValue, hzero]
        omega
      have hmul := Nat.mul_le_mul_right (10 ^ ds.length) hdigit
      have hih := ih hds
      rw [foldDigits_cons, List.length_cons, Nat.pow_succ]
      omega

/-- An exponent below the bound was read to its last digit. -/
theorem foldDigits_eq_exponentValue {ds : List Char} (h : exponentValue ds < exponentBound) :
    foldDigits ds = exponentValue ds := by
  have hstuck : ∀ ds : List Char, ∀ n, exponentBound ≤ n →
      ds.foldl (fun n c ↦ if n < exponentBound then 10 * n + digitValue c else n) n = n := by
    intro ds n hn
    induction ds with
    | nil => rfl
    | cons c ds ih => rw [List.foldl_cons, if_neg (Nat.not_lt.mpr hn), ih]
  have hfold : ∀ n,
      ds.foldl (fun n c ↦ if n < exponentBound then 10 * n + digitValue c else n) n <
        exponentBound →
      ds.foldl (fun n c ↦ 10 * n + digitValue c) n =
        ds.foldl (fun n c ↦ if n < exponentBound then 10 * n + digitValue c else n) n := by
    clear h
    induction ds with
    | nil => exact fun n _ ↦ rfl
    | cons c ds ih =>
        intro n hn
        by_cases hsmall : n < exponentBound
        · rw [List.foldl_cons, if_pos hsmall] at hn
          rw [List.foldl_cons, List.foldl_cons, if_pos hsmall]
          exact ih _ hn
        · rw [hstuck _ _ (Nat.le_of_not_lt hsmall)] at hn
          exact absurd hn hsmall
  exact hfold 0 h

/-- Two readings of the digits of an exponent are the same, or both are out of range. -/
theorem exponentValue_cases (ds : List Char) :
    exponentValue ds = foldDigits ds ∨
      exponentBound ≤ exponentValue ds ∧ exponentBound ≤ foldDigits ds := by
  by_cases hexact : exponentValue ds < exponentBound
  · exact .inl (foldDigits_eq_exponentValue hexact).symm
  · by_cases hsmall : foldDigits ds < exponentBound
    · exact .inl (exponentValue_eq_foldDigits hsmall)
    · exact .inr ⟨Nat.le_of_not_lt hexact, Nat.le_of_not_lt hsmall⟩

/-- The number of characters below which the digits of an exponent are read exactly. -/
def exactLength : Nat := 60000

/-- Exponents that are out of range give the same magnitude. -/
theorem rounded_eq_of_beyond {digits places behind a b : Nat} (negative : Bool)
    (hdigits : digits < 10 ^ places) (hbehind : behind ≤ places) (hplaces : places < exactLength)
    (ha : exponentBound ≤ a) (hb : exponentBound ≤ b) :
    Decimal.rounded ⟨digits, (if negative then -(a : Int) else a) - behind⟩ =
      Decimal.rounded ⟨digits, (if negative then -(b : Int) else b) - behind⟩ := by
  have hbound : exponentBound = 65536 := rfl
  have hlength : exactLength = 60000 := rfl
  have hfloor : Decimal.valueFloor = -330 := rfl
  have hceiling : Decimal.exponentCeiling = 310 := rfl
  cases negative with
  | true =>
      simp only [if_true]
      rw [Decimal.rounded_eq_zero hdigits (by simp only; omega),
        Decimal.rounded_eq_zero hdigits (by simp only; omega)]
  | false =>
      simp only [Bool.false_eq_true, if_false]
      by_cases hzero : digits = 0
      · subst hzero
        simp only [← Decimal.toMagnitude_eq_rounded, Decimal.toMagnitude, if_true]
      · rw [Decimal.rounded_eq_infinity hzero (by simp only; omega),
          Decimal.rounded_eq_infinity hzero (by simp only; omega)]

theorem MantissaText.length_le {integer fraction mantissa : List Char}
    (h : MantissaText integer fraction mantissa) :
    (integer ++ fraction).length ≤ mantissa.length := by
  cases h <;> simp

/-- The reading of exponents makes no difference to the values of short numerals. -/
theorem Numeral.of_short {digitsOf digitsOf' : List Char → Nat}
    (hcases : ∀ ds, digitsOf ds = digitsOf' ds ∨
      exponentBound ≤ digitsOf ds ∧ exponentBound ≤ digitsOf' ds)
    {n : List Char} {v : Float} (hshort : n.length < exactLength) (h : Numeral digitsOf n v) :
    Numeral digitsOf' n v := by
  cases h with
  | infinity hsign => exact .infinity hsign
  | @decimal negative sign integer fraction mantissa exponent e hsign hinteger hfraction hmantissa
      hexponent =>
      cases hexponent with
      | none => exact .decimal hsign hinteger hfraction hmantissa .none
      | @marked mark negative' sign' digits hmark hsign' hne hdigits =>
          have hmarked : Numeral digitsOf' _ _ := .decimal hsign hinteger hfraction hmantissa
            (.marked hmark hsign' hne hdigits)
          rcases hcases digits with hsame | ⟨hbeyond, hbeyond'⟩
          · rwa [hsame]
          · have hlength := hmantissa.length_le
            have hdigits : AllDigits (integer ++ fraction) :=
              List.forall_mem_append.mpr ⟨hinteger, hfraction⟩
            simp only [List.length_append] at hshort
            rwa [rounded_eq_of_beyond negative' hdigits.foldDigits_lt (by simp) (by omega) hbeyond
              hbeyond']

/-! ## The two readings of a text -/

theorem wholeNumber_of_ne_nil {text : String} (h : trim text.toList ≠ []) :
    wholeNumber text = match scanNumeral? (trim text.toList) with
      | some (n, []) => n
      | _ => notANumber := by
  rw [wholeNumber]
  split
  · exact absurd ‹_› h
  · rfl

/-- A text that is a numeral between blanks is read as the number it denotes. -/
theorem numbers_of_numeral {text : String} {v : Float}
    (h : Numeral exponentValue (trim text.toList) v) :
    wholeNumber text = v ∧ leadingNumber text = v := by
  have hscan := h.scan
  have hne : trim text.toList ≠ [] := by
    intro hnil
    rw [hnil] at hscan
    cases hscan
  obtain ⟨blanks, hstart, hblanks⟩ := trimStart_eq_trim_append text.toList
  obtain ⟨rest, hlongest⟩ := (longestNumeral_append_blanks h hblanks).scan
  constructor
  · rw [wholeNumber_of_ne_nil hne, hscan]
  · rw [leadingNumber, hstart, hlongest]

theorem wholeNumber_cases {text : String} (hne : trim text.toList ≠ []) :
    Numeral exponentValue (trim text.toList) (wholeNumber text) ∨
      (∀ v, ¬ Numeral exponentValue (trim text.toList) v) ∧ wholeNumber text = notANumber := by
  by_cases hnumeral : ∃ v, Numeral exponentValue (trim text.toList) v
  · obtain ⟨v, hv⟩ := hnumeral
    exact .inl ((numbers_of_numeral hv).1 ▸ hv)
  · refine .inr ⟨fun v hv ↦ hnumeral ⟨v, hv⟩, ?_⟩
    rw [wholeNumber_of_ne_nil hne]
    split
    · rename_i v hscan
      obtain ⟨n, hn, hcs⟩ := scanNumeral?_sound hscan
      rw [List.append_nil] at hcs
      exact absurd ⟨v, hcs ▸ hn⟩ hnumeral
    · rfl

/-- How a text is read as a number, by the grammar of numerals alone. -/
structure ReadByGrammar (text : String) : Prop where
  leading_of_none : (∀ n v, Numeral exponentValue n v → ¬ n <+: trimStart text.toList) →
    leadingNumber text = notANumber
  exists_longest : ∀ n v, Numeral exponentValue n v → n <+: trimStart text.toList →
    ∃ m w, LongestNumeral (trimStart text.toList) m w
  leading_of_longest : ∀ n v, LongestNumeral (trimStart text.toList) n v → leadingNumber text = v
  whole_of_blank : (∀ c ∈ text.toList, isBlank c = true) → wholeNumber text = 0.0
  whole_of_numeral : ∀ v, Numeral exponentValue (trim text.toList) v → wholeNumber text = v
  whole_of_other : ¬ (∀ c ∈ text.toList, isBlank c = true) →
    (∀ v, ¬ Numeral exponentValue (trim text.toList) v) → wholeNumber text = notANumber
  agree : ¬ (∀ c ∈ text.toList, isBlank c = true) → (wholeNumber text).isNaN = false →
    leadingNumber text = wholeNumber text

theorem readByGrammar (text : String) : ReadByGrammar text where
  leading_of_none hnone := by
    rw [leadingNumber]
    split
    · rename_i v rest hscan
      obtain ⟨n, hn, hcs⟩ := scanNumeral?_sound hscan
      exact absurd ⟨rest, hcs.symm⟩ (hnone n v hn)
    · rfl
  exists_longest := by
    rintro n v hn ⟨rest, hcs⟩
    obtain ⟨⟨w, behind⟩, hscan, -⟩ := scanNumeral?_takes hn rest
    rw [hcs] at hscan
    obtain ⟨m, hm⟩ := longestNumeral_of_scan hscan
    exact ⟨m, w, hm⟩
  leading_of_longest n v hlongest := by
    obtain ⟨rest, hscan⟩ := hlongest.scan
    rw [leadingNumber, hscan]
  whole_of_blank hblank := by
    rw [wholeNumber, (trim_eq_nil_iff _).mpr hblank]
  whole_of_numeral v hv := (numbers_of_numeral hv).1
  whole_of_other hblank hnone := by
    rcases wholeNumber_cases (mt (trim_eq_nil_iff _).mp hblank) with hnumeral | ⟨-, hnan⟩
    · exact absurd hnumeral (hnone _)
    · exact hnan
  agree hblank hnumber := by
    rcases wholeNumber_cases (mt (trim_eq_nil_iff _).mp hblank) with hnumeral | ⟨-, hnan⟩
    · exact (numbers_of_numeral hnumeral).2
    · rw [hnan] at hnumber
      cases hnumber

/-- Both readings of a text as a number are given by the longest numeral. The value of a numeral
is the magnitude nearest to its exact value, where the digits of an exponent count in full unless
the numeral has tens of thousands of characters. -/
theorem numbers_read_by_grammar :
    (∀ text, ReadByGrammar text) ∧
      (∀ n v, n.length < exactLength →
        (Numeral exponentValue n v ↔ Numeral foldDigits n v)) ∧
      ∀ d : Decimal, Magnitude.IsNearest (d.fraction.1 * Magnitude.unitsPerOne) d.fraction.2
        d.rounded := by
  refine ⟨readByGrammar, fun n v hshort ↦ ⟨?_, ?_⟩, Decimal.isNearest_rounded⟩
  · exact .of_short exponentValue_cases hshort
  · exact .of_short (fun ds ↦ (exponentValue_cases ds).imp Eq.symm And.symm) hshort

end VexLang
