import Mathlib
import VexLang.Number.Numeral
import VexLang.Number.Text
import VexLang.Proofs.Number.Shortest

/-!
# Printed numbers read back

The text of a number is a numeral, and that numeral denotes the number. The text is
scanned part by part: digits before the point, digits after it, and the exponent.
-/

namespace VexLang

/-- A number is given by its sign and its magnitude. -/
theorem ofMagnitude_magnitude (n : Float) : ofMagnitude (isNegative n) (magnitude n) = n := by
  have hlt : n.toBits.toNat < 2 ^ 64 := n.toBits.toNat_lt
  have hbits : (if isNegative n then signWeight else 0) + magnitude n = n.toBits.toNat := by
    by_cases hsign : signWeight ≤ n.toBits.toNat
    · rw [if_pos (by simpa [isNegative] using hsign)]
      simp only [magnitude, signWeight] at hsign ⊢
      omega
    · rw [if_neg (by simpa [isNegative] using hsign)]
      simp only [magnitude, signWeight] at hsign ⊢
      omega
  rw [ofMagnitude, hbits, UInt64.ofNat_toNat, Float.ofBits_toBits]

theorem digitsValue_eq_ofDigitChars (ds : List Char) :
    digitsValue ds = Nat.ofDigitChars 10 ds 0 := by
  rw [digitsValue_eq_foldDigits, foldDigits, Nat.ofDigitChars_eq_foldl]
  rfl

/-- The bound on exponents is out of sight for every exponent below it. -/
theorem exponentValue_eq_foldDigits {ds : List Char} (h : foldDigits ds < exponentBound) :
    exponentValue ds = foldDigits ds := by
  have hfold : ∀ n, ds.foldl (fun n c ↦ 10 * n + digitValue c) n < exponentBound →
      ds.foldl (fun n c ↦ if n < exponentBound then 10 * n + digitValue c else n) n =
        ds.foldl (fun n c ↦ 10 * n + digitValue c) n := by
    clear h
    induction ds with
    | nil => exact fun n _ ↦ rfl
    | cons c ds ih =>
        intro n hn
        rw [List.foldl_cons] at hn
        have hgrows := foldl_digits ds (10 * n + digitValue c)
        have hpos : 0 < Nat.pow 10 ds.length := Nat.pow_pos (by omega)
        have hle := Nat.le_mul_of_pos_right (10 * n + digitValue c) hpos
        have hsmall : n < exponentBound := by omega
        rw [List.foldl_cons, List.foldl_cons, if_pos hsmall]
        exact ih _ hn
  exact hfold 0 h

theorem scanDigits_append {ds rest : List Char} (hds : ∀ c ∈ ds, c.isDigit = true)
    (hrest : ∀ c ∈ rest.head?, c.isDigit = false) : scanDigits (ds ++ rest) = (ds, rest) := by
  rw [scanDigits, List.takeWhile_append_of_pos hds, List.dropWhile_append_of_pos hds]
  cases rest with
  | nil => simp
  | cons c cs =>
      have hc : c.isDigit = false := hrest c (by simp)
      simp [hc]

theorem scanDigits_digits {ds : List Char} (hds : ∀ c ∈ ds, c.isDigit = true) :
    scanDigits ds = (ds, []) := by
  have hscan : scanDigits (ds ++ []) = (ds, []) := scanDigits_append hds (by simp)
  rwa [List.append_nil] at hscan

/-- Digits, a point, digits, and then an exponent or nothing. -/
theorem scanDecimal?_point {integer fraction tail : List Char} {e : Int}
    (hne : integer ≠ []) (hinteger : ∀ c ∈ integer, c.isDigit = true)
    (hfraction : ∀ c ∈ fraction, c.isDigit = true)
    (hrest : ∀ c ∈ tail.head?, c.isDigit = false) (htail : scanExponent tail = (e, [])) :
    scanDecimal? (integer ++ '.' :: (fraction ++ tail)) =
      some (⟨digitsValue (integer ++ fraction), e - fraction.length⟩, []) := by
  have hpoint : ∀ c ∈ ('.' :: (fraction ++ tail)).head?, c.isDigit = false := by
    intro c hc
    obtain rfl := Option.some.inj hc
    rfl
  have hempty : integer.isEmpty = false := by simpa using hne
  simp [scanDecimal?, scanDigits_append hinteger hpoint, scanFraction, hempty,
    scanDigits_append hfraction hrest, htail]

theorem scanDecimal?_whole {integer tail : List Char} {e : Int}
    (hne : integer ≠ []) (hinteger : ∀ c ∈ integer, c.isDigit = true)
    (hrest : ∀ c ∈ tail.head?, c.isDigit = false ∧ c ≠ '.')
    (htail : scanExponent tail = (e, [])) :
    scanDecimal? (integer ++ tail) = some (⟨digitsValue integer, e⟩, []) := by
  have hfraction : scanFraction true tail = ([], tail) := by
    cases tail with
    | nil => rfl
    | cons c cs =>
        have hc := (hrest c (by simp)).2
        rw [scanFraction]
        intro cs' hcs
        exact hc (List.cons.inj hcs).1
  have hempty : integer.isEmpty = false := by simpa using hne
  simp [scanDecimal?, scanDigits_append hinteger (fun c hc ↦ (hrest c hc).1), hempty,
    hfraction, htail]

namespace Decimal

theorem isDigit_digitText {n : Nat} {c : Char} (hc : c ∈ digitText n) : c.isDigit = true :=
  Nat.isDigit_of_mem_toDigits (by omega) (by omega) hc

theorem digitsValue_digitText (n : Nat) : digitsValue (digitText n) = n := by
  rw [digitsValue_eq_ofDigitChars, digitText, Nat.ofDigitChars_ten_toDigits]

theorem scanExponent_signed {e : Int} (h : e.natAbs < exponentBound) :
    scanExponent ('e' :: (if e < 0 then '-' else '+') :: digitText e.natAbs) = (e, []) := by
  have hvalue : exponentValue (digitText e.natAbs) = e.natAbs := by
    have hfold : foldDigits (digitText e.natAbs) = e.natAbs := by
      rw [← digitsValue_eq_foldDigits, digitsValue_digitText]
    rw [exponentValue_eq_foldDigits (by omega), hfold]
  have hne : (digitText e.natAbs).isEmpty = false := by
    simp [digitText, Nat.toDigits_ne_nil]
  have hdigits : scanDigits (digitText e.natAbs) = (digitText e.natAbs, []) :=
    scanDigits_digits fun c hc ↦ isDigit_digitText hc
  by_cases hsign : e < 0
  · have hneg : -(e.natAbs : Int) = e := by omega
    simp only [scanExponent, if_pos hsign, scanSign, hdigits, hne, hvalue, hneg]
    rfl
  · have hnonneg : (e.natAbs : Int) = e := by omega
    simp only [scanExponent, if_neg hsign, scanSign, hdigits, hne, hvalue, hnonneg]
    rfl

/-- A decimal that is written with an exponent is read as it is. -/
theorem scanDecimal?_scientific {d : Decimal}
    (h : ((digitText d.digits).length + d.exponent - 1).natAbs < exponentBound) :
    scanDecimal? d.scientific = some (d, []) := by
  have hexponent := scanExponent_signed h
  have hall : ∀ c ∈ digitText d.digits, c.isDigit = true := fun c hc ↦ isDigit_digitText hc
  have hvalue := digitsValue_digitText d.digits
  rw [scientific]
  cases hdigits : digitText d.digits with
  | nil => exact absurd hdigits Nat.toDigits_ne_nil
  | cons first more =>
      rw [hdigits] at hexponent hall hvalue
      have hfirst : ∀ c ∈ [first], c.isDigit = true := fun c hc ↦
        hall c (List.mem_cons.mpr (.inl (List.mem_singleton.mp hc)))
      cases more with
      | nil =>
          have hscan := scanDecimal?_whole (List.cons_ne_nil _ _) hfirst (by simp) hexponent
          simp only [hvalue, List.length_singleton] at hscan ⊢
          rw [hscan]
          have he : ((1 : Nat) : Int) + d.exponent - 1 = d.exponent := by omega
          rw [he]
      | cons second rest =>
          have hrest : ∀ c ∈ second :: rest, c.isDigit = true := fun c hc ↦
            hall c (List.mem_cons_of_mem _ hc)
          have hscan := scanDecimal?_point (List.cons_ne_nil _ _) hfirst hrest (by simp) hexponent
          simp only [List.cons_append, List.nil_append, hvalue] at hscan ⊢
          rw [hscan]
          have he : ((first :: second :: rest).length : Int) + d.exponent - 1 -
              (second :: rest).length = d.exponent := by
            simp only [List.length_cons]
            omega
          rw [he]

theorem isDigit_zeros {n : Nat} {c : Char} (hc : c ∈ List.replicate n '0') :
    c.isDigit = true := by
  rw [List.eq_of_mem_replicate hc]
  rfl

/-- Zeros at the end of the digits of a whole number are a power of ten. -/
theorem toMagnitude_whole {d : Decimal} (h : d.InRange) (he : 0 ≤ d.exponent) :
    toMagnitude ⟨d.digits * 10 ^ d.exponent.toNat, 0⟩ = d.toMagnitude := by
  have hrange : InRange ⟨d.digits * 10 ^ d.exponent.toNat, 0⟩ := by
    refine ⟨Nat.mul_ne_zero h.nonzero (Nat.pow_pos (by omega)).ne', ?_, ?_⟩
    · simp only [exponentCeiling]
      omega
    · simp only [valueFloor]
      omega
  have hneg : (-d.exponent).toNat = 0 := by omega
  rw [hrange.toMagnitude_eq, h.toMagnitude_eq, hneg]
  simp

theorem digitsValue_zeros_append (n : Nat) (ds : List Char) :
    digitsValue (List.replicate n '0' ++ ds) = digitsValue ds := by
  rw [digitsValue_eq_ofDigitChars, Nat.ofDigitChars_append, Nat.ofDigitChars_replicate_zero,
    Nat.mul_zero, digitsValue_eq_ofDigitChars]

theorem digitsValue_append_zeros (ds : List Char) (n : Nat) :
    digitsValue (ds ++ List.replicate n '0') = digitsValue ds * 10 ^ n := by
  rw [digitsValue_eq_ofDigitChars, Nat.ofDigitChars_append, Nat.ofDigitChars_replicate_zero,
    Nat.mul_comm, digitsValue_eq_ofDigitChars]

/-- A decimal that is written without an exponent is read as an equal one. -/
theorem scanDecimal?_positional {d : Decimal} (h : d.InRange) :
    ∃ d', scanDecimal? d.positional = some (d', []) ∧ d'.toMagnitude = d.toMagnitude := by
  have hall : ∀ c ∈ digitText d.digits, c.isDigit = true := fun c hc ↦ isDigit_digitText hc
  have hne : digitText d.digits ≠ [] := Nat.toDigits_ne_nil
  have hvalue := digitsValue_digitText d.digits
  have hend : scanExponent [] = (0, []) := rfl
  simp only [positional]
  generalize digitText d.digits = digits at hall hne hvalue
  split
  case isTrue hpoint =>
    -- all digits stand behind the point, after zeros
    refine ⟨d, ?_, rfl⟩
    have hfraction : ∀ c ∈ List.replicate (-(digits.length + d.exponent)).toNat '0' ++ digits,
        c.isDigit = true := by
      intro c hc
      rcases List.mem_append.mp hc with hc | hc
      · exact isDigit_zeros hc
      · exact hall c hc
    have hscan := scanDecimal?_point (List.cons_ne_nil '0' []) (by simp) hfraction
      (by simp) hend
    have hzeros : ['0'] ++ (List.replicate (-(digits.length + d.exponent)).toNat '0' ++ digits) =
        List.replicate ((-(digits.length + d.exponent)).toNat + 1) '0' ++ digits := rfl
    have hplaces : (0 : Int) - (List.replicate (-(digits.length + d.exponent)).toNat '0' ++
        digits).length = d.exponent := by
      rw [List.length_append, List.length_replicate]
      omega
    rw [List.append_nil, hzeros, digitsValue_zeros_append, hvalue, hplaces] at hscan
    exact hscan
  case isFalse hpoint =>
    split
    case isTrue hinside =>
      -- the point stands among the digits
      refine ⟨d, ?_, rfl⟩
      have hbefore : digits.take (digits.length + d.exponent).toNat ≠ [] := by
        intro hnil
        rcases List.take_eq_nil_iff.mp hnil with hzero | hzero
        · omega
        · exact hne hzero
      have hafter : ∀ c ∈ digits.drop (digits.length + d.exponent).toNat, c.isDigit = true :=
        fun c hc ↦ hall c (List.mem_of_mem_drop hc)
      have hscan := scanDecimal?_point hbefore (fun c hc ↦ hall c (List.mem_of_mem_take hc))
        hafter (by simp) hend
      have hplaces : (0 : Int) - (digits.drop (digits.length + d.exponent).toNat).length =
          d.exponent := by
        rw [List.length_drop]
        omega
      rw [List.append_nil, List.take_append_drop, hvalue, hplaces] at hscan
      exact hscan
    case isFalse houtside =>
      -- zeros follow the digits, and what is read has them as digits
      refine ⟨_, ?_, toMagnitude_whole h (by omega)⟩
      have hdigits : ∀ c ∈ digits ++ List.replicate d.exponent.toNat '0', c.isDigit = true := by
        intro c hc
        rcases List.mem_append.mp hc with hc | hc
        · exact hall c hc
        · exact isDigit_zeros hc
      have hscan := scanDecimal?_whole (List.append_ne_nil_of_left_ne_nil hne _) hdigits
        (by simp) hend
      rw [List.append_nil, digitsValue_append_zeros, hvalue] at hscan
      exact hscan

theorem isDigit_head_scientific {d : Decimal} {c : Char} (hc : d.scientific.head? = some c) :
    c.isDigit = true := by
  have hall : ∀ c ∈ digitText d.digits, c.isDigit = true := fun c hc ↦ isDigit_digitText hc
  simp only [scientific] at hc
  generalize hdigits : digitText d.digits = digits at hc hall
  rcases digits with - | ⟨first, - | ⟨second, more⟩⟩
  · exact absurd hdigits Nat.toDigits_ne_nil
  · exact hall c (by simpa [eq_comm] using hc)
  · have hfirst : first = c := Option.some.inj hc
    exact hall c (by simp [hfirst])

theorem isDigit_head_positional {d : Decimal} {c : Char} (hc : d.positional.head? = some c) :
    c.isDigit = true := by
  have hall : ∀ c ∈ digitText d.digits, c.isDigit = true := fun c hc ↦ isDigit_digitText hc
  simp only [positional] at hc
  generalize hdigits : digitText d.digits = digits at hc hall
  cases digits with
  | nil => exact absurd hdigits Nat.toDigits_ne_nil
  | cons first more =>
      have hfirst : first.isDigit = true := hall first (by simp)
      split at hc
      case isTrue =>
        obtain rfl := Option.some.inj hc
        rfl
      case isFalse hpoint =>
        split at hc
        case isTrue =>
          obtain ⟨k, hk⟩ : ∃ k, (((first :: more).length : Int) + d.exponent).toNat = k + 1 :=
            ⟨_, (Nat.succ_pred_eq_of_pos (by omega)).symm⟩
          rw [hk, List.take_succ_cons] at hc
          obtain rfl := Option.some.inj hc
          exact hfirst
        case isFalse =>
          obtain rfl := Option.some.inj hc
          exact hfirst

/-- The text of a finite decimal begins with a digit and denotes its magnitude. -/
theorem scanMagnitude?_text {d : Decimal} (hpos : 0 < d.toMagnitude)
    (hfinite : d.toMagnitude < Magnitude.infinity) {text : List Char}
    (htext : text = d.scientific ∨ text = d.positional) :
    ∃ c cs, text = c :: cs ∧ c.isDigit = true ∧
      scanMagnitude? (c :: cs) = some (d.toMagnitude, []) := by
  have hscan : ∃ d', scanDecimal? text = some (d', []) ∧ d'.toMagnitude = d.toMagnitude := by
    rcases htext with rfl | rfl
    · refine ⟨d, scanDecimal?_scientific ?_, rfl⟩
      have hbounds := pointPlace_bounds hpos hfinite
      rw [digitText, exponentBound]
      omega
    · exact scanDecimal?_positional (inRange_of_toMagnitude hpos hfinite)
  obtain ⟨d', hd, hmagnitude⟩ := hscan
  cases text with
  | nil => cases hd
  | cons c cs =>
      have hc : c.isDigit = true := by
        rcases htext with htext | htext
        · exact isDigit_head_scientific (by rw [← htext]; rfl)
        · exact isDigit_head_positional (by rw [← htext]; rfl)
      have hword : infinityWord.isPrefixOf (c :: cs) = false := by
        have hne : ('I' == c) = false := by
          rw [beq_eq_false_iff_ne]
          rintro rfl
          cases hc
        simp [infinityWord, List.isPrefixOf, hne]
      refine ⟨c, cs, rfl, hc, ?_⟩
      rw [scanMagnitude?, hword, hd]
      simp [hmagnitude]

end Decimal

theorem scanSign_of_isDigit {c : Char} (hc : c.isDigit = true) (cs : List Char) :
    scanSign (c :: cs) = (false, c :: cs) := by
  rw [scanSign]
  · rintro cs' ⟨⟩
    cases hc
  · rintro cs' ⟨⟩
    cases hc

/-- The text of a number is a numeral that denotes it. -/
theorem scanNumeral?_numberText {n : Float} (h : magnitude n ≤ Magnitude.infinity)
    (hzero : magnitude n = 0 → isNegative n = false) :
    ∃ c cs, (numberText n).toList = c :: cs ∧ isBlank c = false ∧
      scanNumeral? (c :: cs) = some (n, []) := by
  have hn := ofMagnitude_magnitude n
  rw [numberText, if_neg (Nat.not_lt.mpr h)]
  by_cases hinfinite : magnitude n = Magnitude.infinity
  · rw [if_pos hinfinite]
    rw [hinfinite] at hn
    cases hsign : isNegative n <;> rw [hsign] at hn <;> rw [← hn] <;> exact ⟨_, _, rfl, rfl, rfl⟩
  · rw [if_neg hinfinite]
    by_cases hpos : magnitude n = 0
    · rw [hzero hpos, hpos] at hn
      rw [if_pos hpos, ← hn]
      exact ⟨_, _, rfl, rfl, rfl⟩
    · have hmagnitude := Decimal.toMagnitude_shortest (Nat.pos_of_ne_zero hpos)
        (Nat.lt_of_le_of_ne h hinfinite)
      rw [if_neg hpos, String.toList_ofList, finiteText]
      generalize Decimal.shortest (magnitude n) = d at hmagnitude
      have hforms : (if usesExponent n then d.scientific else d.positional) = d.scientific ∨
          (if usesExponent n then d.scientific else d.positional) = d.positional := by
        split <;> simp
      obtain ⟨c, cs, htext, hc, hscan⟩ := Decimal.scanMagnitude?_text
        (by rw [hmagnitude]; exact Nat.pos_of_ne_zero hpos)
        (by rw [hmagnitude]; exact Nat.lt_of_le_of_ne h hinfinite) hforms
      simp only [htext]
      cases hsign : isNegative n with
      | true =>
          rw [hsign] at hn
          exact ⟨_, _, rfl, rfl, by simp [scanNumeral?, scanSign, hscan, hmagnitude, hn]⟩
      | false =>
          rw [hsign] at hn
          have hrange : 48 ≤ c.toNat ∧ c.toNat ≤ 57 := Char.isDigit_iff_toNat.mp hc
          refine ⟨c, cs, rfl, isBlank_eq_false (by omega) (by omega), ?_⟩
          simp [scanNumeral?, scanSign_of_isDigit hc, hscan, hmagnitude, hn]

theorem leadingNumber_numberText {n : Float} (h : magnitude n ≤ Magnitude.infinity)
    (hzero : magnitude n = 0 → isNegative n = false) : leadingNumber (numberText n) = n := by
  obtain ⟨c, cs, htext, hblank, hscan⟩ := scanNumeral?_numberText h hzero
  rw [leadingNumber, htext, trimStart, List.dropWhile_cons_of_neg (by simp [hblank]), hscan]

end VexLang
