import VexLang.Proofs.Number.Grammar
import VexLang.Value

/-!
# Every printed number is a numeral for itself

The text of a number, other than the undefined one, is taken as a whole by every reading, and
all of them give the number back. Only a zero loses its sign. Printing goes by the magnitude of a
number and comparisons go by its parts, so the two views of the bits are joined first.

A finite number other than zero is printed in exponent notation if it is below `10 ^ (-6)` or at
least `10 ^ 21`, and every other text is free of exponents.
-/

namespace VexLang

open Float.Model Float.Model.UnpackedFloat

/-! ## The kind of number at a magnitude -/

/-- The parts of a number of the given magnitude, as far as comparisons go by them. -/
inductive UnpacksAt : Nat → UnpackedFloat → Prop
  | zero (s : Sign) : UnpacksAt 0 (.zero s)
  | finite {position : Nat} (hpos : 0 < position) (hfinite : position < Magnitude.infinity)
      (s : Sign) (m : Nat) (e : Int) (hm : 0 < m) : UnpacksAt position (.finite s m e hm)
  | infinity (s : Sign) : UnpacksAt Magnitude.infinity (.infinity s)
  | notANumber {position : Nat} (h : Magnitude.infinity < position) :
      UnpacksAt position .notANumber

theorem toNat_unpackExponent (n : Float) :
    (@unpackExponent .binary64 n.toModel.toBits.toBitVec).toNat =
      magnitude n / Magnitude.mantissas := by
  have hlt : n.toBits.toNat < 2 ^ 64 := n.toBits.toNat_lt
  have hfield : (@unpackExponent .binary64 n.toModel.toBits.toBitVec).toNat =
      n.toBits.toNat >>> 52 % 2 ^ 11 := by
    simp only [unpackExponent, BitVec.toNat_cast, BitVec.extractLsb_toNat]
    rfl
  rw [hfield, Nat.shiftRight_eq_div_pow, magnitude, signWeight, Magnitude.mantissas]
  omega

theorem toNat_unpackMantissa (n : Float) :
    (@unpackMantissa .binary64 n.toModel.toBits.toBitVec).toNat =
      magnitude n % Magnitude.mantissas := by
  have hfield : (@unpackMantissa .binary64 n.toModel.toBits.toBitVec).toNat =
      n.toBits.toNat % 2 ^ 52 := by
    simp only [unpackMantissa, BitVec.toNat_cast, BitVec.extractLsb_toNat]
    rfl
  rw [hfield, magnitude, signWeight, Magnitude.mantissas]
  omega

theorem unpacksAt (n : Float) : UnpacksAt (magnitude n) n.toModel.unpack := by
  have hexponent := toNat_unpackExponent n
  have hmantissa := toNat_unpackMantissa n
  have hbelow : magnitude n < signWeight := Nat.mod_lt _ (by decide)
  have hall (e : BitVec 11) : e = -1#11 ↔ e.toNat = 2047 := BitVec.toNat_inj.symm
  have hnone (e : BitVec 11) : e = 0#11 ↔ e.toNat = 0 := BitVec.toNat_inj.symm
  have hzero (m : BitVec 52) : m = 0#52 ↔ m.toNat = 0 := BitVec.toNat_inj.symm
  simp only [signWeight, Magnitude.mantissas] at hexponent hmantissa hbelow
  have hinfinity : Magnitude.infinity = 0x7FF0000000000000 := rfl
  -- An exponent of ones is that of the infinite and the undefined, one of zeros that of zero and
  -- of the numbers close to it.
  rw [Float.Model.unpack, UnpackedFloat.unpack]
  simp only
  split
  case isTrue he =>
    have he := (hall _).mp he
    split
    case isTrue hm =>
      have hm := (hzero _).mp hm
      have hposition : magnitude n = Magnitude.infinity := by omega
      rw [hposition]
      exact .infinity _
    case isFalse hm =>
      have hm := mt (hzero _).mpr hm
      exact .notANumber (by omega)
  case isFalse he =>
    have he := mt (hall _).mpr he
    split
    case isTrue hsmall =>
      have hsmall := (hnone _).mp hsmall
      split
      case isTrue hm =>
        have hm := (hzero _).mp hm
        have hposition : magnitude n = 0 := by omega
        rw [hposition]
        exact .zero _
      case isFalse hm =>
        have hm := mt (hzero _).mpr hm
        exact .finite (by omega) (by omega) _ _ _ _
    case isFalse hnormal =>
      have hnormal := mt (hnone _).mpr hnormal
      exact .finite (by omega) (by omega) _ _ _ _

theorem UnpacksAt.isNaN_eq {position : Nat} {parts : UnpackedFloat}
    (h : UnpacksAt position parts) : parts.isNaN = decide (Magnitude.infinity < position) := by
  cases h with
  | zero s => rfl
  | finite hpos hfinite => exact (decide_eq_false hfinite.not_gt).symm
  | infinity s => rfl
  | notANumber h => exact (decide_eq_true h).symm

theorem UnpacksAt.isFinite_eq {position : Nat} {parts : UnpackedFloat}
    (h : UnpacksAt position parts) : parts.isFinite = decide (position < Magnitude.infinity) := by
  cases h with
  | zero s => rfl
  | finite hpos hfinite => exact (decide_eq_true hfinite).symm
  | infinity s => rfl
  | notANumber h => exact (decide_eq_false h.not_gt).symm

theorem UnpacksAt.beq_zero_eq {position : Nat} {parts : UnpackedFloat}
    (h : UnpacksAt position parts) (s : Sign) :
    parts.beq (.zero s) = decide (position = 0) := by
  cases h with
  | zero s => rfl
  | finite hpos hfinite s m e hm =>
      rw [decide_eq_false hpos.ne']
      cases s <;> rfl
  | infinity s => cases s <;> rfl
  | notANumber h => exact (decide_eq_false (Nat.ne_zero_of_lt h)).symm

theorem beq_parts_self {parts : UnpackedFloat} (h : parts.isNaN = false) :
    parts.beq parts = true := by
  cases parts with
  | zero s => rfl
  | finite s m e hm => cases s <;> simp [UnpackedFloat.beq, UnpackedFloat.compare]
  | infinity s => cases s <;> rfl
  | notANumber => cases h

theorem isNaN_eq (n : Float) : n.isNaN = decide (Magnitude.infinity < magnitude n) :=
  (unpacksAt n).isNaN_eq

theorem isFinite_eq (n : Float) : n.isFinite = decide (magnitude n < Magnitude.infinity) :=
  (unpacksAt n).isFinite_eq

theorem beq_zero_eq (n : Float) : (n == 0.0) = decide (magnitude n = 0) :=
  (unpacksAt n).beq_zero_eq .positive

theorem beq_self_of_isNaN {n : Float} (h : n.isNaN = false) : (n == n) = true :=
  beq_parts_self h

/-! ## Reading back -/

/-- What the text of a number is read as. A zero is printed without its sign. -/
def readBack (n : Float) : Float :=
  if n == 0.0 then 0.0 else n

/-- All readings of the text take the whole of it for one number. -/
structure ReadAs (text : String) (n : Float) : Prop where
  scan : scanNumeral? text.toList = some (n, [])
  leading : leadingNumber text = n
  whole : wholeNumber text = n

theorem trim_eq_self {cs : List Char} (h : ∀ c ∈ cs, isBlank c = false) : trim cs = cs := by
  have hkeep {cs : List Char} (h : ∀ c ∈ cs, isBlank c = false) :
      cs.dropWhile isBlank = cs := by
    cases cs with
    | nil => rfl
    | cons c cs => exact List.dropWhile_cons_of_neg (by simp [h c])
  have hback : ∀ c ∈ cs.reverse, isBlank c = false := fun c hc ↦ h c (List.mem_reverse.mp hc)
  rw [trim, trimStart, hkeep h, trimEnd, hkeep hback, List.reverse_reverse]

/-- There are no blanks in a numeral, so that all readings agree on it. -/
theorem readAs_of_scan {text : String} {n : Float}
    (hscan : scanNumeral? text.toList = some (n, [])) : ReadAs text n := by
  obtain ⟨cs, hnumeral, htext⟩ := scanNumeral?_sound hscan
  rw [List.append_nil] at htext
  have htrim : Numeral exponentValue (trim text.toList) n := by
    rw [htext, trim_eq_self fun c hc ↦ (hnumeral.isNumeralChar c hc).not_blank]
    exact hnumeral
  obtain ⟨hwhole, hleading⟩ := numbers_of_numeral htrim
  exact ⟨hscan, hleading, hwhole⟩

theorem numberText_of_isNaN {n : Float} (h : n.isNaN = true) : numberText n = "NaN" := by
  rw [isNaN_eq, decide_eq_true_iff] at h
  rw [numberText, if_pos h]

theorem readAs_numberText {n : Float} (h : n.isNaN = false) :
    ReadAs (numberText n) (readBack n) := by
  rw [isNaN_eq, decide_eq_false_iff_not, Nat.not_lt] at h
  apply readAs_of_scan
  by_cases hzero : magnitude n = 0
  · rw [readBack, if_pos (by rw [beq_zero_eq, decide_eq_true hzero]), numberText_of_zero hzero]
    rfl
  · obtain ⟨c, cs, htext, -, hscan⟩ := scanNumeral?_numberText h fun hn ↦ absurd hn hzero
    rw [readBack, if_neg (by simp [beq_zero_eq, hzero]), htext, hscan]

theorem readBack_beq {n : Float} (h : n.isNaN = false) : (readBack n == n) = true := by
  by_cases hzero : magnitude n = 0
  · rw [readBack, if_pos (by rw [beq_zero_eq, decide_eq_true hzero])]
    have hn := ofMagnitude_magnitude n
    rw [hzero] at hn
    rw [← hn]
    cases isNegative n <;> rfl
  · rw [readBack, if_neg (by simp [beq_zero_eq, hzero])]
    exact beq_self_of_isNaN h

/-! ## Exponents -/

/-- A numeral in exponent notation that writes out the sign of the exponent. -/
inductive ExponentNotation : List Char → Prop
  | signed {negative : Bool} {minus integer fraction mantissa digits : List Char} {sign : Char}
      (hminus : SignText negative minus) (hinteger : AllDigits integer)
      (hfraction : AllDigits fraction) (hmantissa : MantissaText integer fraction mantissa)
      (hsign : sign = '+' ∨ sign = '-') (hne : digits ≠ []) (hdigits : AllDigits digits) :
      ExponentNotation (minus ++ (mantissa ++ 'e' :: sign :: digits))

/-- There is no mark of an exponent in the text. -/
def ExponentFree (cs : List Char) : Prop :=
  ∀ c ∈ cs, c ≠ 'e' ∧ c ≠ 'E'

theorem ExponentNotation.not_exponentFree {cs : List Char} (h : ExponentNotation cs) :
    ¬ ExponentFree cs := by
  intro hfree
  cases h with
  | signed =>
      exact (hfree 'e' (List.mem_append_right _ (List.mem_append_right _ List.mem_cons_self))).1 rfl

theorem exponentFree_of_isMantissaChar {cs : List Char} (h : ∀ c ∈ cs, IsMantissaChar c) :
    ExponentFree cs := by
  have hmarks : ∀ c ∈ ['+', '-', '.'], c ≠ 'e' ∧ c ≠ 'E' := by simp
  intro c hc
  rcases h c hc with hdigit | hmark
  · constructor <;> rintro rfl <;> cases hdigit
  · exact hmarks c hmark

/-- The numbers that are printed in exponent notation. -/
def OutsidePositional (n : Float) : Prop :=
  n.isFinite = true ∧ (n == 0.0) = false ∧ (n.abs < 1e-6 ∨ 1e21 ≤ n.abs)

namespace Decimal

theorem allDigits_digitText (n : Nat) : AllDigits (digitText n) :=
  fun _ hc ↦ isDigit_digitText hc

theorem digitText_ne_nil (n : Nat) : digitText n ≠ [] :=
  Nat.toDigits_ne_nil

theorem exponentNotation_scientific (d : Decimal) {negative : Bool} {minus : List Char}
    (hminus : SignText negative minus) : ExponentNotation (minus ++ d.scientific) := by
  have hall := allDigits_digitText d.digits
  have hne := digitText_ne_nil d.digits
  have hexponent {integer fraction mantissa : List Char} (hinteger : AllDigits integer)
      (hfraction : AllDigits fraction) (hmantissa : MantissaText integer fraction mantissa)
      (e : Int) : ExponentNotation
        (minus ++ (mantissa ++ 'e' :: (if e < 0 then '-' else '+') :: digitText e.natAbs)) := by
    refine .signed hminus hinteger hfraction hmantissa ?_ (digitText_ne_nil _)
      (allDigits_digitText _)
    split <;> simp
  rw [scientific]
  cases hdigits : digitText d.digits with
  | nil => exact absurd hdigits hne
  | cons first more =>
      rw [hdigits] at hall
      cases more with
      | nil => exact hexponent hall (List.forall_mem_nil _) (.whole (List.cons_ne_nil _ _)) _
      | cons second more =>
          obtain ⟨hfirst, hmore⟩ := List.forall_mem_cons.mp hall
          exact hexponent (List.forall_mem_singleton.mpr hfirst) hmore
            (.point (List.cons_ne_nil first []) _) _

theorem mantissaText_positional (d : Decimal) : ∃ integer fraction, AllDigits integer ∧
    AllDigits fraction ∧ MantissaText integer fraction d.positional := by
  have hall := allDigits_digitText d.digits
  have hne := digitText_ne_nil d.digits
  have hzeros (n : Nat) : AllDigits (List.replicate n '0') := fun _ hc ↦ isDigit_zeros hc
  rw [positional]
  split
  · exact ⟨['0'], _, List.forall_mem_singleton.mpr rfl,
      List.forall_mem_append.mpr ⟨hzeros _, hall⟩, .point (List.cons_ne_nil _ _) _⟩
  · split
    · refine ⟨_, _, fun c hc ↦ hall c (List.mem_of_mem_take hc),
        fun c hc ↦ hall c (List.mem_of_mem_drop hc), .point ?_ _⟩
      rw [Ne, List.take_eq_nil_iff, not_or]
      exact ⟨by omega, hne⟩
    · exact ⟨_, [], List.forall_mem_append.mpr ⟨hall, hzeros _⟩, List.forall_mem_nil _,
        .whole (List.append_ne_nil_of_left_ne_nil hne _)⟩

end Decimal

theorem usesExponent_iff (n : Float) :
    usesExponent n = true ↔ n.abs < 1e-6 ∨ 1e21 ≤ n.abs := by
  rw [usesExponent, Bool.or_eq_true, decide_eq_true_iff, decide_eq_true_iff, or_comm]

/-- The sign of a number that is printed with its digits. -/
def minusText (n : Float) : List Char :=
  if isNegative n then ['-'] else []

theorem signText_minusText (n : Float) : SignText (isNegative n) (minusText n) := by
  rw [minusText]
  cases isNegative n with
  | false => exact .none
  | true => exact .minus

theorem finiteText_eq (n : Float) : finiteText n = minusText n ++
    if usesExponent n then (Decimal.shortest (magnitude n)).scientific
    else (Decimal.shortest (magnitude n)).positional := by
  rw [finiteText, minusText]
  cases isNegative n <;> rfl

theorem exponentNotation_numberText {n : Float} (h : OutsidePositional n) :
    ExponentNotation (numberText n).toList := by
  obtain ⟨hfinite, hzero, hrange⟩ := h
  rw [isFinite_eq, decide_eq_true_iff] at hfinite
  rw [beq_zero_eq, decide_eq_false_iff_not] at hzero
  rw [numberText, if_neg hfinite.not_gt, if_neg hfinite.ne, if_neg hzero, String.toList_ofList,
    finiteText_eq, if_pos ((usesExponent_iff n).mpr hrange)]
  exact Decimal.exponentNotation_scientific _ (signText_minusText n)

theorem exponentFree_numberText {n : Float} (h : ¬ OutsidePositional n) :
    ExponentFree (numberText n).toList := by
  have hword : ∀ word ∈ ["NaN", "-Infinity", "Infinity", "0"], ExponentFree word.toList := by
    simp [ExponentFree]
  by_cases hdigits : Magnitude.infinity ≤ magnitude n ∨ magnitude n = 0
  · apply hword
    rw [numberText]
    split
    · simp
    · split
      · split <;> simp
      · rw [if_pos (by omega)]
        simp
  · rw [not_or, Nat.not_le] at hdigits
    obtain ⟨hfinite, hzero⟩ := hdigits
    have hrange : ¬ usesExponent n = true := by
      intro hrange
      refine h ⟨?_, ?_, (usesExponent_iff n).mp hrange⟩
      · rw [isFinite_eq, decide_eq_true hfinite]
      · rw [beq_zero_eq, decide_eq_false hzero]
    obtain ⟨integer, fraction, hinteger, hfraction, hmantissa⟩ :=
      Decimal.mantissaText_positional (Decimal.shortest (magnitude n))
    rw [numberText, if_neg hfinite.not_gt, if_neg hfinite.ne, if_neg hzero, String.toList_ofList,
      finiteText_eq, if_neg hrange]
    exact exponentFree_of_isMantissaChar (List.forall_mem_append.mpr
      ⟨(signText_minusText n).isMantissaChar, hmantissa.isMantissaChar hinteger hfraction⟩)

/-- The text of a number reads back as that number, also when a cast to a text is undone. It is in
exponent notation if the number is out of the range of positional notation, and free of exponents
otherwise. -/
theorem printed_number_reads_back (n : Float) (h : n.isNaN = false) :
    ReadAs (numberText n) (readBack n) ∧ (readBack n == n) = true ∧
      ((Value.number n).cast .str).cast .num = .number (readBack n) ∧
      (((Value.number n).cast .str).cast .num).strictEq (.number n) = true ∧
      (ExponentNotation (numberText n).toList ↔ OutsidePositional n) ∧
      (¬ OutsidePositional n → ExponentFree (numberText n).toList) := by
  have hread := readAs_numberText h
  have hcast : ((Value.number n).cast .str).cast .num = .number (readBack n) :=
    congrArg Value.number hread.leading
  refine ⟨hread, readBack_beq h, hcast, ?_, ⟨fun hexponent ↦ ?_, exponentNotation_numberText⟩,
    exponentFree_numberText⟩
  · rw [hcast]
    exact readBack_beq h
  · by_contra hinside
    exact hexponent.not_exponentFree (exponentFree_numberText hinside)

theorem printed_number_reads_back_large : (-1e21 : Float).isNaN = false ∧
    ReadAs (numberText (-1e21)) (readBack (-1e21)) ∧
      ExponentNotation (numberText (-1e21)).toList := by
  have hnumber : (-1e21 : Float).isNaN = false := by decide +kernel
  obtain ⟨hread, -, -, -, hexponent, -⟩ := printed_number_reads_back (-1e21) hnumber
  exact ⟨hnumber, hread,
    hexponent.mpr ⟨by decide +kernel, by decide +kernel, by decide +kernel⟩⟩

example : numberText (-1e21) = "-1e+21" := by decide +kernel

end VexLang
